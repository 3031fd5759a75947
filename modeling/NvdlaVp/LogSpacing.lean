import Mathlib.Logic.Relation
import NvdlaVp.LogGrammar

set_option autoImplicit false

namespace NvdlaVp.LogControl
open CText Delimited

def Blank (ws : List Char) : Prop := ∀ c ∈ ws, isspace c

theorem dropWhile_blank {ws : List Char} (h : Blank ws) (x : List Char) :
    (ws ++ x).dropWhile isspace = x.dropWhile isspace :=
  List.dropWhile_append_of_pos h

theorem trim_append_left {ws : List Char} (h : Blank ws) (x : List Char) :
    trim (ws ++ x) = trim x := by
  rw [trim, dropWhile_blank h, trim]

theorem trim_append_right {ws : List Char} (h : Blank ws) (x : List Char) :
    trim (x ++ ws) = trim x := by
  have hdrop : ws.dropWhile isspace = [] := by simpa using dropWhile_blank h []
  have hreverse : Blank ws.reverse := fun c hc => h c (List.mem_reverse.mp hc)
  rw [trim, trim, List.dropWhile_append, hdrop]
  split
  · rename_i hempty
    rw [List.isEmpty_iff.mp hempty]
  · rw [List.reverse_append, dropWhile_blank hreverse]

def Padded (x x' : List Char) : Prop :=
  ∃ ws ws', Blank ws ∧ Blank ws' ∧ x' = ws ++ (x ++ ws')

theorem blank_nil : Blank [] := fun _ h => absurd h List.not_mem_nil

theorem Blank.append {ws ws' : List Char} (h : Blank ws) (h' : Blank ws') : Blank (ws ++ ws') :=
  fun c hc => (List.mem_append.mp hc).elim (h c) (h' c)

theorem Padded.refl (x : List Char) : Padded x x :=
  ⟨[], [], blank_nil, blank_nil, by simp⟩

theorem Padded.left {ws : List Char} (h : Blank ws) (x : List Char) : Padded x (ws ++ x) :=
  ⟨ws, [], h, blank_nil, by simp⟩

theorem Padded.right {ws : List Char} (h : Blank ws) (x : List Char) : Padded x (x ++ ws) :=
  ⟨[], ws, blank_nil, h, by simp⟩

theorem Padded.trans {x y z : List Char} (h : Padded x y) (h' : Padded y z) : Padded x z := by
  obtain ⟨ws, ws', hws, hws', rfl⟩ := h
  obtain ⟨us, us', hus, hus', rfl⟩ := h'
  exact ⟨us ++ ws, ws' ++ us', hus.append hws, hws'.append hus', by simp⟩

theorem Padded.trim_eq {x x' : List Char} (h : Padded x x') : trim x' = trim x := by
  obtain ⟨ws, ws', hws, hws', rfl⟩ := h
  rw [trim_append_left hws, trim_append_right hws']

theorem Padded.eq_nil {x x' : List Char} (h : Padded x x') (hx' : x' = []) : x = [] := by
  obtain ⟨ws, ws', _, _, rfl⟩ := h
  exact (List.append_eq_nil_iff.mp (List.append_eq_nil_iff.mp hx').2).1

def PaddedFields (seg seg' : List Char) : Prop :=
  List.Forall₂ Padded (seg.splitOn ':') (seg'.splitOn ':')

theorem PaddedFields.refl (seg : List Char) : PaddedFields seg seg :=
  List.forall₂_same.mpr fun x _ => .refl x

theorem PaddedFields.trans {seg seg' seg'' : List Char} (h : PaddedFields seg seg')
    (h' : PaddedFields seg' seg'') : PaddedFields seg seg'' :=
  forall₂_trans (fun _ _ _ => Padded.trans) h h'

theorem Blank.not_mem {ws : List Char} (h : Blank ws) {c : Char} (hc : isspace c = false) :
    c ∉ ws := by
  intro hmem
  have := h c hmem
  simp [hc] at this

theorem PaddedFields.right {ws : List Char} (h : Blank ws) (seg : List Char) :
    PaddedFields seg (seg ++ ws) :=
  forall₂_splitOn_append_right seg .refl (h.not_mem rfl) (.right h)

theorem PaddedFields.left {ws : List Char} (h : Blank ws) (seg : List Char) :
    PaddedFields seg (ws ++ seg) :=
  forall₂_splitOn_append_left seg .refl (h.not_mem rfl) (.left h)

theorem forall₂_splitOn_around {sep : Char} {R : List Char → List Char → Prop}
    {ws ws' : List Char} (hsep : isspace sep = false) (hrefl : ∀ x, R x x)
    (hright : ∀ x, R x (x ++ ws)) (hleft : ∀ x, R x (ws' ++ x)) (h : Blank ws) (h' : Blank ws')
    (a b : List Char) :
    List.Forall₂ R ((a ++ sep :: b).splitOn sep)
      ((a ++ (ws ++ sep :: (ws' ++ b))).splitOn sep) := by
  have hbefore := forall₂_splitOn_append_right a hrefl (h.not_mem hsep) hright
  have hafter := forall₂_splitOn_append_left b hrefl (h'.not_mem hsep) hleft
  have hshift : a ++ (ws ++ sep :: (ws' ++ b)) = (a ++ ws) ++ sep :: (ws' ++ b) := by simp
  rw [hshift, List.splitOn_append_cons_self, List.splitOn_append_cons_self]
  exact List.rel_append hbefore hafter

theorem PaddedFields.around {ws ws' : List Char} (h : Blank ws) (h' : Blank ws')
    (a b : List Char) : PaddedFields (a ++ ':' :: b) (a ++ (ws ++ ':' :: (ws' ++ b))) :=
  forall₂_splitOn_around rfl .refl (.right h) (.left h') h h' a b

/-- Whitespace added around one `:` or `;`. -/
inductive SpacedOnce : List Char → List Char → Prop where
  | intro (a b ws ws' : List Char) (sep : Char) (hsep : sep = ':' ∨ sep = ';')
    (h : Blank ws) (h' : Blank ws') :
    SpacedOnce (a ++ sep :: b) (a ++ (ws ++ sep :: (ws' ++ b)))

def Spaced : List Char → List Char → Prop := Relation.ReflTransGen SpacedOnce

def PaddedSegments (s s' : List Char) : Prop :=
  List.Forall₂ PaddedFields (segments s) (segments s')

theorem SpacedOnce.paddedSegments {s s' : List Char} (h : SpacedOnce s s') :
    PaddedSegments s s' := by
  obtain ⟨a, b, ws, ws', sep, hsep, hws, hws'⟩ := h
  rcases hsep with rfl | rfl
  · have hmiddle : ';' ∉ ws ++ ':' :: ws' := by
      simp [hws.not_mem (c := ';') rfl, hws'.not_mem (c := ';') rfl]
    have hrel := forall₂_splitOn_middle (m := [':']) a b PaddedFields.refl
      (by decide) hmiddle fun x y => by simpa using PaddedFields.around hws hws' x y
    simpa [PaddedSegments, segments] using hrel
  · exact forall₂_splitOn_around rfl .refl (.right hws) (.left hws') hws hws' a b

theorem Spaced.paddedSegments {s s' : List Char} (h : Spaced s s') : PaddedSegments s s' := by
  induction h with
  | refl => exact List.forall₂_same.mpr fun seg _ => .refl seg
  | tail _ hstep ih => exact forall₂_trans (fun _ _ _ => PaddedFields.trans) ih hstep.paddedSegments

theorem SpacedOnce.ne_nil {s s' : List Char} (h : SpacedOnce s s') : s' ≠ [] := by
  obtain ⟨a, b, ws, ws', sep, -, -, -⟩ := h
  simp

theorem Spaced.ne_nil {s s' : List Char} (h : Spaced s s') (hs : s ≠ []) : s' ≠ [] := by
  cases h with
  | refl => exact hs
  | tail _ hstep => exact hstep.ne_nil

/-- Only a segment with a second `:` at its end is read otherwise with whitespace added. -/
theorem entry_padded {seg seg' : List Char} (h : PaddedFields seg seg') (hseg : ¬ Doubled seg) :
    entry seg' = entry seg := by
  have hnone : ∀ key value, seg.splitOn ':' = [key, value, []] →
      accepted (trim key) (trim value) = none := by
    intro key value hfields
    have hgrammar := mt (doubled_of_splitOn hfields).mpr hseg
    rw [← isSome_accepted] at hgrammar
    exact Option.not_isSome_iff_eq_none.mp hgrammar
  unfold PaddedFields at h
  unfold entry
  generalize seg.splitOn ':' = fields, seg'.splitOn ':' = fields' at h hnone
  cases h with
  | nil => rfl
  | cons hkey h =>
    cases h with
    | nil => rfl
    | cons hvalue h =>
      cases h with
      | nil => simp only [hkey.trim_eq, hvalue.trim_eq]
      | @cons x x' _ _ hx h =>
        cases h with
        | cons => cases x <;> cases x' <;> rfl
        | nil =>
          by_cases hx' : x' = []
          · have hx := hx.eq_nil hx'
            rw [hx, hx']
            simp only [hkey.trim_eq, hvalue.trim_eq]
          · by_cases hempty : x = []
            · simp [hx', hempty, hnone _ _ (by rw [hempty])]
            · simp [hx', hempty]

theorem calls_parseInfo_padded {s s' seg seg' : List Char} (h : PaddedFields seg seg')
    (hseg : ¬ Doubled seg) : calls (parseInfo s' seg') = calls (parseInfo s seg) := by
  rw [calls_parseInfo, calls_parseInfo, entry_padded h hseg]

theorem flatMap_calls_padded {s s' : List Char} {segs segs' : List (List Char)}
    (h : List.Forall₂ PaddedFields segs segs') (hsegs : ∀ seg ∈ segs, ¬ Doubled seg) :
    segs'.flatMap (fun seg => calls (parseInfo s' seg)) =
      segs.flatMap fun seg => calls (parseInfo s seg) := by
  induction h with
  | nil => rfl
  | @cons seg seg' segs segs' hfields _ ih =>
    have hrest := ih fun x hx => hsegs x (List.mem_cons_of_mem seg hx)
    rw [List.flatMap_cons, List.flatMap_cons, hrest,
      calls_parseInfo_padded hfields (hsegs seg List.mem_cons_self)]

theorem calls_log_parse_spaced {named : Bool} {s s' : List Char} (hs : s ≠ [])
    (h : Spaced s s') (hsegs : ∀ seg ∈ segments s, ¬ Doubled seg) :
    calls (log_parse named s') = calls (log_parse named s) := by
  rw [calls_log_parse hs, calls_log_parse (h.ne_nil hs),
    flatMap_calls_padded h.paddedSegments hsegs]

/-- The documented grammar, segment by segment, and its indifference to whitespace. -/
structure Conforms (s : List Char) : Prop where
  grammar : ∀ seg ∈ segments s, (calls (parseInfo s seg) ≠ [] ↔ Documented seg)
  outfile : ∀ key value, key ++ ':' :: value ∈ segments s → ':' ∉ key → ':' ∉ value →
    trim key = "outfile".toList → calls (parseInfo s (key ++ ':' :: value)) =
      [.set_log_file_name (if trim value = [] then "outfile".toList else c_str (trim value))]
  others : ∀ named, calls (log_parse named s) =
    defaulted named ((segments s).flatMap fun seg => calls (parseInfo s seg))
  spacing : ∀ named s', Spaced s s' → calls (log_parse named s') = calls (log_parse named s)

theorem grammar_exactly {s : List Char} (hs : s ≠ []) :
    Conforms s ↔ ∀ seg ∈ segments s, ¬ Doubled seg := by
  constructor
  · intro h seg hseg hdoubled
    have hcalls : calls (parseInfo s seg) ≠ [] := calls_parseInfo_ne_nil.mpr (.inr hdoubled)
    exact not_documented_of_doubled hdoubled ((h.grammar seg hseg).mp hcalls)
  · intro h
    refine ⟨fun seg hseg => ?_, fun key value _ hkey hvalue houtfile => ?_, fun named => ?_,
      fun named s' hspaced => ?_⟩
    · rw [calls_parseInfo_ne_nil, or_iff_left (h seg hseg)]
    · exact calls_parseInfo_outfile hkey hvalue houtfile
    · exact calls_log_parse hs
    · exact calls_log_parse_spaced hs hspaced h

theorem grammar_exactly_readme :
    Conforms "outfile:sc_log_file;verbosity_level:sc_debug;McAdaptor:enable".toList := by
  refine (grammar_exactly (by decide)).mpr fun seg hseg hdoubled => ?_
  have hends : ∀ seg ∈ segments
      "outfile:sc_log_file;verbosity_level:sc_debug;McAdaptor:enable".toList,
      seg.getLast? ≠ some ':' := by decide
  obtain ⟨key, value, rfl, _⟩ := hdoubled
  refine hends _ hseg ?_
  rw [← List.cons_append, ← List.append_assoc, List.getLast?_concat]

/-- A second `:` at the end of a segment is overlooked, and no more so with a blank after it. -/
theorem second_colon_accepted :
    ¬ Conforms "McAdaptor:enable:".toList ∧
      calls (log_parse true "McAdaptor:enable:".toList) ≠ [] ∧
      calls (log_parse true "McAdaptor:enable: ".toList) = [] := by
  refine ⟨fun h => ?_, by decide, by decide⟩
  have hcalls : calls (parseInfo "McAdaptor:enable:".toList "McAdaptor:enable:".toList) ≠ [] := by
    decide
  have hdocumented := (h.grammar _ (by decide)).mp hcalls
  exact not_documented_of_splitOn (fun key value => by
    rw [show "McAdaptor:enable:".toList.splitOn ':' = ["McAdaptor".toList, "enable".toList, []]
      from by decide]
    simp) hdocumented

end NvdlaVp.LogControl
