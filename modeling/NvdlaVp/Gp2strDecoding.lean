import Mathlib.Data.List.Basic
import NvdlaVp.Gp2strGroups

set_option autoImplicit false

namespace NvdlaVp.Gp2str
open Numerals

def wordBytes (n : ℕ) : List Entry :=
  [some (BitVec.ofNat 8 n), some (BitVec.ofNat 8 (n / 256)),
    some (BitVec.ofNat 8 (n / 256 / 256)), some (BitVec.ofNat 8 (n / 256 / 256 / 256))]

def readByte : List Char → Option Entry
  | ['X', 'X'] => some none
  | [a, b] => do
    let hi ← digit 16 a
    let lo ← digit 16 b
    some (some (BitVec.ofNat 8 (hi * 16 + lo)))
  | _ => none

/-- Eight digits, with no separator between them, are a word; everything else is bytes. -/
def readGroup (g : List Char) : Option (List Entry) :=
  if g.length = 8 ∧ g.all fun c => (digit 16 c).isSome then
    some (wordBytes (readDigits 16 0 g).1)
  else if g = [] then some []
  else (g.splitOn '_').mapM readByte

def readData : List Char → Option (List (List Entry))
  | '0' :: 'x' :: cs => (cs.splitOn ' ').tail.mapM readGroup
  | _ => none

structure Shown where
  address : ℕ
  data_length : ℕ
  groups : List (List Entry)

/-- The fields of the line; the data field ends at the blank before `resp`. -/
def readLine (s : List Char) : Option Shown :=
  let (address, s) := readDigits 16 0 (s.drop "GP: iswrite=1 addr=0x".toList.length)
  let (data_length, s) := readDigits 10 0 (s.drop " len=".toList.length)
  (readData ((s.drop " data=".toList.length).takeWhile (· ≠ 'r')).dropLast).map fun groups =>
    ⟨address, data_length, groups⟩

def Plain (c : Char) : Prop := c = 'X' ∨ (digit 16 c).isSome

theorem plain_ne {c d : Char} (hc : Plain c) (hd : d ≠ 'X' ∧ (digit 16 d).isSome = false) :
    c ≠ d := by
  rintro rfl
  rcases hc with h | h
  · exact hd.1 h
  · exact absurd (hd.2.symm.trans h) (by decide)

theorem plain_showByte {e : Entry} {c : Char} (hc : c ∈ showByte e) : Plain c := by
  cases e with
  | none => exact .inl (by simpa [showByte] using hc)
  | some b => exact .inr (isSome_digit_of_mem_padded (by decide) (by decide) hc)

theorem plain_showBytes {es : List Entry} {c : Char} (hc : c ∈ showBytes es) :
    c = '_' ∨ Plain c := by
  cases es with
  | nil => simp [showBytes] at hc
  | cons e es =>
    rw [showBytes_cons, List.mem_append, List.mem_flatMap] at hc
    rcases hc with hc | ⟨e', _, hc⟩
    · exact .inr (plain_showByte hc)
    · rcases List.mem_cons.mp hc with hc | hc
      · exact .inl hc
      · exact .inr (plain_showByte hc)

theorem plain_showGroup {es : List Entry} {c : Char} (hc : c ∈ showGroup es) :
    c = '_' ∨ Plain c := by
  unfold showGroup at hc
  split at hc
  · exact .inr (.inr (isSome_digit_of_mem_padded (by decide) (by decide) hc))
  · exact plain_showBytes hc

theorem length_showByte (e : Entry) : (showByte e).length = 2 := by
  cases e with
  | none => rfl
  | some b => exact length_padded (by decide) (by decide) (by have := b.isLt; omega)

theorem readByte_showByte (e : Entry) : readByte (showByte e) = some e := by
  cases e with
  | none => rfl
  | some b =>
    have hread : readDigits 16 0 (padded 16 2 b.toNat) = (b.toNat, []) := by
      have h := readDigits_padded (b := 16) (by decide) (by decide) 2 b.toNat []
      rwa [List.append_nil] at h
    have hplain (c : Char) (hc : c ∈ padded 16 2 b.toNat) : (digit 16 c).isSome :=
      isSome_digit_of_mem_padded (by decide) (by decide) hc
    have hlen : (padded 16 2 b.toNat).length = 2 := length_showByte (some b)
    obtain ⟨x, y, hp⟩ := List.length_eq_two.mp hlen
    rw [hp] at hread hplain
    obtain ⟨hi, hhi⟩ := Option.isSome_iff_exists.mp (hplain x (by simp))
    obtain ⟨lo, hlo⟩ := Option.isSome_iff_exists.mp (hplain y (by simp))
    have hx : x ≠ 'X' := by
      rintro rfl
      exact absurd (hplain 'X' (by simp)) (by decide)
    have hvalue : hi * 16 + lo = b.toNat := by
      simpa [readDigits, hhi, hlo] using congrArg Prod.fst hread
    rw [showByte, hp]
    simp [readByte, hx, hhi, hlo, hvalue]

theorem mapM_map {α β : Type} {f : β → Option α} {g : α → β} (h : ∀ x, f (g x) = some x)
    (xs : List α) : (xs.map g).mapM f = some xs := by
  induction xs with
  | nil => rfl
  | cons x xs ih => simp [h, ih]

theorem readBytes_showBytes {es : List Entry} (hne : es ≠ []) :
    ((showBytes es).splitOn '_').mapM readByte = some es := by
  have hsplit : (showBytes es).splitOn '_' = es.map showByte := by
    refine List.splitOn_intercalate '_' ?_ (by simpa using hne)
    intro g hg hmem
    obtain ⟨e, _, rfl⟩ := List.mem_map.mp hg
    exact plain_ne (plain_showByte hmem) (by decide) rfl
  rw [hsplit]
  exact mapM_map readByte_showByte es

theorem wordValue_lt (es : List Entry) : wordValue es < 256 ^ es.length := by
  induction es with
  | nil => decide
  | cons e es ih =>
    have he := (e.getD 0).isLt
    simp only [wordValue, List.length_cons, pow_succ]
    omega

theorem ofNat_wordValue (b : BitVec 8) (es : List Entry) :
    BitVec.ofNat 8 (wordValue (some b :: es)) = b := by
  apply BitVec.eq_of_toNat_eq
  have hb := b.isLt
  simp only [wordValue, Option.getD_some, BitVec.toNat_ofNat]
  omega

theorem wordValue_div (e : Entry) (es : List Entry) :
    wordValue (e :: es) / 256 = wordValue es := by
  have he := (e.getD 0).isLt
  simp only [wordValue]
  omega

theorem wordBytes_wordValue {es : List Entry} (hlen : es.length = 4)
    (hall : es.all Option.isSome) : wordBytes (wordValue es) = es := by
  match es, hlen with
  | [a, b, c, d], _ =>
    simp only [List.all_cons, List.all_nil, Bool.and_eq_true, Option.isSome_iff_exists] at hall
    obtain ⟨⟨a, rfl⟩, ⟨b, rfl⟩, ⟨c, rfl⟩, ⟨d, rfl⟩, _⟩ := hall
    simp only [wordBytes, wordValue_div, ofNat_wordValue]

theorem readGroup_showGroup (es : List Entry) : readGroup (showGroup es) = some es := by
  unfold showGroup
  split
  · rename_i hword
    have hlt : wordValue es < 16 ^ 8 := by
      have h := wordValue_lt es
      rw [hword.1] at h
      omega
    have hread : (readDigits 16 0 (padded 16 8 (wordValue es))).1 = wordValue es := by
      have h := readDigits_padded (b := 16) (by decide) (by decide) 8 (wordValue es) []
      rw [List.append_nil] at h
      rw [h]
      rfl
    have hdigits : (padded 16 8 (wordValue es)).all fun c => (digit 16 c).isSome :=
      List.all_eq_true.mpr fun c hc => isSome_digit_of_mem_padded (by decide) (by decide) hc
    rw [readGroup, if_pos ⟨length_padded (by decide) (by decide) hlt, hdigits⟩, hread,
      wordBytes_wordValue hword.1 hword.2]
  · cases es with
    | nil => rfl
    | cons e es =>
      have hne : showBytes (e :: es) ≠ [] := by
        intro h
        have hlen := congrArg List.length h
        rw [showBytes_cons, List.length_append, length_showByte] at hlen
        simp at hlen
      have hnot : ¬ ((showBytes (e :: es)).length = 8 ∧
          (showBytes (e :: es)).all fun c => (digit 16 c).isSome) := by
        rintro ⟨hlen, hdigits⟩
        cases es with
        | nil =>
          rw [showBytes_cons, List.length_append, length_showByte] at hlen
          simp at hlen
        | cons e' es =>
          have hdigit := List.all_eq_true.mp hdigits '_' (by simp [showBytes_cons])
          exact absurd hdigit (by decide)
      rw [readGroup, if_neg hnot, if_neg hne, readBytes_showBytes (by simp)]

theorem blank_not_mem_showGroup (g : List Entry) : ' ' ∉ showGroup g := by
  intro hmem
  rcases plain_showGroup hmem with h | h
  · exact absurd h (by decide)
  · exact plain_ne h (by decide) rfl

theorem splitOn_showGroups {g : List Char} (hg : ' ' ∉ g) (gs : List (List Entry)) :
    (g ++ showGroups gs).splitOn ' ' = g :: gs.map showGroup := by
  induction gs generalizing g with
  | nil => simpa [showGroups] using List.splitOn_eq_singleton hg
  | cons g' gs ih =>
    have hcons : g ++ showGroups (g' :: gs) = g ++ ' ' :: (showGroup g' ++ showGroups gs) := by
      simp [showGroups]
    rw [hcons, List.splitOn_append_cons_self_of_not_mem hg, ih (blank_not_mem_showGroup g'),
      List.map_cons]

theorem readData_showGroups (gs : List (List Entry)) :
    readData ('0' :: 'x' :: showGroups gs) = some gs := by
  have hsplit := splitOn_showGroups (g := []) (by simp) gs
  rw [List.nil_append] at hsplit
  rw [readData, hsplit, List.tail_cons]
  exact mapM_map readGroup_showGroup gs

theorem r_not_mem_data (gs : List (List Entry)) : 'r' ∉ '0' :: 'x' :: showGroups gs := by
  simp only [List.mem_cons, showGroups, List.mem_flatMap, not_or, not_exists, not_and]
  refine ⟨by decide, by decide, fun g _ => ⟨by decide, fun hmem => ?_⟩⟩
  rcases plain_showGroup hmem with h | h
  · exact absurd h (by decide)
  · exact plain_ne h (by decide) rfl

namespace Payload
variable {p : Payload}

theorem gp2str_eq (h : p.Passes) : p.gp2str = some ("GP: iswrite=".toList ++
    (if p.is_write then '1' else '0') :: " addr=0x".toList ++ Nat.toDigits 16 p.address.toNat ++
    " len=".toList ++ Nat.toDigits 10 p.data_length.toNat ++ " data=".toList ++
    ('0' :: 'x' :: showGroups p.groups) ++ " resp=".toList ++ p.response_string) := by
  have hbe : ¬ (p.byte_enable_ptr.isSome ∧ p.byte_enable_length = 0) :=
    fun hbad => h.byte_enable.mp hbad.1 hbad.2
  have hbe' : ¬ (p.byte_enable_ptr.isNone ∧ p.byte_enable_length ≠ 0) := by
    rintro ⟨hnone, hne⟩
    have hsome := h.byte_enable.mpr hne
    simp_all
  have hdata : ¬ (p.data_ptr.isNone ∧ p.data_length ≠ 0) := by
    rintro ⟨hnone, hne⟩
    rcases h.data with hsome | hzero
    · simp_all
    · exact hne hzero
  rw [gp2str, if_neg hbe, if_neg hbe', if_neg hdata, data_oss_eq h]
  rfl

/-- The data field ends where it did before the response was appended. -/
theorem takeWhile_data (gs : List (List Entry)) (r : List Char) :
    ((('0' :: 'x' :: showGroups gs) ++ (" resp=".toList ++ r)).takeWhile (· ≠ 'r')).dropLast =
      '0' :: 'x' :: showGroups gs := by
  have hdata : ∀ c ∈ '0' :: 'x' :: showGroups gs, decide (c ≠ 'r') = true := by
    intro c hc
    refine decide_eq_true ?_
    rintro rfl
    exact r_not_mem_data gs hc
  rw [List.takeWhile_append_of_pos hdata]
  have hdigit : (" resp=".toList ++ r).takeWhile (· ≠ 'r') = [' '] := by
    simp
  rw [hdigit, List.dropLast_concat]

theorem readLine_gp2str (h : p.Passes) : p.gp2str.bind readLine =
    some ⟨p.address.toNat, p.data_length.toNat, p.groups⟩ := by
  have hline : p.gp2str = some (("GP: iswrite=".toList ++
      (if p.is_write then '1' else '0') :: " addr=0x".toList) ++ (Nat.toDigits 16 p.address.toNat ++
      (" len=".toList ++ (Nat.toDigits 10 p.data_length.toNat ++ (" data=".toList ++
      (('0' :: 'x' :: showGroups p.groups) ++ (" resp=".toList ++ p.response_string))))))) := by
    rw [gp2str_eq h]
    simp only [List.append_assoc, List.cons_append]
  rw [hline, Option.bind_some, readLine, List.drop_left' (by simp),
    readDigits_toDigits (by decide) (by decide),
    readDigits_stop (by simpa using (by decide : digit 16 ' ' = none))]
  dsimp only
  rw [List.drop_left, readDigits_toDigits (by decide) (by decide),
    readDigits_stop (by simpa using (by decide : digit 10 ' ' = none))]
  dsimp only
  rw [List.drop_left, takeWhile_data, readData_showGroups]
  rfl

structure SameShown (p q : Payload) : Prop where
  address : p.address = q.address
  data_length : p.data_length = q.data_length
  enabled : ∀ i < p.data_length.toNat, p.enabled i = q.enabled i
  data : ∀ i < p.data_length.toNat, p.enabled i = true → p.data[i]? = q.data[i]?

/-- The line of a payload without errors is written without an access outside of its arrays
    and reads back as the address, the length and the entries, cut at the word boundaries;
    equal lines come from payloads that agree on everything shown. -/
theorem gp2str_decodes :
    (∀ p : Payload, p.Passes → ∃ s gs, p.gp2str = some s ∧
      readLine s = some ⟨p.address.toNat, p.data_length.toNat, gs⟩ ∧
      gs.flatten.length = p.data_length.toNat ∧
      (∀ i < p.data_length.toNat, gs.flatten[i]? =
        some (if p.enabled i then p.data[i]? else none)) ∧
      ∀ i, 0 < i → i < p.data_length.toNat →
        (i ∈ starts 0 gs ↔ (p.address.toNat + i) % 4 = 0)) ∧
    ∀ p q : Payload, p.Passes → q.Passes → p.gp2str = q.gp2str → p.SameShown q := by
  constructor
  · intro p h
    refine ⟨_, p.groups, gp2str_eq h, ?_, ?_, ?_, fun i => mem_starts_groups⟩
    · have hread := readLine_gp2str h
      rwa [gp2str_eq h, Option.bind_some] at hread
    · rw [flatten_groups, length_entries]
    · intro i hi
      rw [flatten_groups, getElem?_entries hi, Nat.zero_add]
      rfl
  · intro p q hp hq heq
    have hread := readLine_gp2str hp
    rw [heq, readLine_gp2str hq, Option.some.injEq, Shown.mk.injEq] at hread
    obtain ⟨haddr, hlen, hgroups⟩ := hread
    have hentry (i : ℕ) (hi : i < p.data_length.toNat) : p.entry i = q.entry i := by
      have hget := getElem?_entries (p := p) (i := 0) hi
      rw [← flatten_groups, ← hgroups, flatten_groups, getElem?_entries (hlen ▸ hi)] at hget
      simpa using hget.symm
    have henabled (i : ℕ) (hi : i < p.data_length.toNat) : p.enabled i = q.enabled i := by
      rw [← isSome_entry (by rw [length_data hp]; exact hi), hentry i hi,
        isSome_entry (by rw [length_data hq, hlen]; exact hi)]
    refine ⟨BitVec.eq_of_toNat_eq haddr.symm, BitVec.eq_of_toNat_eq hlen.symm, henabled, ?_⟩
    intro i hi hon
    have heq := hentry i hi
    rwa [entry, entry, if_pos hon, if_pos (henabled i hi ▸ hon)] at heq

theorem passes_example : example_payload.Passes := ⟨by decide, by decide⟩

theorem gp2str_decodes_example : ∃ s gs, example_payload.gp2str = some s ∧
    readLine s = some ⟨0x1003, 6, gs⟩ ∧ gs.flatten.length = 6 := by
  obtain ⟨s, gs, hs, hread, hlen, _⟩ := gp2str_decodes.1 example_payload passes_example
  exact ⟨s, gs, hs, hread, hlen⟩

end Payload
end NvdlaVp.Gp2str
