import NvdlaVp.Delimited
import NvdlaVp.LogControl

set_option autoImplicit false

namespace NvdlaVp.LogControl
open CText Delimited

inductive Setting where
  | outfile (name : List Char)
  | verbosity (level : ℕ)
  | report (msg : List Char) (report_lvl : ℕ)
  deriving DecidableEq, Repr

def accepted (key value : List Char) : Option Setting :=
  if key = "outfile".toList then
    some (.outfile (if value = [] then "outfile".toList else c_str value))
  else if key = "verbosity_level".toList then (verbosityLevel value).map .verbosity
  else (reportLevel value).map (.report key)

def Setting.calls : Setting → List Call
  | .outfile name => [.set_log_file_name name]
  | .verbosity level => [.set_verbosity_level level]
  | .report msg report_lvl =>
    severities.map fun v =>
      if msg = [] then .set_actions v (scActions report_lvl v)
      else .set_msg_actions (c_str msg) v (scActions report_lvl v)

def entry (val : List Char) : Option Setting :=
  match val.splitOn ':' with
  | [key, value] | [key, value, []] => accepted (trim key) (trim value)
  | _ => none

theorem calls_append (es fs : List Event) : calls (es ++ fs) = calls es ++ calls fs :=
  List.filterMap_append

theorem calls_cout (text : List Char) (es : List Event) :
    calls (.cout text :: es) = calls es := rfl

theorem calls_flatMap {β : Type} (xs : List β) (f : β → List Event) :
    calls (xs.flatMap f) = xs.flatMap fun x => calls (f x) := by
  induction xs with
  | nil => rfl
  | cons x xs ih => simp [calls_append, ih]

theorem reportLevel_nil : reportLevel [] = none := by decide

theorem calls_setOutfile (value : List Char) :
    calls (setOutfile value (infoType "outfile".toList value)) =
      (Setting.outfile (if value = [] then "outfile".toList else c_str value)).calls := by
  cases value with
  | nil => rfl
  | cons c cs => simp [setOutfile, infoType, calls, Event.call?, Setting.calls]

theorem calls_setVerbosity (value : List Char) : calls (setVerbosity value) =
    ((verbosityLevel value).map Setting.verbosity).toList.flatMap Setting.calls := by
  unfold setVerbosity
  cases verbosityLevel value <;> rfl

theorem ne_nil_of_reportLevel {value : List Char} {report_lvl : ℕ}
    (h : reportLevel value = some report_lvl) : value ≠ [] := by
  rintro rfl
  exact absurd (h.symm.trans reportLevel_nil) (by simp)

theorem infoType_of_value {key value : List Char} (hvalue : value ≠ []) :
    infoType key value = if key = [] then 2 else 3 := by
  by_cases hkey : key = [] <;> simp [infoType, hkey, hvalue]

theorem setReport_of_reportLevel {key value : List Char} {report_lvl : ℕ}
    (h : reportLevel value = some report_lvl) :
    setReport key value (infoType key value) = severities.map fun v =>
      .call (if key = [] then .set_actions v (scActions report_lvl v)
        else .set_msg_actions (c_str key) v (scActions report_lvl v)) := by
  rw [setReport, h, infoType_of_value (ne_nil_of_reportLevel h)]
  by_cases hkey : key = [] <;> simp [hkey]

theorem calls_setReport (key value : List Char) :
    calls (setReport key value (infoType key value)) =
      ((reportLevel value).map (Setting.report key)).toList.flatMap Setting.calls := by
  cases hlevel : reportLevel value with
  | none =>
    rw [setReport, hlevel]
    rfl
  | some report_lvl =>
    rw [setReport_of_reportLevel hlevel, Option.map_some, Option.toList_some,
      List.flatMap_singleton]
    rfl

theorem calls_set_sc_report (key value : List Char) :
    calls (set_sc_report key value (infoType key value)) =
      (accepted key value).toList.flatMap Setting.calls := by
  rw [set_sc_report, accepted]
  split
  · rename_i hkey
    rw [hkey, calls_setOutfile, Option.toList_some, List.flatMap_singleton]
  split
  · exact calls_setVerbosity value
  · exact calls_setReport key value

theorem calls_setPair (key value : List Char) :
    calls (setPair key value) = (accepted (trim key) (trim value)).toList.flatMap Setting.calls :=
  calls_set_sc_report (trim key) (trim value)

theorem split_eq {delim : Char} {s x : List Char} {xs : List (List Char)}
    (h : s.splitOn delim = xs ++ [x]) :
    split delim s = if x = [] then xs else xs ++ [x] := by
  induction s generalizing xs x with
  | nil =>
    obtain ⟨rfl, rfl⟩ := splitOn_nil_concat h
    rfl
  | cons c s ih =>
    obtain ⟨ys, y, hy⟩ := exists_splitOn_concat delim s
    rw [split, ih hy]
    obtain ⟨hc, rfl, rfl⟩ | ⟨hc, rfl, rfl, rfl⟩ | ⟨hc, y', ys, rfl, rfl, rfl⟩ :=
      splitOn_cons_concat hy h
    · rw [if_pos hc]
      split <;> rfl
    · rw [if_neg hc]
      by_cases hy : y = [] <;> simp [hy]
    · rw [if_neg hc]
      by_cases hy : x = [] <;> simp [hy]

theorem calls_formatError (s val : List Char) : calls (formatError s val) = [] := rfl

theorem calls_parseInfo (s val : List Char) :
    calls (parseInfo s val) = (entry val).toList.flatMap Setting.calls := by
  obtain ⟨xs, x, hx⟩ := exists_splitOn_concat ':' val
  have hsplit := split_eq hx
  unfold parseInfo entry
  match xs, hx, hsplit with
  | [], hx, _ =>
    rw [if_pos (not_mem_of_splitOn hx), hx]
    rfl
  | [key], hx, hsplit =>
    rw [if_neg (not_not.mpr (mem_of_splitOn hx)), hx, hsplit]
    by_cases hempty : x = []
    · rw [if_pos hempty, hempty]
      exact calls_setPair key []
    · rw [if_neg hempty]
      exact calls_setPair key x
  | [key, value], hx, hsplit =>
    rw [if_neg (not_not.mpr (mem_of_splitOn hx)), hx, hsplit]
    by_cases hempty : x = []
    · rw [if_pos hempty, hempty]
      exact calls_setPair key value
    · rw [if_neg hempty]
      simp [hempty, calls_formatError]
  | key :: value :: y :: ys, hx, hsplit =>
    rw [if_neg (not_not.mpr (mem_of_splitOn hx)), hx, hsplit]
    by_cases hempty : x = [] <;> cases ys <;> simp [hempty, calls_formatError]

def verbosityNames : List (List Char) :=
  ["sc_none".toList, "sc_low".toList, "sc_medium".toList, "sc_high".toList, "sc_full".toList,
    "sc_debug".toList]

def reportNames : List (List Char) :=
  ["info".toList, "warning".toList, "error".toList, "fatal".toList, "enable".toList,
    "disable".toList]

/-- The keys and values of the control string that are documented. -/
def Grammar (key value : List Char) : Prop :=
  key = "outfile".toList ∨
    key = "verbosity_level".toList ∧ value ∈ verbosityNames ∨
    key ≠ "outfile".toList ∧ key ≠ "verbosity_level".toList ∧ value ∈ reportNames

instance (key value : List Char) : Decidable (Grammar key value) :=
  inferInstanceAs (Decidable (_ ∨ _ ∨ _))

theorem isSome_ite {β : Type} {p : Prop} [Decidable p] (x : β) (y : Option β) :
    (if p then some x else y).isSome ↔ p ∨ y.isSome := by
  by_cases hp : p
  · rw [if_pos hp]
    exact ⟨fun _ => .inl hp, fun _ => rfl⟩
  · rw [if_neg hp]
    exact ⟨.inr, fun h => h.resolve_left hp⟩

theorem isSome_verbosityLevel {value : List Char} :
    (verbosityLevel value).isSome ↔ value ∈ verbosityNames := by
  simp only [verbosityLevel, verbosityNames, isSome_ite, List.mem_cons, Option.isSome_none,
    List.not_mem_nil, Bool.false_eq_true]

theorem isSome_reportLevel {value : List Char} :
    (reportLevel value).isSome ↔ value ∈ reportNames := by
  simp only [reportLevel, reportNames, isSome_ite, List.mem_cons, Option.isSome_none,
    List.not_mem_nil, Bool.false_eq_true]

theorem isSome_accepted {key value : List Char} :
    (accepted key value).isSome ↔ Grammar key value := by
  unfold accepted Grammar
  by_cases houtfile : key = "outfile".toList
  · rw [if_pos houtfile]
    exact ⟨fun _ => .inl houtfile, fun _ => rfl⟩
  by_cases hverbosity : key = "verbosity_level".toList
  · rw [if_neg houtfile, if_pos hverbosity, Option.isSome_map, isSome_verbosityLevel]
    have hothers : ¬ (key ≠ "outfile".toList ∧ key ≠ "verbosity_level".toList ∧
        value ∈ reportNames) := fun h => h.2.1 hverbosity
    rw [or_iff_right houtfile, or_iff_left hothers, and_iff_right hverbosity]
  · rw [if_neg houtfile, if_neg hverbosity, Option.isSome_map, isSome_reportLevel]
    rw [or_iff_right houtfile, or_iff_right fun h => hverbosity h.1, and_iff_right houtfile,
      and_iff_right hverbosity]

/-- Exactly one `:` between a key and a value of the grammar. -/
def Documented (seg : List Char) : Prop :=
  ∃ key value, seg = key ++ ':' :: value ∧ ':' ∉ key ∧ ':' ∉ value ∧
    Grammar (trim key) (trim value)

/-- A documented key and value, and a second `:` as the last character. -/
def Doubled (seg : List Char) : Prop :=
  ∃ key value, seg = key ++ ':' :: (value ++ [':']) ∧ ':' ∉ key ∧ ':' ∉ value ∧
    Grammar (trim key) (trim value)

theorem splitOn_doubled {key value : List Char} (hkey : ':' ∉ key) (hvalue : ':' ∉ value) :
    (key ++ ':' :: (value ++ [':'])).splitOn ':' = [key, value, []] := by
  rw [List.splitOn_append_cons_self_of_not_mem hkey,
    List.splitOn_append_cons_self_of_not_mem hvalue, List.splitOn_nil]

theorem documented_of_splitOn {seg key value : List Char} (h : seg.splitOn ':' = [key, value]) :
    Documented seg ↔ Grammar (trim key) (trim value) := by
  constructor
  · rintro ⟨key', value', hseg, hkey, hvalue, hgrammar⟩
    have hpair := splitOn_pair.mpr ⟨hseg, hkey, hvalue⟩
    rw [h] at hpair
    obtain ⟨rfl, rfl⟩ : key = key' ∧ value = value' := by simpa using hpair
    exact hgrammar
  · intro hgrammar
    obtain ⟨hseg, hkey, hvalue⟩ := splitOn_pair.mp h
    exact ⟨key, value, hseg, hkey, hvalue, hgrammar⟩

theorem doubled_of_splitOn {seg key value : List Char}
    (h : seg.splitOn ':' = [key, value, []]) :
    Doubled seg ↔ Grammar (trim key) (trim value) := by
  constructor
  · rintro ⟨key', value', rfl, hkey, hvalue, hgrammar⟩
    rw [splitOn_doubled hkey hvalue] at h
    obtain ⟨rfl, rfl⟩ : key' = key ∧ value' = value := by simpa using h
    exact hgrammar
  · intro hgrammar
    have hseg : [':'].intercalate (seg.splitOn ':') = seg := List.intercalate_splitOn ':'
    rw [h] at hseg
    refine ⟨key, value, by simpa using hseg.symm, ?_, ?_, hgrammar⟩
    · exact not_mem_of_mem_splitOn (by rw [h]; simp)
    · exact not_mem_of_mem_splitOn (by rw [h]; simp)

theorem not_documented_of_splitOn {seg : List Char}
    (h : ∀ key value, seg.splitOn ':' ≠ [key, value]) : ¬ Documented seg := by
  rintro ⟨key, value, hseg, hkey, hvalue, _⟩
  exact h key value (splitOn_pair.mpr ⟨hseg, hkey, hvalue⟩)

theorem not_doubled_of_splitOn {seg : List Char}
    (h : ∀ key value, seg.splitOn ':' ≠ [key, value, []]) : ¬ Doubled seg := by
  rintro ⟨key, value, rfl, hkey, hvalue, _⟩
  exact h key value (splitOn_doubled hkey hvalue)

/-- What `log_parse` takes for an entry: a documented one, or one with a second `:` at its end. -/
theorem isSome_entry {seg : List Char} : (entry seg).isSome ↔ Documented seg ∨ Doubled seg := by
  unfold entry
  split
  · rename_i key value hfields
    rw [isSome_accepted, documented_of_splitOn hfields]
    refine ⟨.inl, fun h => h.resolve_right (not_doubled_of_splitOn fun k v => ?_)⟩
    rw [hfields]
    simp
  · rename_i key value hfields
    rw [isSome_accepted, doubled_of_splitOn hfields]
    refine ⟨.inr, fun h => h.resolve_left (not_documented_of_splitOn fun k v => ?_)⟩
    rw [hfields]
    simp
  · rename_i hone htwo
    have hdocumented := not_documented_of_splitOn hone
    have hdoubled := not_doubled_of_splitOn htwo
    simp [hdocumented, hdoubled]

theorem not_documented_of_doubled {seg : List Char} (h : Doubled seg) : ¬ Documented seg := by
  obtain ⟨key, value, rfl, hkey, hvalue, _⟩ := h
  refine not_documented_of_splitOn fun k v => ?_
  rw [splitOn_doubled hkey hvalue]
  simp

theorem Setting.calls_ne_nil (setting : Setting) : setting.calls ≠ [] := by
  cases setting <;> simp [Setting.calls, severities]

theorem calls_parseInfo_ne_nil {s seg : List Char} :
    calls (parseInfo s seg) ≠ [] ↔ Documented seg ∨ Doubled seg := by
  rw [calls_parseInfo, ← isSome_entry]
  cases entry seg with
  | none => simp
  | some setting => simpa using setting.calls_ne_nil

theorem calls_parseInfo_outfile {s key value : List Char} (hkey : ':' ∉ key)
    (hvalue : ':' ∉ value) (houtfile : trim key = "outfile".toList) :
    calls (parseInfo s (key ++ ':' :: value)) = [.set_log_file_name
      (if trim value = [] then "outfile".toList else c_str (trim value))] := by
  have hfields := splitOn_pair.mpr ⟨rfl, hkey, hvalue⟩
  rw [calls_parseInfo, entry, hfields]
  dsimp only
  rw [accepted, if_pos houtfile]
  rfl

def segments (s : List Char) : List (List Char) := s.splitOn ';'

/-- The calls of the segments one after the other, and the default file name at the end. -/
def defaulted (named : Bool) (cs : List Call) : List Call :=
  cs ++ if named || cs.any Call.names then [] else [.set_log_file_name "outfile".toList]

theorem calls_split (s : List Char) :
    calls ((split ';' s).flatMap (parseInfo s)) =
      (segments s).flatMap fun seg => calls (parseInfo s seg) := by
  obtain ⟨xs, x, hx⟩ := exists_splitOn_concat ';' s
  rw [calls_flatMap, split_eq hx, segments, hx]
  split
  · rename_i hempty
    rw [hempty, List.flatMap_append]
    simp [calls_parseInfo, entry]
  · rfl

theorem calls_log_parse {named : Bool} {s : List Char} (hs : s ≠ []) :
    calls (log_parse named s) =
      defaulted named ((segments s).flatMap fun seg => calls (parseInfo s seg)) := by
  rw [log_parse, if_neg hs, ← calls_split, defaulted]
  refine (calls_append _ _).trans (congrArg₂ _ (calls_cout _ _) ?_)
  rw [apply_ite calls]
  rfl

end NvdlaVp.LogControl
