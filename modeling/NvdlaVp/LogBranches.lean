import NvdlaVp.LogConfiguration

set_option autoImplicit false

namespace NvdlaVp.LogControl
open CText

structure Arguments where
  msg : List Char
  level : List Char
  t : ℕ
  deriving DecidableEq, Repr

def Arguments.run (a : Arguments) : List Event := set_sc_report a.msg a.level a.t

def arguments (val : List Char) : Option Arguments :=
  (keyValue val).map fun (key, value) => ⟨key, value, infoType key value⟩

/-- The calls of `set_sc_report`, in the order of the segments. -/
def entered (s : List Char) : List Arguments := (split ';' s).filterMap arguments

/-- The key is not reserved, and the check of the report level is passed. -/
def Arguments.ReachesSwitch (a : Arguments) (report_lvl : ℕ) : Prop :=
  a.msg ≠ "outfile".toList ∧ a.msg ≠ "verbosity_level".toList ∧
    reportLevel a.level = some report_lvl

def shouldNotCome : List Event :=
  [print "Error: Should not come here\n",
    print "Error: Invalid control string. Should not come here\n"]

def Misrouted (es : List Event) : Prop := ∃ e ∈ es, e ∈ shouldNotCome

theorem type_of_mem_entered {s : List Char} {a : Arguments} (h : a ∈ entered s) :
    a.t = infoType a.msg a.level := by
  obtain ⟨val, -, hval⟩ := List.mem_filterMap.mp h
  obtain ⟨⟨key, value⟩, -, rfl⟩ := Option.map_eq_some_iff.mp hval
  rfl

theorem parseInfo_arguments (s val : List Char) :
    parseInfo s val = (arguments val).elim (formatError s val) Arguments.run := by
  rw [parseInfo_eq, arguments]
  cases keyValue val <;> rfl

theorem infoType_of_key {key value : List Char} (hkey : key ≠ []) :
    infoType key value = if value = [] then 1 else 3 := by
  by_cases hvalue : value = [] <;> simp [infoType, hkey, hvalue]

theorem cout_expected {p text : List Char} (htext : text.take 6 = p)
    (hp : p ≠ "Error:".toList) : .cout text ∉ shouldNotCome := by
  intro hmem
  obtain h | h := List.mem_pair.mp hmem
  · obtain rfl := Event.cout.inj h
    exact hp htext.symm
  · obtain rfl := Event.cout.inj h
    exact hp htext.symm

theorem call_expected (c : Call) : .call c ∉ shouldNotCome := by
  intro hmem
  obtain h | h := List.mem_pair.mp hmem <;> exact absurd h nofun

theorem not_misrouted_nil : ¬ Misrouted [] := nofun

theorem not_misrouted_cons {e : Event} {es : List Event} (he : e ∉ shouldNotCome)
    (hes : ¬ Misrouted es) : ¬ Misrouted (e :: es) := by
  rintro ⟨f, hf, hmem⟩
  obtain rfl | hf := List.mem_cons.mp hf
  · exact he hmem
  · exact hes ⟨f, hf, hmem⟩

theorem not_misrouted_cout {p text : List Char} (htext : text.take 6 = p)
    (hp : p ≠ "Error:".toList) : ¬ Misrouted [.cout text] :=
  not_misrouted_cons (cout_expected htext hp) not_misrouted_nil

theorem not_misrouted_set {c : Call} {p text : List Char} (htext : text.take 6 = p)
    (hp : p ≠ "Error:".toList) : ¬ Misrouted [.call c, .cout text] :=
  not_misrouted_cons (call_expected c) (not_misrouted_cout htext hp)

theorem not_misrouted_flatMap {β : Type} {xs : List β} {f : β → List Event}
    (h : ∀ x ∈ xs, ¬ Misrouted (f x)) : ¬ Misrouted (xs.flatMap f) := by
  rintro ⟨e, he, hmem⟩
  obtain ⟨x, hx, he⟩ := List.mem_flatMap.mp he
  exact h x hx ⟨e, he, hmem⟩

theorem misrouted_append {es fs : List Event} :
    Misrouted (es ++ fs) ↔ Misrouted es ∨ Misrouted fs := by
  simp only [Misrouted, List.mem_append, or_and_right, exists_or]

theorem not_misrouted_calls (vs : List Severity) (f : Severity → Call) :
    ¬ Misrouted (vs.map fun v => .call (f v)) := by
  rintro ⟨e, he, hmem⟩
  obtain ⟨v, -, rfl⟩ := List.mem_map.mp he
  exact call_expected (f v) hmem

theorem misrouted_setOutfile {level : List Char} {t : ℕ} :
    Misrouted (setOutfile level t) ↔ t ≠ 1 ∧ t ≠ 3 := by
  unfold setOutfile
  by_cases hthree : t = 3
  · rw [if_pos hthree]
    refine iff_of_false ?_ fun h => h.2 hthree
    exact not_misrouted_set (p := "Set SC".toList) rfl (by decide)
  by_cases hone : t = 1
  · rw [if_neg hthree, if_pos hone]
    refine iff_of_false ?_ fun h => h.1 hone
    exact not_misrouted_set (p := "Set SC".toList) rfl (by decide)
  · rw [if_neg hthree, if_neg hone]
    exact iff_of_true ⟨_, List.mem_cons_self, List.mem_cons_self⟩ ⟨hone, hthree⟩

theorem not_misrouted_setVerbosity (level : List Char) : ¬ Misrouted (setVerbosity level) := by
  unfold setVerbosity
  cases verbosityLevel level with
  | none =>
    exact not_misrouted_cout (p := "Invali".toList) rfl (by decide)
  | some verbosity_lvl =>
    exact not_misrouted_set (p := "Set de".toList) rfl (by decide)

theorem misrouted_setReport {msg level : List Char} {t : ℕ} :
    Misrouted (setReport msg level t) ↔ (reportLevel level).isSome ∧ (t = 0 ∨ t = 1) := by
  unfold setReport
  cases reportLevel level with
  | none =>
    refine iff_of_false ?_ fun h => absurd h.1 nofun
    exact not_misrouted_cout (p := "Invali".toList) rfl (by decide)
  | some report_lvl =>
    dsimp only
    by_cases ht : t = 0 ∨ t = 1
    · rw [if_pos ht]
      exact iff_of_true ⟨_, List.mem_cons_self, List.mem_of_mem_tail List.mem_cons_self⟩
        ⟨rfl, ht⟩
    · rw [if_neg ht]
      refine iff_of_false ?_ fun h => ht h.2
      split
      · exact not_misrouted_calls severities _
      split
      · exact not_misrouted_calls severities _
      · exact not_misrouted_nil

theorem misrouted_run {a : Arguments} :
    Misrouted a.run ↔ a.msg = "outfile".toList ∧ a.t ≠ 1 ∧ a.t ≠ 3 ∨
      (∃ report_lvl, a.ReachesSwitch report_lvl) ∧ (a.t = 0 ∨ a.t = 1) := by
  unfold Arguments.run set_sc_report Arguments.ReachesSwitch
  by_cases houtfile : a.msg = "outfile".toList
  · rw [if_pos houtfile, misrouted_setOutfile]
    refine ⟨fun h => .inl ⟨houtfile, h⟩, ?_⟩
    rintro (⟨-, h⟩ | ⟨⟨_, hne, -⟩, -⟩)
    · exact h
    · contradiction
  by_cases hverbosity : a.msg = "verbosity_level".toList
  · rw [if_neg houtfile, if_pos hverbosity]
    refine iff_of_false (not_misrouted_setVerbosity a.level) ?_
    rintro (⟨h, -⟩ | ⟨⟨_, -, hne, -⟩, -⟩) <;> contradiction
  · rw [if_neg houtfile, if_neg hverbosity, misrouted_setReport, Option.isSome_iff_exists]
    constructor
    · rintro ⟨⟨report_lvl, hlevel⟩, ht⟩
      exact .inr ⟨⟨report_lvl, houtfile, hverbosity, hlevel⟩, ht⟩
    · rintro (⟨h, -⟩ | ⟨⟨report_lvl, -, -, hlevel⟩, ht⟩)
      · contradiction
      · exact ⟨⟨report_lvl, hlevel⟩, ht⟩

section Entered
variable {s : List Char} {a : Arguments}

theorem outfile_of_mem_entered (ha : a ∈ entered s) (hmsg : a.msg = "outfile".toList) :
    a.t = 1 ∨ a.t = 3 := by
  have hne : a.msg ≠ [] := hmsg.trans_ne (by decide)
  rw [type_of_mem_entered ha, infoType_of_key hne]
  split
  · exact .inl rfl
  · exact .inr rfl

theorem switch_of_mem_entered {report_lvl : ℕ} (ha : a ∈ entered s)
    (hswitch : a.ReachesSwitch report_lvl) : a.t = if a.msg = [] then 2 else 3 := by
  obtain ⟨-, -, hlevel⟩ := hswitch
  rw [type_of_mem_entered ha, infoType_of_value (ne_nil_of_reportLevel hlevel)]

theorem run_of_mem_entered {report_lvl : ℕ} (ha : a ∈ entered s)
    (hswitch : a.ReachesSwitch report_lvl) :
    a.run = severities.map fun v =>
      .call (if a.msg = [] then .set_actions v (scActions report_lvl v)
        else .set_msg_actions (c_str a.msg) v (scActions report_lvl v)) := by
  obtain ⟨houtfile, hverbosity, hlevel⟩ := hswitch
  rw [Arguments.run, set_sc_report, if_neg houtfile, if_neg hverbosity, type_of_mem_entered ha]
  exact setReport_of_reportLevel hlevel

theorem not_misrouted_run (ha : a ∈ entered s) : ¬ Misrouted a.run := by
  rw [misrouted_run]
  rintro (⟨hmsg, hone, hthree⟩ | ⟨⟨report_lvl, hswitch⟩, ht⟩)
  · obtain h | h := outfile_of_mem_entered ha hmsg <;> contradiction
  · have htype := switch_of_mem_entered ha hswitch
    split at htype <;> omega

theorem not_misrouted_formatError (s val : List Char) : ¬ Misrouted (formatError s val) :=
  not_misrouted_cons (cout_expected (p := "Error ".toList) rfl (by decide))
    (not_misrouted_cout (p := " ...Ig".toList) rfl (by decide))

theorem not_misrouted_parseInfo {val : List Char} (hval : val ∈ split ';' s) :
    ¬ Misrouted (parseInfo s val) := by
  rw [parseInfo_arguments]
  cases ha : arguments val with
  | none => exact not_misrouted_formatError s val
  | some a => exact not_misrouted_run (List.mem_filterMap.mpr ⟨val, hval, ha⟩)

theorem not_misrouted_log_parse (named : Bool) (s : List Char) :
    ¬ Misrouted (log_parse named s) := by
  rw [log_parse]
  split
  · exact not_misrouted_cout (p := "Warnin".toList) rfl (by decide)
  dsimp only
  rw [List.cons_append]
  refine not_misrouted_cons (cout_expected (p := "sc_log".toList) rfl (by decide)) ?_
  rw [misrouted_append]
  rintro (h | h)
  · exact not_misrouted_flatMap (fun _ => not_misrouted_parseInfo) h
  revert h
  split
  · exact not_misrouted_nil
  · exact not_misrouted_set (p := "Set SC".toList) rfl (by decide)

end Entered

/-- What the body of the loop can do with the segments of a control string. -/
structure BranchesUnreached (named : Bool) (s : List Char) : Prop where
  segments : ∀ val ∈ split ';' s,
    parseInfo s val = (arguments val).elim (formatError s val) Arguments.run
  emptySplit : ∀ val ∈ split ';' s, ':' ∈ val → split ':' val ≠ []
  outfile : ∀ a ∈ entered s, a.msg = "outfile".toList → a.t = 1 ∨ a.t = 3
  switch : ∀ a ∈ entered s, ∀ report_lvl, a.ReachesSwitch report_lvl →
    a.t ≠ 0 ∧ a.t ≠ 1 ∧ (a.t = 2 ↔ a.msg = []) ∧ (a.t = 3 ↔ a.msg ≠ [])
  applied : ∀ a ∈ entered s, ∀ report_lvl, a.ReachesSwitch report_lvl →
    a.run = severities.map fun v =>
      .call (if a.msg = [] then .set_actions v (scActions report_lvl v)
        else .set_msg_actions (c_str a.msg) v (scActions report_lvl v))
  texts : ¬ Misrouted (log_parse named s)

theorem branches_unreached (named : Bool) (s : List Char) : BranchesUnreached named s where
  segments val _ := parseInfo_arguments s val
  emptySplit _ _ hmem := split_ne_nil (List.ne_nil_of_mem hmem)
  outfile _ ha hmsg := outfile_of_mem_entered ha hmsg
  switch a ha report_lvl hswitch := by
    have htype := switch_of_mem_entered ha hswitch
    by_cases hmsg : a.msg = [] <;> simp [htype, hmsg]
  applied _ ha _ hswitch := run_of_mem_entered ha hswitch
  texts := not_misrouted_log_parse named s

/-- A segment for a file without a name, one for all messages, and one without a level. -/
example : entered "outfile: ; :error;McAdaptor:".toList =
    [⟨"outfile".toList, [], 1⟩, ⟨[], "error".toList, 2⟩, ⟨"McAdaptor".toList, [], 1⟩] := by
  decide

end NvdlaVp.LogControl
