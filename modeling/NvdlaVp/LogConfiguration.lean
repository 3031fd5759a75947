import Mathlib.Data.Int.Basic
import Mathlib.Data.List.TakeWhile
import NvdlaVp.LastWrite
import NvdlaVp.LogGrammar

set_option autoImplicit false

namespace NvdlaVp.LogControl
open CText Delimited LastWrite

structure Config (α : Type*) where
  verbosity : ℤ
  global : Severity → α
  message : List Char → Severity → α

namespace Config
variable {α : Type*}

@[ext] theorem ext' {c d : Config α} (hverbosity : c.verbosity = d.verbosity)
    (hglobal : ∀ v, c.global v = d.global v) (hmessage : ∀ m v, c.message m v = d.message m v) :
    c = d := by
  cases c
  cases d
  simp only [mk.injEq]
  exact ⟨hverbosity, funext hglobal, funext fun m => funext (hmessage m)⟩

def apply (word : Actions → α) (c : Config α) : Call → Config α
  | .set_log_file_name _ => c
  | .set_verbosity_level level => { c with verbosity := level }
  | .set_actions v actions =>
    { c with global := fun v' => if v' = v then word actions else c.global v' }
  | .set_msg_actions msg_type v actions =>
    { c with message := fun m v' =>
        if m = msg_type ∧ v' = v then word actions else c.message m v' }

def run (word : Actions → α) (c : Config α) (cs : List Call) : Config α :=
  cs.foldl (apply word) c

variable {word : Actions → α} {c : Config α}

@[simp] theorem run_nil : c.run word [] = c := rfl

theorem run_append (cs ds : List Call) :
    c.run word (cs ++ ds) = (c.run word cs).run word ds :=
  List.foldl_append

theorem run_flatMap {β : Type*} (f : β → List Call) (xs : List β) :
    c.run word (xs.flatMap f) = xs.foldl (fun d x => d.run word (f x)) c := by
  induction xs generalizing c with
  | nil => rfl
  | cons x xs ih => rw [List.flatMap_cons, run_append, ih, List.foldl_cons]

theorem run_defaulted (named : Bool) (cs : List Call) :
    c.run word (defaulted named cs) = c.run word cs := by
  rw [defaulted, run_append]
  split <;> rfl

end Config

def keyValue (seg : List Char) : Option (List Char × List Char) :=
  if ':' ∈ seg then
    match split ':' seg with
    | [key] => some (trim key, [])
    | [key, value] => some (trim key, trim value)
    | _ => none
  else none

def valid (seg : List Char) : Option (List Char × List Char) :=
  (keyValue seg).filter fun (key, value) =>
    calls (set_sc_report key value (infoType key value)) ≠ []

def valueOf (key seg : List Char) : Option (List Char) :=
  (valid seg).bind fun (k, value) => if k = key then some value else none

def lastValue (key : List Char) (segs : List (List Char)) : Option (List Char) :=
  last (valueOf key) segs

def Severity.name : Severity → List Char
  | .info => "info".toList
  | .warning => "warning".toList
  | .error => "error".toList
  | .fatal => "fatal".toList

/-- The default from the named severity on, or throughout; otherwise nothing is done. -/
def levelActions (value : List Char) (v : Severity) : Actions :=
  if value = "enable".toList ∨ ∃ L ∈ severities, value = L.name ∧ L.value ≤ v.value then
    .default v
  else .disable

theorem scActions_eq {value : List Char} {report_lvl : ℕ}
    (h : reportLevel value = some report_lvl) (v : Severity) :
    scActions report_lvl v = levelActions value v := by
  have hvalue := isSome_reportLevel.mp (by rw [h]; rfl)
  simp only [reportNames, List.mem_cons, List.not_mem_nil, or_false] at hvalue
  rcases hvalue with rfl | rfl | rfl | rfl | rfl | rfl <;>
    obtain rfl := Option.some.inj h <;> cases v <;> decide

theorem valid_eq_some {seg key value : List Char} (h : valid seg = some (key, value)) :
    keyValue seg = some (key, value) ∧ (accepted key value).isSome := by
  obtain ⟨hkey, hcalls⟩ := Option.filter_eq_some_iff.mp h
  refine ⟨hkey, ?_⟩
  rw [decide_eq_true_eq, calls_set_sc_report] at hcalls
  cases haccepted : accepted key value with
  | none => simp [haccepted] at hcalls
  | some setting => rfl

theorem split_ne_nil {delim : Char} {s : List Char} (hs : s ≠ []) : split delim s ≠ [] := by
  cases s with
  | nil => contradiction
  | cons c cs =>
    rw [split]
    split
    · exact List.cons_ne_nil _ _
    · split <;> exact List.cons_ne_nil _ _

theorem parseInfo_eq (s seg : List Char) :
    parseInfo s seg = (keyValue seg).elim (formatError s seg) fun (key, value) =>
      set_sc_report key value (infoType key value) := by
  unfold parseInfo keyValue
  by_cases hmem : ':' ∈ seg
  · have hne : split ':' seg ≠ [] := split_ne_nil (List.ne_nil_of_mem hmem)
    rw [if_neg (not_not.mpr hmem), if_pos hmem]
    match split ':' seg, hne with
    | [key], _ => rfl
    | [key, value], _ => rfl
    | key :: value :: x :: xs, _ => rfl
  · rw [if_pos hmem, if_neg hmem]
    rfl

theorem calls_segment (s seg : List Char) :
    calls (parseInfo s seg) =
      (valid seg).elim [] fun (key, value) =>
        calls (set_sc_report key value (infoType key value)) := by
  rw [parseInfo_eq, valid]
  cases keyValue seg with
  | none => rfl
  | some p =>
    obtain ⟨key, value⟩ := p
    by_cases hcalls : calls (set_sc_report key value (infoType key value)) = []
    · simp [Option.filter, hcalls]
    · simp [Option.filter, hcalls]

theorem segment_cases (s seg : List Char) :
    valid seg = none ∧ calls (parseInfo s seg) = [] ∨
    ∃ key value, valid seg = some (key, value) ∧
      (key = "outfile".toList ∧ (∃ name, calls (parseInfo s seg) = [.set_log_file_name name]) ∨
      key = "verbosity_level".toList ∧ (∃ level, verbosityLevel value = some level ∧
        calls (parseInfo s seg) = [.set_verbosity_level level]) ∨
      key ≠ "outfile".toList ∧ key ≠ "verbosity_level".toList ∧
        (∃ report_lvl, reportLevel value = some report_lvl ∧
          calls (parseInfo s seg) = (Setting.report key report_lvl).calls)) := by
  cases hvalid : valid seg with
  | none => exact .inl ⟨rfl, by rw [calls_segment, hvalid]; rfl⟩
  | some p =>
    obtain ⟨key, value⟩ := p
    have haccepted := (valid_eq_some hvalid).2
    have hcalls : calls (parseInfo s seg) =
        (accepted key value).toList.flatMap Setting.calls := by
      rw [calls_segment, hvalid, ← calls_set_sc_report]
      rfl
    refine .inr ⟨key, value, rfl, ?_⟩
    unfold accepted at haccepted hcalls
    by_cases houtfile : key = "outfile".toList
    · rw [if_pos houtfile] at hcalls
      exact .inl ⟨houtfile, _, hcalls⟩
    by_cases hverbosity : key = "verbosity_level".toList
    · rw [if_neg houtfile, if_pos hverbosity] at haccepted hcalls
      obtain ⟨level, hlevel⟩ := Option.isSome_iff_exists.mp (Option.isSome_map ▸ haccepted)
      rw [hlevel] at hcalls
      exact .inr (.inl ⟨hverbosity, level, hlevel, hcalls⟩)
    · rw [if_neg houtfile, if_neg hverbosity] at haccepted hcalls
      obtain ⟨report_lvl, hlevel⟩ := Option.isSome_iff_exists.mp (Option.isSome_map ▸ haccepted)
      rw [hlevel] at hcalls
      refine .inr (.inr ⟨houtfile, hverbosity, report_lvl, hlevel, ?_⟩)
      simpa using hcalls

section Cells
variable {α : Type*} {word : Actions → α} {c : Config α}

theorem report_message (key m : List Char) (report_lvl : ℕ) (v : Severity) :
    (c.run word (Setting.report key report_lvl).calls).message m v =
      if key ≠ [] ∧ m = c_str key then word (scActions report_lvl v) else c.message m v := by
  by_cases hkey : key = []
  · simp [Setting.calls, severities, Config.run, Config.apply, hkey]
  · by_cases hm : m = c_str key <;> cases v <;>
      simp [Setting.calls, severities, Config.run, Config.apply, hkey, hm]

theorem report_global (key : List Char) (report_lvl : ℕ) (v : Severity) :
    (c.run word (Setting.report key report_lvl).calls).global v =
      if key = [] then word (scActions report_lvl v) else c.global v := by
  by_cases hkey : key = []
  · cases v <;> simp [Setting.calls, severities, Config.run, Config.apply, hkey]
  · simp [Setting.calls, severities, Config.run, Config.apply, hkey]

theorem report_verbosity (key : List Char) (report_lvl : ℕ) :
    (c.run word (Setting.report key report_lvl).calls).verbosity = c.verbosity := by
  by_cases hkey : key = [] <;> simp [Setting.calls, severities, Config.run, Config.apply, hkey]

theorem valueOf_of_valid {seg k value : List Char} (h : valid seg = some (k, value))
    (key : List Char) : valueOf key seg = if k = key then some value else none := by
  rw [valueOf, h]
  rfl

theorem valueOf_of_none {seg : List Char} (h : valid seg = none) (key : List Char) :
    valueOf key seg = none := by
  rw [valueOf, h]
  rfl

theorem message_segment {s seg m : List Char} (hm : m ≠ [])
    (houtfile : m ≠ "outfile".toList) (hverbosity : m ≠ "verbosity_level".toList)
    (hseg : ∀ key value, valid seg = some (key, value) → c_str key = key) (v : Severity) :
    (c.run word (calls (parseInfo s seg))).message m v =
      ((valueOf m seg).map fun value => word (levelActions value v)).getD (c.message m v) := by
  obtain ⟨hvalid, hcalls⟩ | ⟨key, value, hvalid, hcase⟩ := segment_cases s seg
  · rw [hcalls, valueOf_of_none hvalid]
    rfl
  rw [valueOf_of_valid hvalid]
  obtain ⟨rfl, name, hcalls⟩ | ⟨rfl, level, -, hcalls⟩ | ⟨-, -, report_lvl, hlevel, hcalls⟩ := hcase
  · rw [hcalls, if_neg houtfile.symm]
    rfl
  · rw [hcalls, if_neg hverbosity.symm]
    rfl
  · rw [hcalls, report_message, hseg key value hvalid]
    by_cases hkey : key = m
    · rw [if_pos ⟨hkey.trans_ne hm, hkey.symm⟩, if_pos hkey, scActions_eq hlevel]
      rfl
    · rw [if_neg fun h => hkey h.2.symm, if_neg hkey]
      rfl

/-- No segment sets an action of a message type that is a reserved key or empty. -/
theorem reserved_segment {s seg m : List Char}
    (hm : m = [] ∨ m = "outfile".toList ∨ m = "verbosity_level".toList)
    (hseg : ∀ key value, valid seg = some (key, value) → c_str key = key) :
    (c.run word (calls (parseInfo s seg))).message m = c.message m := by
  funext v
  obtain ⟨hvalid, hcalls⟩ | ⟨key, value, hvalid, hcase⟩ := segment_cases s seg
  · rw [hcalls]
    rfl
  obtain ⟨rfl, name, hcalls⟩ | ⟨rfl, level, -, hcalls⟩ |
    ⟨houtfile, hverbosity, report_lvl, -, hcalls⟩ := hcase
  · rw [hcalls]
    rfl
  · rw [hcalls]
    rfl
  · rw [hcalls, report_message, hseg key value hvalid, if_neg]
    rintro ⟨hkey, rfl⟩
    rcases hm with h | h | h <;> contradiction

theorem global_segment (s seg : List Char) (v : Severity) :
    (c.run word (calls (parseInfo s seg))).global v =
      ((valueOf [] seg).map fun value => word (levelActions value v)).getD (c.global v) := by
  obtain ⟨hvalid, hcalls⟩ | ⟨key, value, hvalid, hcase⟩ := segment_cases s seg
  · rw [hcalls, valueOf_of_none hvalid]
    rfl
  rw [valueOf_of_valid hvalid]
  obtain ⟨rfl, name, hcalls⟩ | ⟨rfl, level, -, hcalls⟩ | ⟨-, -, report_lvl, hlevel, hcalls⟩ := hcase
  · rw [hcalls]
    rfl
  · rw [hcalls]
    rfl
  · rw [hcalls, report_global]
    by_cases hkey : key = []
    · rw [if_pos hkey, if_pos hkey, scActions_eq hlevel]
      rfl
    · rw [if_neg hkey, if_neg hkey]
      rfl

theorem verbosity_segment (s seg : List Char) :
    (c.run word (calls (parseInfo s seg))).verbosity =
      (((valueOf "verbosity_level".toList seg).bind verbosityLevel).map Nat.cast).getD
        c.verbosity := by
  obtain ⟨hvalid, hcalls⟩ | ⟨key, value, hvalid, hcase⟩ := segment_cases s seg
  · rw [hcalls, valueOf_of_none hvalid]
    rfl
  rw [valueOf_of_valid hvalid]
  obtain ⟨rfl, name, hcalls⟩ | ⟨rfl, level, hlevel, hcalls⟩ | ⟨-, hne, report_lvl, -, hcalls⟩ :=
    hcase
  · rw [hcalls]
    rfl
  · rw [hcalls, if_pos rfl, Option.bind_some, hlevel]
    rfl
  · rw [hcalls, report_verbosity, if_neg hne]
    rfl

end Cells

def NulFree (s : List Char) : Prop := Char.ofNat 0 ∉ s

instance (s : List Char) : Decidable (NulFree s) := inferInstanceAs (Decidable (_ ∉ _))

theorem c_str_of_nulFree {s : List Char} (h : NulFree s) : c_str s = s := by
  refine List.takeWhile_eq_self_iff.mpr fun c hc => ?_
  simpa using ne_of_mem_of_not_mem hc h

theorem mem_of_mem_trim {s : List Char} {c : Char} (h : c ∈ trim s) : c ∈ s := by
  have hright := (List.dropWhile_sublist isspace).mem (List.mem_reverse.mp h)
  exact (List.dropWhile_sublist isspace).mem (List.mem_reverse.mp hright)

theorem mem_of_mem_split {delim : Char} {s x : List Char} {c : Char} (hx : x ∈ split delim s)
    (hc : c ∈ x) : c ∈ s := by
  obtain ⟨xs, y, hy⟩ := exists_splitOn_concat delim s
  rw [split_eq hy] at hx
  have hmem : x ∈ s.splitOn delim := by
    rw [hy]
    split at hx
    · exact List.mem_append_left [y] hx
    · exact hx
  exact mem_of_mem_splitOn hmem hc

theorem mem_of_mem_key {seg key value : List Char} {c : Char}
    (h : keyValue seg = some (key, value)) (hc : c ∈ key) : c ∈ seg := by
  unfold keyValue at h
  split at h
  · split at h
    · rename_i k hsplit
      obtain ⟨rfl, -⟩ : trim k = key ∧ [] = value := by simpa using h
      exact mem_of_mem_split (by rw [hsplit]; exact List.mem_cons_self) (mem_of_mem_trim hc)
    · rename_i k value' hsplit
      obtain ⟨rfl, -⟩ : trim k = key ∧ trim value' = value := by simpa using h
      exact mem_of_mem_split (by rw [hsplit]; exact List.mem_cons_self) (mem_of_mem_trim hc)
    · simp at h
  · simp at h

theorem c_str_key {seg key value : List Char} (hseg : NulFree seg)
    (h : valid seg = some (key, value)) : c_str key = key :=
  c_str_of_nulFree fun hmem => hseg (mem_of_mem_key (valid_eq_some h).1 hmem)

/-- The cells of `final` as the last valid segments leave them, and as in `start` if none does. -/
structure Follows {α : Type*} (word : Actions → α) (segs : List (List Char))
    (start final : Config α) : Prop where
  message : ∀ m, m ≠ [] → m ≠ "outfile".toList → m ≠ "verbosity_level".toList → ∀ v,
    final.message m v = ((lastValue m segs).map fun value => word (levelActions value v)).getD
      (start.message m v)
  reserved : ∀ m, (m = [] ∨ m = "outfile".toList ∨ m = "verbosity_level".toList) →
    final.message m = start.message m
  global : ∀ v, final.global v =
    ((lastValue [] segs).map fun value => word (levelActions value v)).getD (start.global v)
  verbosity : final.verbosity =
    (((lastValue "verbosity_level".toList segs).bind verbosityLevel).map Nat.cast).getD
      start.verbosity

section Runs
variable {α : Type*} {word : Actions → α} {start final final' : Config α}

theorem Follows.unique {segs segs' : List (List Char)} (h : Follows word segs start final)
    (h' : Follows word segs' start final')
    (hlast : ∀ key, lastValue key segs' = lastValue key segs) : final' = final := by
  refine Config.ext' ?_ (fun v => ?_) (fun m v => ?_)
  · rw [h'.verbosity, h.verbosity, hlast]
  · rw [h'.global, h.global, hlast]
  · by_cases hm : m = [] ∨ m = "outfile".toList ∨ m = "verbosity_level".toList
    · rw [h'.reserved m hm, h.reserved m hm]
    · obtain ⟨hne, houtfile, hverbosity⟩ : m ≠ [] ∧ m ≠ _ ∧ m ≠ _ := by
        simpa only [not_or] using hm
      rw [h'.message m hne houtfile hverbosity, h.message m hne houtfile hverbosity, hlast]

theorem run_log_parse (named : Bool) (s : List Char) :
    start.run word (calls (log_parse named s)) =
      (segments s).foldl (fun c seg => c.run word (calls (parseInfo s seg))) start := by
  by_cases hs : s = []
  · rw [hs]
    rfl
  · rw [calls_log_parse hs, Config.run_defaulted, Config.run_flatMap]

theorem verbosity_valued {seg value : List Char}
    (h : valueOf "verbosity_level".toList seg = some value) : (verbosityLevel value).isSome := by
  cases hvalid : valid seg with
  | none =>
    rw [valueOf_of_none hvalid] at h
    exact absurd h nofun
  | some p =>
    obtain ⟨key, value'⟩ := p
    have haccepted := (valid_eq_some hvalid).2
    rw [valueOf_of_valid hvalid] at h
    split at h
    · rename_i hkey
      obtain rfl := Option.some.inj h
      rw [hkey, accepted, if_neg (by decide), if_pos rfl, Option.isSome_map] at haccepted
      exact haccepted
    · exact absurd h nofun

theorem run_follows (named : Bool) {s : List Char} (hs : ∀ seg ∈ segments s, NulFree seg) :
    Follows word (segments s) start (start.run word (calls (log_parse named s))) := by
  rw [run_log_parse]
  refine ⟨fun m hm houtfile hverbosity v => ?_, fun m hm => ?_, fun v => ?_, ?_⟩
  · rw [lastValue, ← last_map]
    exact read_foldl (fun c : Config α => c.message m v) (fun seg hseg c =>
      message_segment hm houtfile hverbosity (fun _ _ => c_str_key (hs seg hseg)) v) start
  · refine List.foldlRecOn (motive := fun c : Config α => c.message m = start.message m)
      (segments s) _ rfl fun c hc seg hseg => ?_
    rw [reserved_segment hm fun _ _ => c_str_key (hs seg hseg), hc]
  · rw [lastValue, ← last_map]
    exact read_foldl (fun c : Config α => c.global v)
      (fun seg _ c => global_segment s seg v) start
  · rw [lastValue, ← last_bind fun _ _ => verbosity_valued, ← last_map]
    exact read_foldl Config.verbosity (fun seg _ c => verbosity_segment s seg) start

def join (segs : List (List Char)) : List Char := [';'].intercalate segs

theorem segments_join {segs : List (List Char)} (hsegs : ∀ seg ∈ segs, ';' ∉ seg)
    (hne : segs ≠ []) : segments (join segs) = segs :=
  List.splitOn_intercalate ';' hsegs hne

theorem not_mem_of_mem_segments {s seg : List Char} (h : seg ∈ segments s) : ';' ∉ seg :=
  not_mem_of_mem_splitOn h

theorem nulFree_segments {s : List Char} (hs : NulFree s) : ∀ seg ∈ segments s, NulFree seg :=
  fun _ hseg hmem => hs (mem_of_mem_splitOn hseg hmem)

theorem run_join (named : Bool) {s : List Char} {segs : List (List Char)} (hs : NulFree s)
    (hmem : ∀ seg ∈ segs, seg ∈ segments s)
    (hlast : ∀ key, lastValue key segs = lastValue key (segments s)) :
    start.run word (calls (log_parse named (join segs))) =
      start.run word (calls (log_parse named s)) := by
  have hfollows : Follows word (segments s) start (start.run word (calls (log_parse named s))) :=
    run_follows named (nulFree_segments hs)
  by_cases hne : segs = []
  · subst hne
    have hempty : ∀ seg ∈ segments (join []), NulFree seg := by decide
    refine hfollows.unique (run_follows named hempty) fun key => ?_
    rw [← hlast key]
    rfl
  · have hjoin := segments_join (fun seg hseg => not_mem_of_mem_segments (hmem seg hseg)) hne
    have hjoined : ∀ seg ∈ segments (join segs), NulFree seg := by
      rw [hjoin]
      exact fun seg hseg => nulFree_segments hs seg (hmem seg hseg)
    refine hfollows.unique (run_follows named hjoined) fun key => ?_
    rw [hjoin, hlast]

theorem lastValue_filter (key : List Char) (segs : List (List Char)) :
    lastValue key (segs.filter fun seg => (valid seg).isSome) = lastValue key segs := by
  refine last_filter (fun seg hseg => ?_) segs
  exact valueOf_of_none (Option.not_isSome_iff_eq_none.mp (by simpa using hseg)) key

theorem lastValue_swap {a b : List Char} (key : List Char) (xs ys : List (List Char))
    (h : ∀ p q, valid a = some p → valid b = some q → p.1 ≠ q.1) :
    lastValue key (xs ++ b :: a :: ys) = lastValue key (xs ++ a :: b :: ys) := by
  refine last_swap ?_ xs ys
  cases ha : valid a with
  | none => exact .inr (valueOf_of_none ha key)
  | some p =>
    cases hb : valid b with
    | none => exact .inl (valueOf_of_none hb key)
    | some q =>
      rw [valueOf_of_valid ha, valueOf_of_valid hb]
      by_cases hkey : q.1 = key
      · refine .inr (if_neg fun heq => h p q ha hb (heq.trans hkey.symm))
      · exact .inl (if_neg hkey)

end Runs

end NvdlaVp.LogControl
