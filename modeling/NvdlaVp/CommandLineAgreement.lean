import NvdlaVp.CommandLine
import NvdlaVp.CosimBridgeTimeout
import NvdlaVp.LastWrite

set_option autoImplicit false

namespace NvdlaVp.CommandLine
open ArgumentScan KeyValueStore

def valuedOptions : List String :=
  ["-c", "--conf", "-s", "--sc_log", "--simv", "--timeout", "--plusargs"]

def flagOptions : List String := ["--cosim", "--dmi", "--dmi_disable"]

def pass : Scanner String Result where
  kind arg :=
    if arg ∈ valuedOptions then .valued
    else if arg ∈ flagOptions then .flag
    else if arg ∈ ["-h", "--help"] then .stop
    else .other
  onFlag s arg :=
    if arg = "--cosim" then { s with cosim_en := true }
    else { s with dmi_en := arg = "--dmi" }
  onValue s arg value :=
    if arg ∈ ["-c", "--conf"] then { s with configurationFilePath := value }
    else if arg ∈ ["-s", "--sc_log"] then { s with sc_log_str := value }
    else if arg = "--simv" then { s with simvFilePath := value }
    else if arg = "--timeout" then { s with timeout := some value }
    else { s with plusargs_str := value }

def initial (env : Environment) : Result :=
  ⟨"", "", false, "", env.get "COSIM_SHM_TIMEOUT_IN_NS", "", true⟩

def tables : List (String → Kind) :=
  [argsLoop.kind, scLogLoop.kind, cosimLoop.kind, simvLoop.kind, plusArgsLoop.kind, dmiLoop.kind]

/-- The scanners take for options and for values what the pass does, and come to its result. -/
structure Agreed (env : Environment) (argv : List String) (result : Result) : Prop where
  options : ∃ all, readings pass.kind 1 argv.tail = .ok all ∧ ∀ kind ∈ tables,
    readings kind 1 argv.tail = .ok (all.filterMap (restrict kind))
  combined : pass.scan (initial env) argv.tail = .ok result
  simv : result.cosim_en = true → ∃ rs, readings simvLoop.kind 1 argv.tail = .ok rs ∧
    ∃ r ∈ rs, r.option = "--simv" ∧ r.value.isSome

theorem pass_cases (arg : String) :
    arg ∈ valuedOptions ∧ pass.kind arg = .valued ∨ arg ∈ flagOptions ∧ pass.kind arg = .flag ∨
      arg ∈ ["-h", "--help"] ∧ pass.kind arg = .stop ∨
      arg ∉ valuedOptions ++ flagOptions ++ ["-h", "--help"] ∧ pass.kind arg = .other := by
  by_cases hvalued : arg ∈ valuedOptions
  · exact .inl ⟨hvalued, if_pos hvalued⟩
  by_cases hflag : arg ∈ flagOptions
  · refine .inr (.inl ⟨hflag, ?_⟩)
    simp only [pass, if_neg hvalued, if_pos hflag]
  by_cases hstop : arg ∈ ["-h", "--help"]
  · refine .inr (.inr (.inl ⟨hstop, ?_⟩))
    simp only [pass, if_neg hvalued, if_neg hflag, if_pos hstop]
  · refine .inr (.inr (.inr ⟨?_, ?_⟩))
    · simp only [List.mem_append, not_or]
      exact ⟨⟨hvalued, hflag⟩, hstop⟩
    · simp only [pass, if_neg hvalued, if_neg hflag, if_neg hstop]

theorem partOf_pass {kind : String → Kind} (h : kind ∈ tables) : PartOf kind pass.kind := by
  intro arg
  obtain ⟨hmem, -⟩ | ⟨hmem, -⟩ | ⟨hmem, -⟩ | ⟨hmem, -⟩ := pass_cases arg
  · revert kind arg
    decide
  · revert kind arg
    decide
  · revert kind arg
    decide
  · refine .inl ?_
    simp only [valuedOptions, flagOptions, List.cons_append, List.nil_append, List.mem_cons,
      List.not_mem_nil, or_false, not_or] at hmem
    simp only [tables, List.mem_cons, List.not_mem_nil, or_false] at h
    rcases h with rfl | rfl | rfl | rfl | rfl | rfl <;>
      simp [argsLoop, scLogLoop, cosimLoop, simvLoop, plusArgsLoop, dmiLoop, hmem]

theorem mem_of_flag {arg : String} (h : pass.kind arg = .flag) : arg ∈ flagOptions := by
  obtain ⟨_, hkind⟩ | ⟨hmem, _⟩ | ⟨_, hkind⟩ | ⟨_, hkind⟩ := pass_cases arg
  · exact absurd (h.symm.trans hkind) nofun
  · exact hmem
  · exact absurd (h.symm.trans hkind) nofun
  · exact absurd (h.symm.trans hkind) nofun

theorem mem_of_valued {arg : String} (h : pass.kind arg = .valued) : arg ∈ valuedOptions := by
  obtain ⟨hmem, _⟩ | ⟨_, hkind⟩ | ⟨_, hkind⟩ | ⟨_, hkind⟩ := pass_cases arg
  · exact hmem
  · exact absurd (h.symm.trans hkind) nofun
  · exact absurd (h.symm.trans hkind) nofun
  · exact absurd (h.symm.trans hkind) nofun

theorem pass_foldl {σ : Type} {S : Scanner String σ} (rel : Result → σ → Prop)
    {args : List String} {all : List (Reading String)}
    (hall : readings pass.kind 1 args = .ok all)
    (hflag : ∀ option ∈ flagOptions, ∀ i t s, rel t s →
      rel (pass.onFlag t option) ((restrict S.kind ⟨i, option, none⟩).elim s (S.take s)))
    (hvalued : ∀ option ∈ valuedOptions, ∀ i value t s, rel t s →
      rel (pass.onValue t option value)
        ((restrict S.kind ⟨i, option, some value⟩).elim s (S.take s)))
    {t : Result} {s : σ} (hrel : rel t s) :
    rel (all.foldl pass.take t) ((all.filterMap (restrict S.kind)).foldl S.take s) := by
  refine foldl_restrict (fun r hr t s hts => ?_) hrel
  obtain ⟨i, option, value⟩ := r
  obtain ⟨-, ⟨hkind, hvalue⟩ | ⟨hkind, hvalue⟩⟩ := readings_spec hall _ hr
  · obtain rfl : value = none := hvalue
    exact hflag option (mem_of_flag hkind) i t s hts
  · obtain ⟨value, rfl⟩ := Option.isSome_iff_exists.mp hvalue
    exact hvalued option (mem_of_valued hkind) i value t s hts

section Fields
variable {args : List String} {all : List (Reading String)} {t : Result}

theorem args_agree (hall : readings pass.kind 1 args = .ok all) :
    (all.foldl pass.take t).configurationFilePath =
      (all.filterMap (restrict argsLoop.kind)).foldl argsLoop.take t.configurationFilePath := by
  refine pass_foldl (fun t s => t.configurationFilePath = s) hall ?_ ?_ rfl
  · simp [flagOptions, restrict, argsLoop, pass]
  · simp [valuedOptions, restrict, argsLoop, pass, Scanner.take]

theorem scLog_agree (hall : readings pass.kind 1 args = .ok all) :
    (all.foldl pass.take t).sc_log_str =
      (all.filterMap (restrict scLogLoop.kind)).foldl scLogLoop.take t.sc_log_str := by
  refine pass_foldl (fun t s => t.sc_log_str = s) hall ?_ ?_ rfl
  · simp [flagOptions, restrict, scLogLoop, pass]
  · simp [valuedOptions, restrict, scLogLoop, pass, Scanner.take]

theorem cosim_agree (hall : readings pass.kind 1 args = .ok all) {s : CosimArgs}
    (hs : t.cosim_en = s.cosim_en) : (all.foldl pass.take t).cosim_en =
      ((all.filterMap (restrict cosimLoop.kind)).foldl cosimLoop.take s).cosim_en := by
  refine pass_foldl (fun t (s : CosimArgs) => t.cosim_en = s.cosim_en) hall ?_ ?_ hs
  · simp [flagOptions, restrict, cosimLoop, pass, Scanner.take]
  · simp [valuedOptions, restrict, cosimLoop, pass, Scanner.take]

theorem simv_agree (hall : readings pass.kind 1 args = .ok all) {s : SimvArgs}
    (hs : t.simvFilePath = s.simvFilePath ∧
      t.timeout = s.env.get "COSIM_SHM_TIMEOUT_IN_NS") :
    let s' := (all.filterMap (restrict simvLoop.kind)).foldl simvLoop.take s
    (all.foldl pass.take t).simvFilePath = s'.simvFilePath ∧
      (all.foldl pass.take t).timeout = s'.env.get "COSIM_SHM_TIMEOUT_IN_NS" := by
  refine pass_foldl (fun t (s : SimvArgs) => t.simvFilePath = s.simvFilePath ∧
    t.timeout = s.env.get "COSIM_SHM_TIMEOUT_IN_NS") hall ?_ ?_ hs
  · simp +contextual [flagOptions, restrict, simvLoop, pass]
  · simp +contextual [valuedOptions, restrict, simvLoop, pass, Scanner.take]

theorem plusArgs_agree (hall : readings pass.kind 1 args = .ok all) {s : PlusArgs}
    (hs : t.plusargs_str = s.plusargs_str) {timeout : Option String}
    (henv : s.env.get "COSIM_SHM_TIMEOUT_IN_NS" = timeout) :
    let s' := (all.filterMap (restrict plusArgsLoop.kind)).foldl plusArgsLoop.take s
    (all.foldl pass.take t).plusargs_str = s'.plusargs_str ∧
      s'.env.get "COSIM_SHM_TIMEOUT_IN_NS" = timeout := by
  refine pass_foldl (fun t (s : PlusArgs) => t.plusargs_str = s.plusargs_str ∧
    s.env.get "COSIM_SHM_TIMEOUT_IN_NS" = timeout) hall ?_ ?_ ⟨hs, henv⟩
  · simp +contextual [flagOptions, restrict, plusArgsLoop, pass]
  · simp +contextual [valuedOptions, restrict, plusArgsLoop, pass, Scanner.take]

theorem dmi_agree (hall : readings pass.kind 1 args = .ok all) :
    (all.foldl pass.take t).dmi_en =
      (all.filterMap (restrict dmiLoop.kind)).foldl dmiLoop.take t.dmi_en := by
  refine pass_foldl (fun t s => t.dmi_en = s) hall ?_ ?_ rfl
  · simp [flagOptions, restrict, dmiLoop, pass, Scanner.take]
  · simp [valuedOptions, restrict, dmiLoop, pass]

end Fields

theorem exists_simv {rs : List (Reading String)} {s : CosimArgs}
    (h : (rs.foldl cosimLoop.take s).simv = true) (hs : s.simv = false)
    (hrs : ∀ r ∈ rs, cosimLoop.kind r.option = .flag ∧ r.value = none) :
    ∃ r ∈ rs, r.option = "--simv" := by
  induction rs generalizing s with
  | nil => exact absurd (hs.symm.trans h) nofun
  | cons r rs ih =>
    by_cases hsimv : r.option = "--simv"
    · exact ⟨r, List.mem_cons_self, hsimv⟩
    · obtain ⟨hkind, hvalue⟩ := hrs r List.mem_cons_self
      have hcosim : r.option = "--cosim" := by
        by_contra hcosim
        simp [cosimLoop, hcosim, hsimv] at hkind
      have hstep : (cosimLoop.take s r).simv = false := by
        simp [Scanner.take, hvalue, cosimLoop, hcosim, hs]
      obtain ⟨r', hr', hoption⟩ := ih h hstep fun r' hr' => hrs r' (List.mem_cons_of_mem r hr')
      exact ⟨r', List.mem_cons_of_mem r hr', hoption⟩

theorem bind_eq_ok {ε β γ : Type} {x : Except ε β} {f : β → Except ε γ} {c : γ}
    (h : x >>= f = .ok c) : ∃ b, x = .ok b ∧ f b = .ok c := by
  cases x with
  | error e => exact absurd h nofun
  | ok b => exact ⟨b, rfl, h⟩

theorem mapError_eq_ok {ε ε' β : Type} {x : Except ε β} {f : ε → ε'} {b : β}
    (h : x.mapError f = .ok b) : x = .ok b := by
  cases x with
  | error e => exact absurd h nofun
  | ok b' => exact congrArg _ (Except.ok.inj (show Except.ok b' = Except.ok b from h))

def timeoutValue (r : Reading String) : Option String :=
  if r.option = "--timeout" then r.value else none

theorem take_timeout {args : List String} {rs : List (Reading String)}
    (hrs : readings simvLoop.kind 1 args = .ok rs) : ∀ r ∈ rs, ∀ s : SimvArgs,
      (simvLoop.take s r).env.get "COSIM_SHM_TIMEOUT_IN_NS" =
        ((timeoutValue r).map some).getD (s.env.get "COSIM_SHM_TIMEOUT_IN_NS") := by
  intro r hr s
  obtain ⟨i, option, value⟩ := r
  obtain ⟨-, ⟨hkind, -⟩ | ⟨hkind, hvalue⟩⟩ := readings_spec hrs _ hr
  · simp only [simvLoop] at hkind
    split_ifs at hkind
  · obtain ⟨value, rfl⟩ := Option.isSome_iff_exists.mp hvalue
    by_cases hsimv : option = "--simv"
    · simp [Scanner.take, simvLoop, timeoutValue, hsimv]
    · have htimeout : option = "--timeout" := by
        by_contra htimeout
        simp [simvLoop, hsimv, htimeout] at hkind
      simp [Scanner.take, simvLoop, timeoutValue, htimeout]

theorem configured_of_timeout {env : Environment} {argv : List String} {s : SimvArgs}
    (h : parseSimvArgs env argv = .ok s) {N : ℕ}
    (hlast : ∀ rs, readings simvLoop.kind 1 argv.tail = .ok rs →
      LastWrite.last timeoutValue rs = some (Nat.repr N)) :
    CosimBridge.Configured s.env.get N := by
  obtain ⟨rs, hrs, rfl⟩ := Scanner.readings_of_ok (mapError_eq_ok h) 1
  have hread := LastWrite.read_foldl (fun s : SimvArgs => s.env.get "COSIM_SHM_TIMEOUT_IN_NS")
    (take_timeout hrs) ⟨"", env⟩
  rw [LastWrite.last_map, hlast rs hrs] at hread
  exact hread

/-- With `--cosim` and no log string in the environment, `sc_main` runs all the scanners. -/
theorem sc_main_eq {env : Environment} {argv : List String} {result : Result}
    (hlog : env.get "SC_LOG" = none) (h : scanners env argv = .ok result)
    (hcosim : result.cosim_en = true) : sc_main env argv = .ok result := by
  obtain ⟨configurationFilePath, hargs, h⟩ := bind_eq_ok h
  obtain ⟨sc_log_str, hlogArgs, h⟩ := bind_eq_ok h
  obtain ⟨cosim_en, hcosimArgs, h⟩ := bind_eq_ok h
  obtain ⟨simv, hsimv, h⟩ := bind_eq_ok h
  obtain ⟨plusargs, hplus, h⟩ := bind_eq_ok h
  obtain ⟨dmi_en, hdmi, h⟩ := bind_eq_ok h
  obtain rfl := Except.ok.inj h
  obtain rfl : cosim_en = true := hcosim
  rw [sc_main, hargs, hlog, hlogArgs, hcosimArgs, hsimv, hdmi]
  simp only [bind, Except.bind, if_pos, hplus]
  rfl

theorem scanners_ok {env : Environment} {argv : List String} {result : Result}
    (h : scanners env argv = .ok result) :
    argsLoop.scan "" argv.tail = .ok result.configurationFilePath ∧
      scLogLoop.scan "" argv.tail = .ok result.sc_log_str ∧
      (∃ s, cosimLoop.scan ⟨false, false⟩ argv.tail = .ok s ∧ s.cosim_en = result.cosim_en ∧
        (s.cosim_en = true → s.simv = true)) ∧
      ∃ s, simvLoop.scan ⟨"", env⟩ argv.tail = .ok s ∧ s.simvFilePath = result.simvFilePath ∧
        (∃ p, plusArgsLoop.scan ⟨"", s.env⟩ argv.tail = .ok p ∧
          p.plusargs_str = result.plusargs_str ∧
          p.env.get "COSIM_SHM_TIMEOUT_IN_NS" = result.timeout) ∧
        dmiLoop.scan true argv.tail = .ok result.dmi_en := by
  obtain ⟨configurationFilePath, hargs, h⟩ := bind_eq_ok h
  obtain ⟨sc_log_str, hlog, h⟩ := bind_eq_ok h
  obtain ⟨cosim_en, hcosim, h⟩ := bind_eq_ok h
  obtain ⟨simv, hsimv, h⟩ := bind_eq_ok h
  obtain ⟨plusargs, hplus, h⟩ := bind_eq_ok h
  obtain ⟨dmi_en, hdmi, h⟩ := bind_eq_ok h
  obtain rfl := Except.ok.inj h
  obtain ⟨s, hscan, hcosim⟩ := bind_eq_ok hcosim
  refine ⟨mapError_eq_ok hargs, mapError_eq_ok hlog, ⟨s, mapError_eq_ok hscan, ?_⟩,
    simv, mapError_eq_ok hsimv, rfl, ⟨plusargs, mapError_eq_ok hplus, rfl, rfl⟩,
    mapError_eq_ok hdmi⟩
  by_cases hexit : s.simv = false ∧ s.cosim_en = true
  · rw [if_pos hexit] at hcosim
    exact absurd hcosim nofun
  · rw [if_neg hexit] at hcosim
    refine ⟨Except.ok.inj hcosim, fun hen => ?_⟩
    by_contra hsimv
    exact hexit ⟨Bool.eq_false_iff.mpr hsimv, hen⟩

theorem cosim_readings {args : List String} {rs : List (Reading String)}
    (h : readings cosimLoop.kind 1 args = .ok rs) :
    ∀ r ∈ rs, cosimLoop.kind r.option = .flag ∧ r.value = none := by
  intro r hr
  obtain ⟨-, hflag | ⟨hkind, -⟩⟩ := readings_spec h r hr
  · exact hflag
  · simp only [cosimLoop] at hkind
    split_ifs at hkind

/-- No value that the pass consumes is an option of a scanner that does not consume it. -/
def ValuesApart (argv : List String) : Prop :=
  ∀ kind ∈ tables, Apart kind pass.kind argv.tail

theorem readings_tables {env : Environment} {argv : List String} {result : Result}
    (h : scanners env argv = .ok result) :
    ∀ kind ∈ tables, ∃ rs, readings kind 1 argv.tail = .ok rs := by
  obtain ⟨hargs, hlog, ⟨s, hcosim, -⟩, s', hsimv, -, ⟨p, hplus, -⟩, hdmi⟩ := scanners_ok h
  simp only [tables, List.forall_mem_cons]
  refine ⟨?_, ?_, ?_, ?_, ?_, ?_, nofun⟩
  · exact (Scanner.readings_of_ok hargs 1).imp fun _ => And.left
  · exact (Scanner.readings_of_ok hlog 1).imp fun _ => And.left
  · exact (Scanner.readings_of_ok hcosim 1).imp fun _ => And.left
  · exact (Scanner.readings_of_ok hsimv 1).imp fun _ => And.left
  · exact (Scanner.readings_of_ok hplus 1).imp fun _ => And.left
  · exact (Scanner.readings_of_ok hdmi 1).imp fun _ => And.left

theorem exists_table {option : String}
    (h : pass.kind option = .valued ∨ pass.kind option = .stop) :
    ∃ kind ∈ tables, kind option = pass.kind option := by
  have hvalued : ∀ option ∈ valuedOptions, ∃ kind ∈ tables, kind option = pass.kind option := by
    decide
  have hstop : ∀ option ∈ ["-h", "--help"], ∃ kind ∈ tables,
      kind option = pass.kind option := by
    decide
  obtain ⟨hmem, -⟩ | ⟨-, hkind⟩ | ⟨hmem, -⟩ | ⟨-, hkind⟩ := pass_cases option
  · exact hvalued option hmem
  · rcases h with h | h <;> exact absurd (h.symm.trans hkind) nofun
  · exact hstop option hmem
  · rcases h with h | h <;> exact absurd (h.symm.trans hkind) nofun

theorem options_of_apart {env : Environment} {argv : List String} {result : Result}
    (h : scanners env argv = .ok result) (hapart : ValuesApart argv) :
    ∃ all, readings pass.kind 1 argv.tail = .ok all ∧ ∀ kind ∈ tables,
      readings kind 1 argv.tail = .ok (all.filterMap (restrict kind)) := by
  cases hall : readings pass.kind 1 argv.tail with
  | ok all =>
    refine ⟨all, rfl, fun kind hkind => ?_⟩
    have hseen := seen_of_apart (partOf_pass hkind) (hapart kind hkind) 1
    rw [hall] at hseen
    exact hseen
  | error e =>
    obtain ⟨kind, hkind, heq⟩ := exists_table (readings_error hall)
    have hseen := seen_of_apart (partOf_pass hkind) (hapart kind hkind) 1
    rw [hall] at hseen
    obtain ⟨rs, hrs⟩ := readings_tables h kind hkind
    exact absurd (hrs.symm.trans (hseen heq)) nofun

theorem scan_restrict {σ : Type} {S : Scanner String σ} {s s' : σ} {args : List String}
    {all : List (Reading String)} (h : S.scan s args = .ok s')
    (hall : readings S.kind 1 args = .ok (all.filterMap (restrict S.kind))) :
    (all.filterMap (restrict S.kind)).foldl S.take s = s' := by
  obtain ⟨rs, hrs, heq⟩ := Scanner.readings_of_ok h 1
  obtain rfl := Except.ok.inj (hall.symm.trans hrs)
  exact heq

theorem agreed_of_options {env : Environment} {argv : List String} {result : Result}
    (h : scanners env argv = .ok result) {all : List (Reading String)}
    (hall : readings pass.kind 1 argv.tail = .ok all)
    (htables : ∀ kind ∈ tables,
      readings kind 1 argv.tail = .ok (all.filterMap (restrict kind))) :
    Agreed env argv result := by
  obtain ⟨hargs, hlog, ⟨s, hcosim, hen, hsimvFlag⟩, s', hsimv, hpath,
    ⟨p, hplus, hstr, henv⟩, hdmi⟩ := scanners_ok h
  have hcosimRead := htables cosimLoop.kind (by simp [tables])
  have hsimvRead := htables simvLoop.kind (by simp [tables])
  have hargsEnd := scan_restrict hargs (htables argsLoop.kind (by simp [tables]))
  have hlogEnd := scan_restrict hlog (htables scLogLoop.kind (by simp [tables]))
  have hcosimEnd := scan_restrict hcosim hcosimRead
  have hsimvEnd := scan_restrict hsimv hsimvRead
  have hplusEnd := scan_restrict hplus (htables plusArgsLoop.kind (by simp [tables]))
  have hdmiEnd := scan_restrict hdmi (htables dmiLoop.kind (by simp [tables]))
  have hpass : pass.scan (initial env) argv.tail = .ok (all.foldl pass.take (initial env)) := by
    rw [pass.scan_eq 1, hall]
    rfl
  refine ⟨⟨all, hall, htables⟩, hpass.trans (congrArg _ ?_), fun hcosim_en => ?_⟩
  · have hsimvAgree := simv_agree (t := initial env) (s := ⟨"", env⟩) hall ⟨rfl, rfl⟩
    have hplusAgree := plusArgs_agree (t := initial env) (s := ⟨"", s'.env⟩) hall rfl rfl
    have hcosimAgree := cosim_agree (t := initial env) (s := ⟨false, false⟩) hall rfl
    rw [hsimvEnd] at hsimvAgree
    rw [hplusEnd] at hplusAgree
    rw [hcosimEnd] at hcosimAgree
    have htimeout := hsimvAgree.2.trans (hplusAgree.2.symm.trans henv)
    exact Result.ext ((args_agree hall).trans hargsEnd) ((scLog_agree hall).trans hlogEnd)
      (hcosimAgree.trans hen) (hsimvAgree.1.trans hpath) htimeout (hplusAgree.1.trans hstr)
      ((dmi_agree hall).trans hdmiEnd)
  · have hsimvTrue := hsimvFlag (hen.trans hcosim_en)
    rw [← hcosimEnd] at hsimvTrue
    obtain ⟨r, hr, hoption⟩ := exists_simv hsimvTrue rfl (cosim_readings hcosimRead)
    obtain ⟨r', hr', hrestrict⟩ := List.mem_filterMap.mp hr
    rw [restrict_option hrestrict] at hoption
    refine ⟨_, hsimvRead, r', List.mem_filterMap.mpr ⟨r', hr', ?_⟩, hoption, ?_⟩
    · rw [restrict_valued]
      rw [hoption]
      decide
    · obtain ⟨-, ⟨hkind, -⟩ | ⟨-, hvalue⟩⟩ := readings_spec hall r' hr'
      · rw [hoption] at hkind
        exact absurd hkind (by decide)
      · exact hvalue

theorem scanners_agree_exactly {env : Environment} {argv : List String} {result : Result}
    (h : scanners env argv = .ok result) : Agreed env argv result ↔ ValuesApart argv := by
  constructor
  · rintro ⟨⟨all, hall, htables⟩, -, -⟩ kind hkind
    exact apart_of_seen (partOf_pass hkind) hall (htables kind hkind)
  · intro hapart
    obtain ⟨all, hall, htables⟩ := options_of_apart h hapart
    exact agreed_of_options h hall htables

theorem scanners_agree_exactly_cosim :
    Agreed Store.empty ["aarch64_toplevel", "-c", "aarch64_nvdla.lua", "--cosim", "--simv",
        "simv_dir", "--timeout", "5000"]
      ⟨"aarch64_nvdla.lua", "", true, "simv_dir", some "5000", "", true⟩ := by
  have hapart : ∀ kind ∈ tables, ∀ p ∈ consumed pass.kind ["-c", "aarch64_nvdla.lua", "--cosim",
      "--simv", "simv_dir", "--timeout", "5000"], kind p.1 ≠ .valued → kind p.2 = .other := by
    decide
  exact (scanners_agree_exactly (by decide)).mpr hapart

theorem values_taken_for_options :
    let argv := ["aarch64_toplevel", "--plusargs", "--cosim", "--timeout", "--simv"]
    scanners Store.empty argv = .ok ⟨"", "", true, "", some "--simv", "--cosim", true⟩ ∧
      pass.scan (initial Store.empty) argv.tail =
        .ok ⟨"", "", false, "", some "--simv", "--cosim", true⟩ ∧
      readings simvLoop.kind 1 argv.tail = .ok [⟨3, "--timeout", some "--simv"⟩] ∧
      ¬ Agreed Store.empty argv ⟨"", "", true, "", some "--simv", "--cosim", true⟩ := by
  refine ⟨by decide, by decide, by decide, fun h => ?_⟩
  exact absurd h.combined (by decide)

end NvdlaVp.CommandLine
