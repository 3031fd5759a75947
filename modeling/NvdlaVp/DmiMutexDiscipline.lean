import NvdlaVp.DmiMutex

set_option autoImplicit false

namespace NvdlaVp.DmiMutex
open MachineRuns

/-- The mutex is held during every `Transact`, not by a call that has left, and no call
    waits for it while a suspended one holds it. -/
structure Disciplined (s : State) : Prop where
  held : ∀ (i : ℕ) (c : Call), s.calls[i]? = some c → c.pc = .transact →
    s.owner = some (.call i)
  released : ∀ (i : ℕ) (c : Call), s.calls[i]? = some c → c.pc = .exited →
    s.owner ≠ some (.call i)
  free : ∀ (i j : ℕ) (c d : Call), s.calls[i]? = some c → c.pc = .locking →
    s.calls[j]? = some d → d.pc = .transact → s.owner ≠ some (.call j)

/-- A transaction enters an adaptor that knows the mutex, when none is outstanding, and no
    slave throws. -/
def Orderly (top : NVDLA_top) (s : State) : Action → Prop
  | .enter port => top.is_dmi port = true ∧ ∀ c ∈ s.calls, c.pc = .exited
  | .finish _ outcome => outcome ≠ .threw
  | .lock _ | .cpuLock | .cpuUnlock => True

instance (top : NVDLA_top) (s : State) (a : Action) : Decidable (Orderly top s a) := by
  cases a <;> unfold Orderly <;> infer_instance

structure Wellformed (top : NVDLA_top) (s : State) : Prop where
  unique : ∀ (i j : ℕ) (c d : Call), s.calls[i]? = some c → c.pc = .locking →
    s.calls[j]? = some d → d.pc = .locking → i = j
  dmi : ∀ (i : ℕ) (c : Call), s.calls[i]? = some c → c.pc = .locking →
    top.is_dmi c.port = true
  owner : ∀ i : ℕ, s.owner = some (.call i) →
    ∃ c, s.calls[i]? = some c ∧ top.is_dmi c.port = true

variable {top : NVDLA_top} {s u : State} {a : Action} {as : List Action}

theorem Wellformed.setPc {i : ℕ} {c : Call} {pc : Pc} {o : Option Owner} (h : Wellformed top s)
    (hc : s.calls[i]? = some c) (hpc : pc ≠ .locking)
    (ho : ∀ j, o = some (.call j) → s.owner = some (.call j) ∨
      j = i ∧ top.is_dmi c.port = true) :
    Wellformed top ⟨s.setPc i c pc, o⟩ where
  unique j k d e hj hd hk he := by
    rcases (getElem?_set_eq_some hc).mp hj with ⟨_, rfl⟩ | ⟨_, hj⟩
    · exact absurd hd hpc
    · rcases (getElem?_set_eq_some hc).mp hk with ⟨_, rfl⟩ | ⟨_, hk⟩
      · exact absurd he hpc
      · exact h.unique j k d e hj hd hk he
  dmi j d hj hd := by
    rcases (getElem?_set_eq_some hc).mp hj with ⟨_, rfl⟩ | ⟨_, hj⟩
    · exact absurd hd hpc
    · exact h.dmi j d hj hd
  owner j hj := by
    by_cases hij : i = j
    · subst hij
      refine ⟨{ c with pc := pc }, (getElem?_set_eq_some hc).mpr (Or.inl ⟨rfl, rfl⟩), ?_⟩
      rcases ho i hj with hold | ⟨_, hdmi⟩
      · obtain ⟨d, hd, hdmi⟩ := h.owner i hold
        obtain rfl := Option.some.inj (hc.symm.trans hd)
        exact hdmi
      · exact hdmi
    · rcases ho j hj with hold | ⟨heq, _⟩
      · obtain ⟨d, hd, hdmi⟩ := h.owner j hold
        exact ⟨d, (getElem?_set_eq_some hc).mpr (Or.inr ⟨hij, hd⟩), hdmi⟩
      · exact absurd heq.symm hij

theorem Wellformed.enter {c : Call} (h : Wellformed top s) (hr : s.Running)
    (hc : c.pc = .locking → top.is_dmi c.port = true) :
    Wellformed top { s with calls := s.calls ++ [c] } where
  unique i j d e hi hd hj he := by
    rcases getElem?_concat_eq_some.mp hi with hi | ⟨rfl, _⟩
    · exact absurd hd (hr d (List.mem_of_getElem? hi))
    · rcases getElem?_concat_eq_some.mp hj with hj | ⟨rfl, _⟩
      · exact absurd he (hr e (List.mem_of_getElem? hj))
      · rfl
  dmi i d hi hd := by
    rcases getElem?_concat_eq_some.mp hi with hi | ⟨_, rfl⟩
    · exact h.dmi i d hi hd
    · exact hc hd
  owner i hi := by
    obtain ⟨d, hd, hdmi⟩ := h.owner i hi
    exact ⟨d, getElem?_concat_eq_some.mpr (Or.inl hd), hdmi⟩

theorem released_eq_some {port : Port} {outcome : Outcome} {o : Option Owner} {w : Owner}
    (h : released top port outcome o = some w) : o = some w := by
  unfold released at h
  split at h
  · cases h
  · exact h

theorem wellformed_step (h : Wellformed top s) (hmove : Move top s a u) : Wellformed top u := by
  cases hmove with
  | wait port hr hd => exact h.enter hr fun _ => hd
  | pass port hr => exact h.enter hr fun hpc => Pc.noConfusion hpc
  | @lock i c hc hpc =>
    refine h.setPc hc Pc.noConfusion fun j hj => Or.inr ⟨?_, h.dmi i c hc hpc⟩
    simpa [eq_comm] using hj
  | finish outcome hr hc => exact h.setPc hc Pc.noConfusion fun j hj => Or.inl (released_eq_some hj)
  | cpuLock => exact ⟨h.unique, h.dmi, fun i hi => by simp at hi⟩
  | cpuUnlock => exact ⟨h.unique, h.dmi, fun i hi => by simp at hi⟩

theorem Disciplined.transact_unique (h : Disciplined s) {i j : ℕ} {c d : Call}
    (hc : s.calls[i]? = some c) (hpc : c.pc = .transact) (hd : s.calls[j]? = some d)
    (hpd : d.pc = .transact) : i = j := by
  have howner := (h.held i c hc hpc).symm.trans (h.held j d hd hpd)
  simpa using howner

theorem Disciplined.not_transact (h : Disciplined s) {i : ℕ} {c : Call}
    (ho : ∀ j, s.owner ≠ some (.call j)) (hc : s.calls[i]? = some c) : c.pc ≠ .transact :=
  fun hpc => ho i (h.held i c hc hpc)

theorem disciplined_enter {c : Call} (h : Disciplined s)
    (hall : ∀ d ∈ s.calls, d.pc = .exited) (hpc : c.pc = .locking) :
    Disciplined { s with calls := s.calls ++ [c] } where
  held i d hi hd := by
    rcases getElem?_concat_eq_some.mp hi with hi | ⟨_, rfl⟩
    · exact h.held i d hi hd
    · exact absurd (hpc.symm.trans hd) Pc.noConfusion
  released i d hi hd := by
    rcases getElem?_concat_eq_some.mp hi with hi | ⟨_, rfl⟩
    · exact h.released i d hi hd
    · exact absurd (hpc.symm.trans hd) Pc.noConfusion
  free i j d e hi hd hj he := by
    rcases getElem?_concat_eq_some.mp hj with hj | ⟨_, rfl⟩
    · exact absurd ((hall e (List.mem_of_getElem? hj)).symm.trans he) Pc.noConfusion
    · exact absurd (hpc.symm.trans he) Pc.noConfusion

theorem disciplined_lock {i : ℕ} {c : Call} (hW : Wellformed top s) (h : Disciplined s)
    (hc : s.calls[i]? = some c) (hpc : c.pc = .locking) (ho : s.owner = none) :
    Disciplined ⟨s.setPc i c .transact, some (.call i)⟩ where
  held j d hj hd := by
    rcases (getElem?_set_eq_some hc).mp hj with ⟨rfl, _⟩ | ⟨_, hj⟩
    · rfl
    · exact absurd hd (h.not_transact (by simp [ho]) hj)
  released j d hj hd := by
    rcases (getElem?_set_eq_some hc).mp hj with ⟨_, rfl⟩ | ⟨hne, _⟩
    · cases hd
    · simpa using hne
  free j k d e hj hd hk he := by
    rcases (getElem?_set_eq_some hc).mp hj with ⟨_, rfl⟩ | ⟨hne, hj⟩
    · cases hd
    · exact absurd (hW.unique i j c d hc hpc hj hd) hne

theorem disciplined_finish {i : ℕ} {c : Call} {outcome : Outcome} (hW : Wellformed top s)
    (h : Disciplined s) (hc : s.calls[i]? = some c) (hpc : c.pc = .transact)
    (hout : outcome ≠ .threw) :
    Disciplined ⟨s.setPc i c .exited, released top c.port outcome s.owner⟩ := by
  have hfree : released top c.port outcome s.owner = none := by
    obtain ⟨d, hd, hdmi⟩ := hW.owner i (h.held i c hc hpc)
    obtain rfl := Option.some.inj (hc.symm.trans hd)
    exact if_pos ⟨hout, hdmi⟩
  rw [hfree]
  refine ⟨?_, by simp, by simp⟩
  intro j d hj hd
  rcases (getElem?_set_eq_some hc).mp hj with ⟨_, rfl⟩ | ⟨hne, hj⟩
  · cases hd
  · exact absurd (h.transact_unique hc hpc hj hd) hne

theorem disciplined_step (hW : Wellformed top s) (h : Disciplined s) (hC : Orderly top s a)
    (hmove : Move top s a u) : Disciplined u := by
  cases hmove with
  | wait port hr hd => exact disciplined_enter h hC.2 rfl
  | pass port hr hd => exact absurd (hd.symm.trans hC.1) (by decide)
  | lock hc hpc ho => exact disciplined_lock hW h hc hpc ho
  | finish outcome _ hc hpc => exact disciplined_finish hW h hc hpc hC
  | cpuLock ho =>
    refine ⟨fun i c hc hpc => ?_, by simp, by simp⟩
    exact absurd hpc (h.not_transact (by simp [ho]) hc)
  | cpuUnlock ho =>
    refine ⟨fun i c hc hpc => ?_, by simp, by simp⟩
    exact absurd hpc (h.not_transact (by simp [ho]) hc)

theorem orderly_of_disciplined (hW : Wellformed top s) (h : Disciplined s)
    (hu : Disciplined u) (hmove : Move top s a u) : Orderly top s a := by
  cases hmove with
  | wait port hr hd =>
    refine ⟨hd, fun c hc => ?_⟩
    obtain ⟨j, hj⟩ := List.mem_iff_getElem?.mp hc
    cases hpc : c.pc with
    | exited => rfl
    | locking => exact absurd hpc (hr c hc)
    | transact =>
      have hnew : (s.calls ++ [⟨port, .locking⟩])[s.calls.length]? = some ⟨port, .locking⟩ :=
        getElem?_concat_eq_some.mpr (Or.inr ⟨rfl, rfl⟩)
      exact absurd (h.held j c hj hpc)
        (hu.free _ j _ c hnew rfl (getElem?_concat_eq_some.mpr (Or.inl hj)) hpc)
  | pass port hr hd =>
    have hnew : (s.calls ++ [⟨port, .transact⟩])[s.calls.length]? = some ⟨port, .transact⟩ :=
      getElem?_concat_eq_some.mpr (Or.inr ⟨rfl, rfl⟩)
    obtain ⟨c, hc, _⟩ := hW.owner s.calls.length (hu.held _ _ hnew rfl)
    simp at hc
  | @finish i c outcome hr hc hpc =>
    rintro rfl
    have hleft : (s.setPc i c .exited)[i]? = some { c with pc := .exited } :=
      (getElem?_set_eq_some hc).mpr (Or.inl ⟨rfl, rfl⟩)
    have hkept : released top c.port .threw s.owner = s.owner := if_neg (by simp)
    exact absurd (hkept.trans (h.held i c hc hpc)) (hu.released i _ hleft rfl)
  | lock | cpuLock | cpuUnlock => trivial

/-- After `set_dmi_mutex`, the discipline is kept all along a run exactly when each of its
    transactions enters the dbb adaptor with none outstanding and no slave throws. -/
theorem mutex_disciplined_exactly (as : List Action) (s : State)
    (h : (machine NVDLA_top.constructed.set_dmi_mutex).Runs .init as s) :
    (machine NVDLA_top.constructed.set_dmi_mutex).Throughout Disciplined .init as ↔
    (machine NVDLA_top.constructed.set_dmi_mutex).RunsWith
      (Orderly NVDLA_top.constructed.set_dmi_mutex) .init as s := by
  have hW : Wellformed NVDLA_top.constructed.set_dmi_mutex .init :=
    ⟨by simp [State.init], by simp [State.init], by simp [State.init]⟩
  have hP : Disciplined .init := ⟨by simp [State.init], by simp [State.init], by simp [State.init]⟩
  refine Machine.throughout_iff _ Disciplined hW hP ?_ ?_ ?_ h
  · intro s a u hs _ hstep
    exact wellformed_step hs (step_move hstep)
  · intro s a u hs hd hC hstep
    exact disciplined_step hs hd hC (step_move hstep)
  · intro s a u hs hd hstep hu
    exact orderly_of_disciplined hs hd hu (step_move hstep)

def serial : List Action :=
  [.enter .mc, .lock 0, .finish 0 .ok, .enter .mc, .cpuLock, .cpuUnlock, .lock 1,
    .finish 1 .errorStatus]

theorem mutex_disciplined_exactly_serial :
    (machine NVDLA_top.constructed.set_dmi_mutex).Throughout Disciplined .init serial := by
  obtain ⟨s, hrun, _⟩ := Machine.runsWith_of_eval (machine NVDLA_top.constructed.set_dmi_mutex)
    (Orderly NVDLA_top.constructed.set_dmi_mutex) serial (fun s => s.owner = none) (by decide)
  exact (mutex_disciplined_exactly serial s hrun.runs).mpr hrun

theorem cvsram_without_mutex :
    ¬ ∀ as s, (machine NVDLA_top.constructed.set_dmi_mutex).Runs .init as s → Disciplined s := by
  intro hall
  obtain ⟨s, hrun, hs⟩ := Machine.runsWith_of_eval (machine NVDLA_top.constructed.set_dmi_mutex)
    (fun _ _ => True) [.enter .cv] (fun s => s = ⟨[⟨.cv, .transact⟩], none⟩) (by decide)
  have hheld := (hall _ s hrun).held 0 ⟨.cv, .transact⟩ (by rw [hs]; rfl) rfl
  rw [hs] at hheld
  cases hheld

end NvdlaVp.DmiMutex
