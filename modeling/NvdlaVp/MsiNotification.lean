import NvdlaVp.MsiInterrupt

set_option autoImplicit false

namespace NvdlaVp.MsiInterrupt
open MachineRuns

/-- A process that is blocked with nothing pending has read the status since the last
    `notify()`. -/
def NothingLost (s : State) : Prop :=
  s.updateRequested = false → s.eventPending = false → s.pc = .waiting → s.unread = false

/-- The event occurs while the process waits on it, or another update is requested, or the
    status has been read since. -/
def Heard (s : State) (a : Action) : Prop :=
  a = .kernel → s.phase = .notification → s.eventPending = true →
    s.pc = .waiting ∨ s.updateRequested = true ∨ s.unread = false

instance (s : State) (a : Action) : Decidable (Heard s a) :=
  inferInstanceAs (Decidable (_ → _ → _ → _))

def Underway (s : State) : Prop :=
  s.unread = true → s.updateRequested = true ∨ s.eventPending = true ∨ s.pc = .woken

variable {msi_index : Fin 32} {s u : State} {a : Action} {as : List Action}

theorem underway_step (hC : Heard s a) (h : Underway s) (hmove : Move msi_index s a u) :
    Underway u := by
  intro hu
  cases hmove with
  | hardware | start => exact h hu
  | notify => exact Or.inl rfl
  | update =>
    rcases h hu with hr | he | hw
    · exact Or.inr (Or.inl (by simp [hr]))
    · exact Or.inr (Or.inl (by simp [he]))
    · exact Or.inr (Or.inr hw)
  | wake => exact Or.inr (Or.inr rfl)
  | pass hp hn =>
    rcases h hu with hr | he | hw
    · exact Or.inl hr
    · rcases hC rfl hp he with hpc | hr | hread
      · exact absurd ⟨he, hpc⟩ hn
      · exact Or.inl hr
      · exact absurd (hread.symm.trans hu) (by decide)
    · exact Or.inr (Or.inr hw)
  | nextCycle => exact h hu
  | peek => cases hu
  | first _ hpc | poke _ _ hpc | transmit _ _ hpc | ret _ hpc =>
    rcases h hu with hr | he | hw
    · exact Or.inl hr
    · exact Or.inr (Or.inl he)
    · rw [hpc] at hw
      cases hw

theorem Underway.nothingLost (h : Underway s) : NothingLost s := by
  intro hr he hpc
  by_contra hread
  rcases h (by simpa using hread) with hr' | he' | hw
  · exact absurd (hr.symm.trans hr') (by decide)
  · exact absurd (he.symm.trans he') (by decide)
  · rw [hpc] at hw
    cases hw

theorem runs_underway (h : (machine msi_index).RunsWith Heard .init as s) : Underway s := by
  refine h.invariant Underway (fun hu => by cases hu) ?_
  intro s a u hs hC hstep
  have hmove : Move msi_index s a u := step_move hstep
  exact underway_step hC hs hmove

theorem waits_of_quiescent (msi_index : Fin 32) (hq : s.pc = .notStarted ∨ s.pc.runnable = false)
    (hpc : s.pc ≠ .waiting) (hp : s.phase = .evaluation) :
    (machine msi_index).step s .run = some { s with pc := .waiting } := by
  cases h : s.pc <;> simp_all [machine, step, transport, Pc.runnable]

theorem lost_of_unheard (hq : Quiescent s) (hp : s.phase = .notification)
    (hpc : s.pc ≠ .waiting) (hr : s.updateRequested = false)
    (hread : s.unread = true) (hstep : kernelStep s = some u) :
    ∃ bs v, (machine msi_index).Runs u bs v ∧ ¬ NothingLost v := by
  have hu : u = { s with phase := .evaluation, eventPending := false } := by
    simpa [kernelStep, hp, hpc] using hstep.symm
  have hblocked : s.pc = .notStarted ∨ s.pc.runnable = false := by
    refine hq.resolve_left ?_
    rw [hp]
    decide
  subst hu
  have hrun := waits_of_quiescent msi_index
    (s := { s with phase := .evaluation, eventPending := false }) hblocked hpc rfl
  refine ⟨[.run], _, .one trivial hrun, fun hlost => ?_⟩
  exact absurd ((hlost hr rfl rfl).symm.trans hread) (by decide)

/-- Along a run in which every event finds the process waiting, or is followed by another
    update, or came after the last peek, no notification is lost; a step at which an event
    is missed otherwise can be followed by a process that waits for ever. -/
theorem notified_read_exactly (msi_index : Fin 32) :
    (∀ as s, (machine msi_index).RunsWith Heard .init as s → NothingLost s) ∧
    (∀ as s a u, (machine msi_index).Runs .init as s → step msi_index s a = some u →
      ¬ Heard s a → ∃ bs v, (machine msi_index).Runs u bs v ∧ ¬ NothingLost v) := by
  refine ⟨fun as s h => (runs_underway h).nothingLost, ?_⟩
  intro as s a u hrun hstep hC
  simp only [Heard, not_forall, not_or] at hC
  obtain ⟨rfl, hp, _, hpc, hr, hread⟩ := hC
  exact lost_of_unheard (runs_quiescent hrun) hp hpc (by simpa using hr) (by simpa using hread)
    hstep

def heard : List Action :=
  [.kernel, .kernel, .kernel, .run, .notify, .kernel, .kernel, .kernel, .run, .run, .run, .run]

theorem notified_read_exactly_heard : ∃ s, (machine 0).RunsWith Heard .init heard s ∧
    s.pc = .waiting ∧ s.iterations.length = 1 ∧ NothingLost s := by
  obtain ⟨s, hrun, hpc, hit⟩ := Machine.runsWith_of_eval (machine 0) Heard heard
    (fun s => s.pc = .waiting ∧ s.iterations.length = 1) (by decide)
  exact ⟨s, hrun, hpc, hit, (notified_read_exactly 0).1 _ s hrun⟩

/-- `PollMsi` notifies before `sc_start`: the event occurs in the initialization phase,
    before the process has executed its first wait. -/
def unheard : List Action := [.notify, .kernel, .kernel, .kernel, .run]

theorem notification_lost : ¬ ∀ as s, (machine 0).Runs .init as s → NothingLost s := by
  intro hall
  obtain ⟨s, hrun, hr, he, hpc, hread⟩ := Machine.runsWith_of_eval (machine 0)
    (fun _ _ => True) unheard (fun s => s.updateRequested = false ∧ s.eventPending = false ∧
      s.pc = .waiting ∧ s.unread = true) (by decide)
  exact absurd ((hall _ s hrun hr he hpc).symm.trans hread) (by decide)

end NvdlaVp.MsiInterrupt
