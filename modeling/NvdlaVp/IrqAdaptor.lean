import NvdlaVp.MsiInterrupt

set_option autoImplicit false

/-!
# `IrqAdaptor::transport` and the signal it is sensitive to

The signal is an `sc_buffer`: every write requests an update, and every update notifies
the event for the next notification phase. The event wakes the process only where the
process is at its `wait()`.
-/
namespace NvdlaVp.IrqAdaptor
open MachineRuns
open MsiInterrupt (Phase)

structure IRQ_ext_data where
  value : BitVec 32
  irq_line : BitVec 32
  deriving DecidableEq, Repr

inductive Pc where
  | notStarted
  | waiting
  | woken
  | transmitting
  deriving DecidableEq, Repr

/-- The signal with its next value, the kernel, the process, and the member `data` that the
    payload points to. `sent` and `wrote` are history: what `b_transport` was called with, and
    whether there was a write since the process first waited. -/
structure State where
  signal : Bool
  next : Bool
  phase : Phase
  updateRequested : Bool
  eventPending : Bool
  pc : Pc
  data : IRQ_ext_data
  sent : List IRQ_ext_data
  wrote : Bool
  deriving DecidableEq, Repr

def State.init : State where
  signal := false
  next := false
  phase := .elaboration
  updateRequested := false
  eventPending := false
  pc := .notStarted
  data := ⟨0, 0⟩
  sent := []
  wrote := false

def Pc.runnable : Pc → Bool
  | .notStarted | .woken => true
  | .waiting | .transmitting => false

def readData (irq_number : BitVec 32) (signal : Bool) : IRQ_ext_data where
  value := if signal then 1 else 0
  irq_line := irq_number

/-- A write comes from the elaboration or from a process. -/
def write (s : State) (value : Bool) : Option State :=
  if s.phase = .elaboration ∨ s.phase = .evaluation then
    some { s with
      next := value
      updateRequested := true
      wrote := s.wrote || decide (s.pc ≠ .notStarted) }
  else none

def kernelStep (s : State) : Option State :=
  match s.phase with
  | .elaboration => some { s with phase := .update }
  | .update => some { s with
      phase := .notification
      signal := if s.updateRequested then s.next else s.signal
      updateRequested := false
      eventPending := s.updateRequested }
  | .notification => some { s with
      phase := .evaluation
      eventPending := false
      pc := if s.eventPending = true ∧ s.pc = .waiting then .woken else s.pc }
  | .evaluation => if s.pc.runnable then none else some { s with phase := .update }

/-- `b_transport` returns in the same evaluation phase or in any later one. -/
def transport (irq_number : BitVec 32) (s : State) : Option State :=
  match s.pc with
  | .notStarted => some { s with pc := .waiting }
  | .waiting => none
  | .woken => some { s with
      pc := .transmitting
      data := readData irq_number s.signal
      sent := s.sent ++ [readData irq_number s.signal] }
  | .transmitting => some { s with pc := .waiting }

inductive Action where
  | write (value : Bool)
  | kernel
  | run
  deriving DecidableEq, Repr

def step (irq_number : BitVec 32) (s : State) : Action → Option State
  | .write value => write s value
  | .kernel => kernelStep s
  | .run => if s.phase = .evaluation then transport irq_number s else none

def machine (irq_number : BitVec 32) : Machine State Action := ⟨.init, step irq_number⟩

inductive Move (irq_number : BitVec 32) (s : State) : Action → State → Prop where
  | write (value : Bool) (hp : s.phase = .elaboration ∨ s.phase = .evaluation) :
      Move irq_number s (.write value) { s with
        next := value
        updateRequested := true
        wrote := s.wrote || decide (s.pc ≠ .notStarted) }
  | start (hp : s.phase = .elaboration) : Move irq_number s .kernel { s with phase := .update }
  | update (hp : s.phase = .update) : Move irq_number s .kernel { s with
      phase := .notification
      signal := if s.updateRequested then s.next else s.signal
      updateRequested := false
      eventPending := s.updateRequested }
  | wake (hp : s.phase = .notification) (he : s.eventPending = true) (hpc : s.pc = .waiting) :
      Move irq_number s .kernel { s with
        phase := .evaluation
        eventPending := false
        pc := .woken }
  | pass (hp : s.phase = .notification) (hn : ¬ (s.eventPending = true ∧ s.pc = .waiting)) :
      Move irq_number s .kernel { s with phase := .evaluation, eventPending := false }
  | nextCycle (hp : s.phase = .evaluation) (hr : s.pc.runnable = false) :
      Move irq_number s .kernel { s with phase := .update }
  | first (hp : s.phase = .evaluation) (hpc : s.pc = .notStarted) :
      Move irq_number s .run { s with pc := .waiting }
  | transmit (hp : s.phase = .evaluation) (hpc : s.pc = .woken) :
      Move irq_number s .run { s with
        pc := .transmitting
        data := readData irq_number s.signal
        sent := s.sent ++ [readData irq_number s.signal] }
  | ret (hp : s.phase = .evaluation) (hpc : s.pc = .transmitting) :
      Move irq_number s .run { s with pc := .waiting }

variable {irq_number : BitVec 32} {s u : State} {a : Action} {as : List Action}

theorem step_move (h : step irq_number s a = some u) : Move irq_number s a u := by
  cases a with
  | write value =>
    simp only [step, write, Option.ite_none_right_eq_some] at h
    exact Option.some.inj h.2 ▸ .write value h.1
  | kernel =>
    simp only [step, kernelStep] at h
    cases hp : s.phase <;> simp only [hp] at h
    case elaboration => exact Option.some.inj h ▸ .start hp
    case update => exact Option.some.inj h ▸ .update hp
    case notification =>
      by_cases hw : s.eventPending = true ∧ s.pc = .waiting
      · rw [if_pos hw] at h
        exact Option.some.inj h ▸ .wake hp hw.1 hw.2
      · rw [if_neg hw] at h
        exact Option.some.inj h ▸ .pass hp hw
    case evaluation =>
      simp only [Option.ite_none_left_eq_some] at h
      exact Option.some.inj h.2 ▸ .nextCycle hp (Bool.eq_false_iff.mpr h.1)
  | run =>
    simp only [step, Option.ite_none_right_eq_some, transport] at h
    obtain ⟨hp, h⟩ := h
    cases hpc : s.pc <;> simp only [hpc, Option.some.injEq, reduceCtorEq] at h
    · exact h ▸ .first hp hpc
    · exact h ▸ .transmit hp hpc
    · exact h ▸ .ret hp hpc

/-- Blocked in `wait()` with nothing pending, after a write, the process has sent the value
    of the signal. -/
def LineTracks (irq_number : BitVec 32) (s : State) : Prop :=
  s.pc = .waiting → s.updateRequested = false → s.eventPending = false → s.wrote = true →
    s.sent.getLast? = some (readData irq_number s.signal)

/-- During a `b_transport` the payload holds what the call was made with. -/
def PayloadHeld (s : State) : Prop := s.pc = .transmitting → s.sent.getLast? = some s.data

/-- When the signal's event occurs, the process is at its `wait()` or has not started, or
    has sent the value already. -/
def Heard (irq_number : BitVec 32) (s : State) (a : Action) : Prop :=
  a = .kernel → s.phase = .notification → s.eventPending = true →
    s.pc = .waiting ∨ s.pc = .notStarted ∨
      s.sent.getLast? = some (readData irq_number s.signal)

instance (irq_number : BitVec 32) (s : State) (a : Action) : Decidable (Heard irq_number s a) :=
  inferInstanceAs (Decidable (_ → _ → _ → _))

structure Coherent (s : State) : Prop where
  quiescent : s.phase = .evaluation ∨ s.pc.runnable = false ∨ s.pc = .notStarted
  notification : s.phase = .notification → s.updateRequested = false
  event : s.eventPending = true → s.phase = .notification
  pending : s.updateRequested = true ∨ s.eventPending = true →
    s.pc = .waiting ∨ s.pc = .notStarted ∨ s.wrote = true
  started : s.pc = .notStarted → s.wrote = false
  held : PayloadHeld s

theorem coherent_init : Coherent .init where
  quiescent := .inr (.inr rfl)
  notification _ := rfl
  event h := by cases h
  pending h := by simp [State.init] at h
  started _ := rfl
  held h := by cases h

theorem coherent_step (hs : Coherent s) (hmove : Move irq_number s a u) : Coherent u := by
  obtain ⟨hquiescent, hnotification, hevent, hpending, hstarted, hheld⟩ := hs
  cases hmove with
  | write value hp =>
    refine ⟨hquiescent, ?_, hevent, fun _ => ?_, ?_, hheld⟩
    · rcases hp with hp | hp <;> simp [hp]
    · by_cases hpc : s.pc = .notStarted
      · exact .inr (.inl hpc)
      · exact .inr (.inr (by simp [hpc]))
    · intro hpc
      have hns : s.pc = .notStarted := hpc
      simp [hns, hstarted hns]
  | start hp =>
    refine ⟨.inr ?_, (nomatch ·), fun h => ?_, hpending, hstarted, hheld⟩
    · exact hquiescent.resolve_left (by simp [hp])
    · exact absurd (hp.symm.trans (hevent h)) (by decide)
  | update hp =>
    refine ⟨.inr ?_, fun _ => rfl, fun _ => rfl, ?_, hstarted, hheld⟩
    · exact hquiescent.resolve_left (by simp [hp])
    · rintro (h | h)
      · cases h
      · exact hpending (.inl h)
  | wake hp he hpc =>
    refine ⟨.inl rfl, (nomatch ·), (nomatch ·), ?_, (nomatch ·),
      (nomatch ·)⟩
    rintro (h | h)
    · exact absurd (h.symm.trans (hnotification hp)) (by decide)
    · cases h
  | pass hp hn =>
    refine ⟨.inl rfl, (nomatch ·), (nomatch ·), ?_, hstarted, hheld⟩
    rintro (h | h)
    · exact hpending (.inl h)
    · cases h
  | nextCycle hp hr =>
    refine ⟨.inr (.inl hr), (nomatch ·), fun h => ?_, hpending, hstarted, hheld⟩
    exact absurd (hp.symm.trans (hevent h)) (by decide)
  | first hp hpc =>
    exact ⟨.inl hp, hnotification, hevent, fun _ => .inl rfl, (nomatch ·),
      (nomatch ·)⟩
  | transmit hp hpc =>
    refine ⟨.inl hp, hnotification, hevent, fun h => ?_, (nomatch ·), fun _ => ?_⟩
    · rcases hpending h with h | h | h
      · simp [hpc] at h
      · simp [hpc] at h
      · exact .inr (.inr h)
    · simp
  | ret hp hpc =>
    exact ⟨.inl hp, hnotification, hevent, fun _ => .inl rfl, (nomatch ·),
      (nomatch ·)⟩

/-- After a write the value is still to come, or it is the last one sent. -/
def Underway (irq_number : BitVec 32) (s : State) : Prop :=
  s.wrote = true → s.updateRequested = true ∨ s.eventPending = true ∨ s.pc = .woken ∨
    s.sent.getLast? = some (readData irq_number s.signal)

theorem underway_step (hco : Coherent s) (hC : Heard irq_number s a)
    (hs : Underway irq_number s) (hmove : Move irq_number s a u) : Underway irq_number u := by
  intro hw
  cases hmove with
  | write => exact .inl rfl
  | start | nextCycle => exact hs hw
  | update hp =>
    cases hr : s.updateRequested with
    | true => exact .inr (.inl rfl)
    | false =>
      rcases hs hw with h | h | h | h
      · simp [hr] at h
      · exact absurd (hp.symm.trans (hco.event h)) (by decide)
      · exact .inr (.inr (.inl h))
      · exact .inr (.inr (.inr (by simpa [hr] using h)))
  | wake => exact .inr (.inr (.inl rfl))
  | pass hp hn =>
    rcases hs hw with h | h | h | h
    · exact .inl h
    · rcases hC rfl hp h with hpc | hpc | hsent
      · exact absurd ⟨h, hpc⟩ hn
      · exact absurd (hw.symm.trans (hco.started hpc)) (by decide)
      · exact .inr (.inr (.inr hsent))
    · exact .inr (.inr (.inl h))
    · exact .inr (.inr (.inr h))
  | first hp hpc => exact absurd (hw.symm.trans (hco.started hpc)) (by decide)
  | transmit => exact .inr (.inr (.inr (by simp)))
  | ret hp hpc =>
    rcases hs hw with h | h | h | h
    · exact .inl h
    · exact .inr (.inl h)
    · simp [hpc] at h
    · exact .inr (.inr (.inr h))

theorem Underway.lineTracks (h : Underway irq_number s) : LineTracks irq_number s := by
  intro hpc hr he hw
  rcases h hw with h | h | h | h
  · exact absurd (hr.symm.trans h) (by decide)
  · exact absurd (he.symm.trans h) (by decide)
  · exact absurd (hpc.symm.trans h) (by decide)
  · exact h

theorem runs_coherent (h : (machine irq_number).Runs .init as s) : Coherent s := by
  refine h.invariant Coherent coherent_init ?_
  intro s a u hs _ hstep
  have hmove : Move irq_number s a u := step_move hstep
  exact coherent_step hs hmove

theorem runs_underway (h : (machine irq_number).RunsWith (Heard irq_number) .init as s) :
    Underway irq_number s := by
  have hboth := h.invariant (fun s => Coherent s ∧ Underway irq_number s)
    ⟨coherent_init, (nomatch ·)⟩ ?_
  · exact hboth.2
  intro s a u ⟨hco, hs⟩ hC hstep
  have hmove : Move irq_number s a u := step_move hstep
  exact ⟨coherent_step hco hmove, underway_step hco hC hs hmove⟩

/-- An event that finds `b_transport` under way is forgotten. -/
theorem missed_of_unheard (hs : Coherent s) (hstep : step irq_number s a = some u)
    (hC : ¬ Heard irq_number s a) :
    ∃ bs v, (machine irq_number).Runs u bs v ∧ ¬ LineTracks irq_number v := by
  simp only [Heard, not_forall, not_or] at hC
  obtain ⟨rfl, hp, he, hwaiting, hstarted, hsent⟩ := hC
  have hpc : s.pc = .transmitting := by
    rcases hs.quiescent with h | h | h
    · exact absurd (hp.symm.trans h) (by decide)
    · cases hpc : s.pc <;> simp_all [Pc.runnable]
    · exact absurd h hstarted
  have hw : s.wrote = true := by
    rcases hs.pending (.inr he) with h | h | h
    · exact absurd h hwaiting
    · exact absurd h hstarted
    · exact h
  have hu : u = { s with phase := .evaluation, eventPending := false } := by
    simpa [step, kernelStep, hp, hpc] using hstep.symm
  subst hu
  have hret : (machine irq_number).step { s with phase := .evaluation, eventPending := false }
      .run = some { s with phase := .evaluation, eventPending := false, pc := .waiting } := by
    simp [machine, step, transport, hpc]
  exact ⟨[.run], _, .one trivial hret,
    fun htracks => hsent (htracks rfl (hs.notification hp) rfl hw)⟩

/-- The line tracks the signal along every run in which each event of the signal finds the
    process at its `wait()`, or not started, or the value sent already; an event that does
    not can be followed by a line that stays behind. The payload is constant during every
    `b_transport`. -/
theorem line_tracks_exactly (irq_number : BitVec 32) :
    (∀ as s, (machine irq_number).RunsWith (Heard irq_number) .init as s →
      LineTracks irq_number s) ∧
    (∀ as s a u, (machine irq_number).Runs .init as s → step irq_number s a = some u →
      ¬ Heard irq_number s a →
        ∃ bs v, (machine irq_number).Runs u bs v ∧ ¬ LineTracks irq_number v) ∧
    (∀ as s, (machine irq_number).Runs .init as s → PayloadHeld s) := by
  refine ⟨fun as s h => (runs_underway h).lineTracks, ?_, fun as s h => (runs_coherent h).held⟩
  intro as s a u hrun hstep hC
  exact missed_of_unheard (runs_coherent hrun) hstep hC

def started : List Action := [.kernel, .kernel, .kernel, .run]

def cycle : List Action := [.kernel, .kernel, .kernel]

theorem line_tracks_exactly_toggled : ∃ s, (machine 5).RunsWith (Heard 5) .init
    (started ++ .write true :: cycle ++ [.run, .run, .write false] ++ cycle ++ [.run, .run]) s ∧
      s.sent = [⟨1, 5⟩, ⟨0, 5⟩] ∧ LineTracks 5 s := by
  obtain ⟨s, hrun, hsent⟩ := Machine.runsWith_of_eval (machine 5) (Heard 5)
    (started ++ .write true :: cycle ++ [.run, .run, .write false] ++ cycle ++ [.run, .run])
    (fun s => s.sent = [⟨1, 5⟩, ⟨0, 5⟩]) (by decide)
  exact ⟨s, hrun, hsent, (line_tracks_exactly 5).1 _ s hrun⟩

theorem line_left_behind : ¬ ∀ as s, (machine 5).Runs .init as s → LineTracks 5 s := by
  intro hall
  obtain ⟨s, hrun, hpc, hr, he, hw, hsent, hsignal⟩ := Machine.runsWith_of_eval (machine 5)
    (fun _ _ => True)
    (started ++ .write true :: cycle ++ [.run, .write false] ++ cycle ++ [.run])
    (fun s => s.pc = .waiting ∧ s.updateRequested = false ∧ s.eventPending = false ∧
      s.wrote = true ∧ s.sent = [⟨1, 5⟩] ∧ s.signal = false) (by decide)
  have hlast := hall _ s hrun hpc hr he hw
  rw [hsent, hsignal] at hlast
  exact absurd hlast (by decide)

end NvdlaVp.IrqAdaptor
