import NvdlaVp.MachineRuns

set_option autoImplicit false

/-!
# `Msi2gss`: the polling thread, the event, the kernel and the interrupt process

`PollMsi` may call `notify()` at any moment from the construction on, and the hardware
may set status bits at any moment. The kernel runs its update, notification and
evaluation phases in turn, first of all before any process has executed.
-/
namespace NvdlaVp.MsiInterrupt
open MachineRuns

/-- The next operation of `Msi2gss::transport`. After the poke the process remembers, as
    history, whether the poke took its bit from 1 to 0. -/
inductive Pc where
  | notStarted
  | waiting
  | woken
  | peeked (status : BitVec 32)
  | poked (cleared : Bool)
  | transmitting
  deriving DecidableEq, Repr

inductive Phase where
  | elaboration
  | update
  | notification
  | evaluation
  deriving DecidableEq, Repr

structure Iteration where
  cleared : Bool
  value : BitVec 32
  deriving DecidableEq, Repr

/-- `status` is the register at `CFG_INT_STATUS_ADDR`, and `value` the member `data.value`.
    `unread` is history: `notify()` was called after the last peek. -/
structure State where
  status : BitVec 32
  phase : Phase
  updateRequested : Bool
  eventPending : Bool
  pc : Pc
  value : BitVec 32
  unread : Bool
  iterations : List Iteration
  deriving DecidableEq, Repr

/-- The constructor of `Msi2gss` has created the polling thread. -/
def State.init : State where
  status := 0
  phase := .elaboration
  updateRequested := false
  eventPending := false
  pc := .notStarted
  value := 0
  unread := false
  iterations := []

/-- `0x1 << msi_index`; a shift by more than the width of an int has no meaning. -/
def mask (msi_index : Fin 32) : BitVec 32 := 0x1 <<< msi_index.val

def poke (status data : BitVec 32) : BitVec 32 := status &&& ~~~data

theorem getLsbD_mask (msi_index : Fin 32) (j : ℕ) :
    (mask msi_index).getLsbD j = decide (msi_index.val = j) := by
  have hm : mask msi_index = BitVec.twoPow 32 msi_index.val := rfl
  simp [hm, BitVec.getLsbD_twoPow, msi_index.isLt]

theorem getLsbD_poke (msi_index j : Fin 32) (status : BitVec 32) :
    (poke status (mask msi_index)).getLsbD j = (status.getLsbD j && decide (msi_index ≠ j)) := by
  simp only [poke, BitVec.getLsbD_and, BitVec.getLsbD_not, getLsbD_mask, j.isLt, decide_true,
    Bool.true_and, Fin.ext_iff, decide_not, ne_eq]

theorem and_mask_ne_zero (msi_index : Fin 32) (status : BitVec 32) :
    status &&& mask msi_index ≠ 0 ↔ status.getLsbD msi_index = true := by
  have hbit (j : ℕ) : (status &&& mask msi_index).getLsbD j =
      (status.getLsbD j && decide (msi_index.val = j)) := by
    rw [BitVec.getLsbD_and, getLsbD_mask]
  have hzero (j : ℕ) : (0 : BitVec 32).getLsbD j = false := BitVec.getLsbD_zero
  constructor
  · intro hne
    by_contra hclear
    refine hne (BitVec.eq_of_getLsbD_eq fun j _ => ?_)
    rw [hbit, hzero]
    by_cases hj : msi_index.val = j
    · rw [← hj, Bool.eq_false_iff.mpr hclear, Bool.false_and]
    · rw [decide_eq_false hj, Bool.and_false]
  · intro hset heq
    have hb := hbit msi_index
    rw [heq, hset, hzero] at hb
    simp at hb

def notify (s : State) : State := { s with updateRequested := true, unread := true }

def Pc.runnable : Pc → Bool
  | .waiting | .transmitting => false
  | _ => true

/-- The next phase of the kernel. In the update phase `thread_safe_event::update` notifies
    `m_event` for the next notification phase, which wakes a process that waits on it. -/
def kernelStep (s : State) : Option State :=
  match s.phase with
  | .elaboration => some { s with phase := .update }
  | .update => some { s with
      phase := .notification
      updateRequested := false
      eventPending := s.eventPending || s.updateRequested }
  | .notification => some { s with
      phase := .evaluation
      eventPending := false
      pc := if s.eventPending = true ∧ s.pc = .waiting then .woken else s.pc }
  | .evaluation => if s.pc.runnable then none else some { s with phase := .update }

/-- One operation of the process; the return of `b_transport` comes in any later
    evaluation phase. -/
def transport (msi_index : Fin 32) (s : State) : Option State :=
  match s.pc with
  | .notStarted => some { s with pc := .waiting }
  | .waiting => none
  | .woken => some { s with
      pc := .peeked s.status
      value := s.status &&& mask msi_index
      unread := false }
  | .peeked _ => some { s with
      pc := .poked (s.status.getLsbD msi_index)
      status := poke s.status (mask msi_index) }
  | .poked cleared => some { s with
      pc := .transmitting
      iterations := s.iterations ++ [⟨cleared, s.value⟩] }
  | .transmitting => some { s with pc := .waiting }

inductive Action where
  | hardware (bits : BitVec 32)
  | notify
  | kernel
  | run
  deriving DecidableEq, Repr

def step (msi_index : Fin 32) (s : State) : Action → Option State
  | .hardware bits => some { s with status := s.status ||| bits }
  | .notify => some (notify s)
  | .kernel => kernelStep s
  | .run => if s.phase = .evaluation then transport msi_index s else none

def machine (msi_index : Fin 32) : Machine State Action := ⟨.init, step msi_index⟩

inductive Move (msi_index : Fin 32) (s : State) : Action → State → Prop where
  | hardware (bits : BitVec 32) :
      Move msi_index s (.hardware bits) { s with status := s.status ||| bits }
  | notify : Move msi_index s .notify (notify s)
  | start (hp : s.phase = .elaboration) : Move msi_index s .kernel { s with phase := .update }
  | update (hp : s.phase = .update) : Move msi_index s .kernel { s with
      phase := .notification
      updateRequested := false
      eventPending := s.eventPending || s.updateRequested }
  | wake (hp : s.phase = .notification) (he : s.eventPending = true) (hpc : s.pc = .waiting) :
      Move msi_index s .kernel { s with
        phase := .evaluation
        eventPending := false
        pc := .woken }
  | pass (hp : s.phase = .notification) (hn : ¬ (s.eventPending = true ∧ s.pc = .waiting)) :
      Move msi_index s .kernel { s with phase := .evaluation, eventPending := false }
  | nextCycle (hp : s.phase = .evaluation) (hr : s.pc.runnable = false) :
      Move msi_index s .kernel { s with phase := .update }
  | first (hp : s.phase = .evaluation) (hpc : s.pc = .notStarted) :
      Move msi_index s .run { s with pc := .waiting }
  | peek (hp : s.phase = .evaluation) (hpc : s.pc = .woken) : Move msi_index s .run { s with
      pc := .peeked s.status
      value := s.status &&& mask msi_index
      unread := false }
  | poke (status : BitVec 32) (hp : s.phase = .evaluation) (hpc : s.pc = .peeked status) :
      Move msi_index s .run { s with
        pc := .poked (s.status.getLsbD msi_index)
        status := poke s.status (mask msi_index) }
  | transmit (cleared : Bool) (hp : s.phase = .evaluation) (hpc : s.pc = .poked cleared) :
      Move msi_index s .run { s with
        pc := .transmitting
        iterations := s.iterations ++ [⟨cleared, s.value⟩] }
  | ret (hp : s.phase = .evaluation) (hpc : s.pc = .transmitting) :
      Move msi_index s .run { s with pc := .waiting }

theorem kernelStep_move {msi_index : Fin 32} {s u : State} (h : kernelStep s = some u) :
    Move msi_index s .kernel u := by
  unfold kernelStep at h
  cases hp : s.phase <;> simp only [hp] at h
  case elaboration => exact Option.some.inj h ▸ .start hp
  case update => exact Option.some.inj h ▸ .update hp
  case notification =>
    by_cases hw : s.eventPending = true ∧ s.pc = .waiting
    · rw [if_pos hw] at h
      exact Option.some.inj h ▸ .wake hp hw.1 hw.2
    · rw [if_neg hw] at h
      exact Option.some.inj h ▸ .pass hp hw
  case evaluation =>
    cases hr : s.pc.runnable with
    | true => simp [hr] at h
    | false =>
      simp only [hr, Bool.false_eq_true, if_false] at h
      exact Option.some.inj h ▸ .nextCycle hp hr

theorem transport_move {msi_index : Fin 32} {s u : State} (hp : s.phase = .evaluation)
    (h : transport msi_index s = some u) : Move msi_index s .run u := by
  unfold transport at h
  cases hpc : s.pc <;> simp only [hpc, Option.some.injEq, reduceCtorEq] at h
  case notStarted => exact h ▸ .first hp hpc
  case woken => exact h ▸ .peek hp hpc
  case peeked status => exact h ▸ .poke status hp hpc
  case poked cleared => exact h ▸ .transmit cleared hp hpc
  case transmitting => exact h ▸ .ret hp hpc

theorem step_move {msi_index : Fin 32} {s u : State} {a : Action}
    (h : step msi_index s a = some u) : Move msi_index s a u := by
  cases a with
  | hardware bits => exact Option.some.inj h ▸ .hardware bits
  | notify => exact Option.some.inj h ▸ .notify
  | kernel => exact kernelStep_move h
  | run =>
    simp only [step, Option.ite_none_right_eq_some] at h
    exact transport_move h.1 h.2

variable {msi_index : Fin 32} {s u : State} {a : Action} {as : List Action}

def Quiescent (s : State) : Prop :=
  s.phase = .evaluation ∨ s.pc = .notStarted ∨ s.pc.runnable = false

theorem quiescent_step (h : Quiescent s) (hmove : Move msi_index s a u) : Quiescent u := by
  cases hmove with
  | hardware | notify => exact h
  | start hp | update hp =>
    refine Or.inr (h.resolve_left ?_)
    rw [hp]
    decide
  | wake | pass => exact Or.inl rfl
  | nextCycle _ hr => exact Or.inr (Or.inr hr)
  | first hp | peek hp | poke _ hp | transmit _ hp | ret hp => exact Or.inl hp

theorem runs_quiescent (h : (machine msi_index).Runs .init as s) : Quiescent s := by
  refine h.invariant Quiescent (Or.inr (Or.inl rfl)) ?_
  intro s a u hs _ hstep
  have hmove : Move msi_index s a u := step_move hstep
  exact quiescent_step hs hmove

end NvdlaVp.MsiInterrupt
