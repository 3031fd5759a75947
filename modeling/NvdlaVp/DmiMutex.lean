import NvdlaVp.MachineRuns

set_option autoImplicit false

namespace NvdlaVp.DmiMutex
open MachineRuns

inductive Port where
  | mc
  | cv
  deriving DecidableEq, Repr

structure NVDLA_top where
  mc : Bool
  cv : Bool

namespace NVDLA_top

def constructed : NVDLA_top := ⟨false, false⟩

def set_dmi_mutex (top : NVDLA_top) : NVDLA_top := { top with mc := true }

def is_dmi (top : NVDLA_top) : Port → Bool
  | .mc => top.mc
  | .cv => top.cv

end NVDLA_top

/-- How `Transact` ends: by a return, after which the status may be an error, or by an
    exception of the slave. -/
inductive Outcome where
  | ok
  | errorStatus
  | threw
  deriving DecidableEq, Repr

/-- Where a `b_transport` is: at `pthread_mutex_lock`, inside `Transact`, or left. -/
inductive Pc where
  | locking
  | transact
  | exited
  deriving DecidableEq, Repr

structure Call where
  port : Port
  pc : Pc
  deriving DecidableEq, Repr

inductive Owner where
  | call (i : ℕ)
  | cpu
  deriving DecidableEq, Repr

structure State where
  calls : List Call
  owner : Option Owner
  deriving DecidableEq, Repr

def State.init : State := ⟨[], none⟩

def State.Running (s : State) : Prop := ∀ c ∈ s.calls, c.pc ≠ .locking

instance (s : State) : Decidable s.Running := inferInstanceAs (Decidable (∀ c ∈ s.calls, _))

def State.at (s : State) (i : ℕ) (pc : Pc) : Option Call :=
  (s.calls[i]?).filter fun c => c.pc = pc

def State.setPc (s : State) (i : ℕ) (c : Call) (pc : Pc) : List Call :=
  s.calls.set i { c with pc := pc }

inductive Action where
  | enter (port : Port)
  | lock (i : ℕ)
  | finish (i : ℕ) (outcome : Outcome)
  | cpuLock
  | cpuUnlock
  deriving DecidableEq, Repr

/-- The mutex when `Transact` has ended: the exception of a slave passes by the unlock. -/
def released (top : NVDLA_top) (port : Port) (outcome : Outcome) (owner : Option Owner) :
    Option Owner :=
  if outcome ≠ .threw ∧ top.is_dmi port = true then none else owner

def step (top : NVDLA_top) (s : State) : Action → Option State
  | .enter port =>
    if s.Running then some { s with
      calls := s.calls ++ [⟨port, if top.is_dmi port then .locking else .transact⟩] }
    else none
  | .lock i => (s.at i .locking).bind fun c =>
      if s.owner = none then some ⟨s.setPc i c .transact, some (.call i)⟩ else none
  | .finish i outcome => (s.at i .transact).bind fun c =>
      if s.Running then
        some ⟨s.setPc i c .exited, released top c.port outcome s.owner⟩
      else none
  | .cpuLock => if s.owner = none then some { s with owner := some .cpu } else none
  | .cpuUnlock => if s.owner = some .cpu then some { s with owner := none } else none

def machine (top : NVDLA_top) : Machine State Action := ⟨.init, step top⟩

inductive Move (top : NVDLA_top) (s : State) : Action → State → Prop where
  | wait (port : Port) (hr : s.Running) (hd : top.is_dmi port = true) :
      Move top s (.enter port) { s with calls := s.calls ++ [⟨port, .locking⟩] }
  | pass (port : Port) (hr : s.Running) (hd : top.is_dmi port = false) :
      Move top s (.enter port) { s with calls := s.calls ++ [⟨port, .transact⟩] }
  | lock {i : ℕ} {c : Call} (hc : s.calls[i]? = some c) (hpc : c.pc = .locking)
      (ho : s.owner = none) :
      Move top s (.lock i) ⟨s.setPc i c .transact, some (.call i)⟩
  | finish {i : ℕ} {c : Call} (outcome : Outcome) (hr : s.Running) (hc : s.calls[i]? = some c)
      (hpc : c.pc = .transact) :
      Move top s (.finish i outcome) ⟨s.setPc i c .exited, released top c.port outcome s.owner⟩
  | cpuLock (ho : s.owner = none) : Move top s .cpuLock { s with owner := some .cpu }
  | cpuUnlock (ho : s.owner = some .cpu) : Move top s .cpuUnlock { s with owner := none }

theorem at_eq_some {s : State} {i : ℕ} {pc : Pc} {c : Call} :
    s.at i pc = some c ↔ s.calls[i]? = some c ∧ c.pc = pc := by
  simp [State.at, Option.filter_eq_some_iff]

variable {top : NVDLA_top} {s u : State} {a : Action} {as : List Action}

theorem step_move (h : step top s a = some u) : Move top s a u := by
  cases a with
  | enter port =>
    simp only [step, Option.ite_none_right_eq_some, Option.some.injEq] at h
    obtain ⟨hr, rfl⟩ := h
    cases hd : top.is_dmi port with
    | true => exact .wait port hr hd
    | false => exact .pass port hr hd
  | lock i =>
    obtain ⟨c, hc, h⟩ := Option.bind_eq_some_iff.mp h
    simp only [Option.ite_none_right_eq_some, Option.some.injEq] at h
    obtain ⟨ho, rfl⟩ := h
    exact .lock (at_eq_some.mp hc).1 (at_eq_some.mp hc).2 ho
  | finish i outcome =>
    obtain ⟨c, hc, h⟩ := Option.bind_eq_some_iff.mp h
    simp only [Option.ite_none_right_eq_some, Option.some.injEq] at h
    obtain ⟨hr, rfl⟩ := h
    exact .finish outcome hr (at_eq_some.mp hc).1 (at_eq_some.mp hc).2
  | cpuLock =>
    simp only [step, Option.ite_none_right_eq_some, Option.some.injEq] at h
    obtain ⟨ho, rfl⟩ := h
    exact .cpuLock ho
  | cpuUnlock =>
    simp only [step, Option.ite_none_right_eq_some, Option.some.injEq] at h
    obtain ⟨ho, rfl⟩ := h
    exact .cpuUnlock ho

end NvdlaVp.DmiMutex
