import NvdlaVp.MachineRuns

set_option autoImplicit false

namespace NvdlaVp.SerialService
open MachineRuns

variable {ρ ω : Type*}

inductive Phase (ρ ω : Type*) where
  | idle
  | calling (r : ρ)
  | answered (r : ρ) (w : ω)

structure State (ρ ω : Type*) where
  phase : Phase ρ ω
  called : List ρ
  served : List (ρ × ω)
  returned : List (ρ × ω)

inductive Action (ρ ω : Type*) where
  | call (r : ρ)
  | serve (w : ω)
  | ret

def step (s : State ρ ω) : Action ρ ω → Option (State ρ ω)
  | .call r => match s.phase with
    | .idle => some { s with phase := .calling r, called := s.called ++ [r] }
    | _ => none
  | .serve w => match s.phase with
    | .calling r => some { s with phase := .answered r w, served := s.served ++ [(r, w)] }
    | _ => none
  | .ret => match s.phase with
    | .answered r w => some { s with phase := .idle, returned := s.returned ++ [(r, w)] }
    | _ => none

def machine (ρ ω : Type*) : Machine (State ρ ω) (Action ρ ω) := ⟨⟨.idle, [], [], []⟩, step⟩

def Balanced (s : State ρ ω) : Prop :=
  match s.phase with
  | .idle => s.called = s.served.map Prod.fst ∧ s.returned = s.served
  | .calling r => s.called = s.served.map Prod.fst ++ [r] ∧ s.returned = s.served
  | .answered r w => s.called = s.served.map Prod.fst ∧ s.served = s.returned ++ [(r, w)]

theorem step_balanced (s : State ρ ω) (a : Action ρ ω) (u : State ρ ω) (hs : Balanced s)
    (h : step s a = some u) : Balanced u := by
  obtain ⟨phase, called, served, returned⟩ := s
  cases a with
  | call r =>
    cases phase <;> simp only [step, Option.some.injEq, reduceCtorEq] at h
    subst u
    obtain ⟨hc, hr⟩ := hs
    exact ⟨by simpa using hc, hr⟩
  | serve w =>
    cases phase <;> simp only [step, Option.some.injEq, reduceCtorEq] at h
    subst u
    obtain ⟨hc, hr⟩ := hs
    exact ⟨by simpa using hc, by simpa using hr.symm⟩
  | ret =>
    cases phase <;> simp only [step, Option.some.injEq, reduceCtorEq] at h
    subst u
    obtain ⟨hc, hr⟩ := hs
    exact ⟨hc, by simpa using hr.symm⟩

theorem runs_balanced {as : List (Action ρ ω)} {u : State ρ ω}
    (h : (machine ρ ω).Runs (machine ρ ω).init as u) : Balanced u :=
  h.invariant Balanced ⟨rfl, rfl⟩ fun s a u hs _ hstep => step_balanced s a u hs hstep

theorem Balanced.served_prefix {s : State ρ ω} (h : Balanced s) :
    s.served.map Prod.fst <+: s.called := by
  obtain ⟨phase, called, served, returned⟩ := s
  cases phase with
  | idle => exact ⟨[], by simpa using h.1.symm⟩
  | calling r => exact ⟨[r], h.1.symm⟩
  | answered r w => exact ⟨[], by simpa using h.1.symm⟩

theorem Balanced.returned_prefix {s : State ρ ω} (h : Balanced s) : s.returned <+: s.served := by
  obtain ⟨phase, called, served, returned⟩ := s
  cases phase with
  | idle => exact ⟨[], by simpa using h.2⟩
  | calling r => exact ⟨[], by simpa using h.2⟩
  | answered r w => exact ⟨[(r, w)], h.2.symm⟩

theorem Balanced.idle {s : State ρ ω} (h : Balanced s) (hi : s.phase = .idle) :
    s.called = s.served.map Prod.fst ∧ s.returned = s.served := by
  simpa only [Balanced, hi] using h

end NvdlaVp.SerialService
