import NvdlaVp.MachineRuns

set_option autoImplicit false

/-!
# Calls that hand on one shared object

Each call fills the object with its payload, issues it to a target that may look at it
and set its status until it returns, and writes the status back to its caller. A target
that throws ends the call before that.
-/
namespace NvdlaVp.SharedCalls
open MachineRuns

/-- What a fill and a status do to the object. `reset` is the status that a fill sets. -/
structure SharedObject (P O A ρ : Type*) where
  fill : P → O → O
  setStatus : O → ρ → O
  seen : O → A
  own : P → A
  status : O → ρ
  reset : Option ρ
  seen_fill : ∀ p o, seen (fill p o) = own p
  seen_setStatus : ∀ o r, seen (setStatus o r) = seen o
  status_fill : ∀ p o, status (fill p o) = reset.getD (status o)
  status_setStatus : ∀ o r, status (setStatus o r) = r

inductive Pc where
  | filled
  | issued
  | returned
  | done
  | raised
  deriving DecidableEq, Repr

def Pc.over : Pc → Bool
  | .done | .raised => true
  | _ => false

/-- `produced` is the status last set by the target of this call, `got` the one written
    back to its caller. -/
structure Call (P ρ : Type*) where
  payload : P
  pc : Pc
  produced : Option ρ
  got : Option ρ

/-- `setter` is the call whose fill or target set the status that the object carries. -/
structure State (P O ρ : Type*) where
  object : O
  calls : List (Call P ρ)
  setter : Option ℕ

inductive Action (P ρ : Type*) where
  | enter (p : P)
  | issue (i : ℕ)
  | respond (i : ℕ) (r : ρ)
  | ret (i : ℕ)
  | writeBack (i : ℕ)
  | raise (i : ℕ)

variable {P O A ρ : Type*}

def State.at (s : State P O ρ) (i : ℕ) (pc : Pc) : Option (Call P ρ) :=
  (s.calls[i]?).filter fun c => c.pc = pc

def State.setCall (s : State P O ρ) (i : ℕ) (c : Call P ρ) : State P O ρ :=
  { s with calls := s.calls.set i c }

namespace SharedObject
variable (S : SharedObject P O A ρ)

def step (s : State P O ρ) : Action P ρ → Option (State P O ρ)
  | .enter p => some {
      object := S.fill p s.object
      calls := s.calls ++ [⟨p, .filled, none, none⟩]
      setter := if S.reset.isSome then some s.calls.length else s.setter }
  | .issue i => (s.at i .filled).map fun c => s.setCall i { c with pc := .issued }
  | .respond i r => (s.at i .issued).map fun c =>
      { s.setCall i { c with produced := some r } with
        object := S.setStatus s.object r
        setter := some i }
  | .ret i => (s.at i .issued).bind fun c =>
      if c.produced.isSome then some (s.setCall i { c with pc := .returned }) else none
  | .writeBack i => (s.at i .returned).map fun c =>
      -- a report of the call itself comes after this, and throws or not
      s.setCall i { c with pc := .done, got := some (S.status s.object) }
  -- the exception leaves the call as well, which has written nothing
  | .raise i => (s.at i .issued).map fun c => s.setCall i { c with pc := .raised }

def machine (o : O) : Machine (State P O ρ) (Action P ρ) := ⟨⟨o, [], none⟩, S.step⟩

end SharedObject

theorem at_eq_some {s : State P O ρ} {i : ℕ} {pc : Pc} {c : Call P ρ} :
    s.at i pc = some c ↔ s.calls[i]? = some c ∧ c.pc = pc := by
  simp [State.at, Option.filter_eq_some_iff]

variable {S : SharedObject P O A ρ} {o : O} {s u : State P O ρ} {a : Action P ρ}
  {as : List (Action P ρ)}

inductive Move (S : SharedObject P O A ρ) (s : State P O ρ) : Action P ρ → State P O ρ → Prop where
  | enter (p : P) : Move S s (.enter p) {
      object := S.fill p s.object
      calls := s.calls ++ [⟨p, .filled, none, none⟩]
      setter := if S.reset.isSome then some s.calls.length else s.setter }
  | issue {i : ℕ} {c : Call P ρ} (hc : s.calls[i]? = some c) (hpc : c.pc = .filled) :
      Move S s (.issue i) (s.setCall i { c with pc := .issued })
  | respond {i : ℕ} {c : Call P ρ} (r : ρ) (hc : s.calls[i]? = some c) (hpc : c.pc = .issued) :
      Move S s (.respond i r) { s.setCall i { c with produced := some r } with
        object := S.setStatus s.object r
        setter := some i }
  | ret {i : ℕ} {c : Call P ρ} (hc : s.calls[i]? = some c) (hpc : c.pc = .issued)
      (hr : c.produced.isSome) : Move S s (.ret i) (s.setCall i { c with pc := .returned })
  | writeBack {i : ℕ} {c : Call P ρ} (hc : s.calls[i]? = some c) (hpc : c.pc = .returned) :
      Move S s (.writeBack i)
        (s.setCall i { c with pc := .done, got := some (S.status s.object) })
  | raise {i : ℕ} {c : Call P ρ} (hc : s.calls[i]? = some c) (hpc : c.pc = .issued) :
      Move S s (.raise i) (s.setCall i { c with pc := .raised })

theorem step_move (h : S.step s a = some u) : Move S s a u := by
  cases a with
  | enter p => exact Option.some.inj h ▸ .enter p
  | issue i =>
    obtain ⟨c, hc, rfl⟩ := Option.map_eq_some_iff.mp h
    exact .issue (at_eq_some.mp hc).1 (at_eq_some.mp hc).2
  | respond i r =>
    obtain ⟨c, hc, rfl⟩ := Option.map_eq_some_iff.mp h
    exact .respond r (at_eq_some.mp hc).1 (at_eq_some.mp hc).2
  | ret i =>
    obtain ⟨c, hc, h⟩ := Option.bind_eq_some_iff.mp h
    simp only [Option.ite_none_right_eq_some, Option.some.injEq] at h
    obtain ⟨hr, rfl⟩ := h
    exact .ret (at_eq_some.mp hc).1 (at_eq_some.mp hc).2 hr
  | writeBack i =>
    obtain ⟨c, hc, rfl⟩ := Option.map_eq_some_iff.mp h
    exact .writeBack (at_eq_some.mp hc).1 (at_eq_some.mp hc).2
  | raise i =>
    obtain ⟨c, hc, rfl⟩ := Option.map_eq_some_iff.mp h
    exact .raise (at_eq_some.mp hc).1 (at_eq_some.mp hc).2

def LastSeen (S : SharedObject P O A ρ) (s : State P O ρ) : Prop :=
  ∀ i c, s.calls[i]? = some c → i + 1 = s.calls.length → S.seen s.object = S.own c.payload

def SetterProduced (S : SharedObject P O A ρ) (s : State P O ρ) : Prop :=
  ∀ i c r, s.setter = some i → s.calls[i]? = some c → c.produced = some r →
    S.status s.object = r

def Unwritten (s : State P O ρ) : Prop :=
  ∀ (i : ℕ) (c : Call P ρ), s.calls[i]? = some c → c.pc ≠ .done → c.got = none

theorem LastSeen.setCall {i : ℕ} {c d : Call P ρ} {p : O} {j : Option ℕ} (h : LastSeen S s)
    (hc : s.calls[i]? = some c) (hd : d.payload = c.payload) (hp : S.seen p = S.seen s.object) :
    LastSeen S { s.setCall i d with object := p, setter := j } := by
  intro k e he hk
  have hk' : k + 1 = s.calls.length := by simpa [State.setCall] using hk
  rcases (getElem?_set_eq_some hc).mp he with ⟨rfl, rfl⟩ | ⟨_, he⟩
  · rw [hd, hp]
    exact h i c hc hk'
  · rw [hp]
    exact h k e he hk'

theorem lastSeen_step (h : LastSeen S s) (hmove : Move S s a u) : LastSeen S u := by
  cases hmove with
  | enter p =>
    intro i c hc hi
    rcases getElem?_concat_eq_some.mp hc with hc | ⟨_, rfl⟩
    · have hlt := (List.getElem?_eq_some_iff.mp hc).1
      simp only [List.length_append, List.length_singleton] at hi
      omega
    · exact S.seen_fill p s.object
  | issue hc | ret hc | writeBack hc | raise hc => exact h.setCall hc rfl rfl
  | respond r hc => exact h.setCall hc rfl (S.seen_setStatus _ r)

theorem SetterProduced.setCall {i : ℕ} {c d : Call P ρ} (h : SetterProduced S s)
    (hc : s.calls[i]? = some c) (hd : d.produced = c.produced) :
    SetterProduced S (s.setCall i d) := by
  intro k e r hk he hr
  rcases (getElem?_set_eq_some hc).mp he with ⟨rfl, rfl⟩ | ⟨_, he⟩
  · exact h i c r hk hc (hd ▸ hr)
  · exact h k e r hk he hr

theorem setterProduced_step (h : SetterProduced S s) (hmove : Move S s a u) :
    SetterProduced S u := by
  cases hmove with
  | enter p =>
    intro i c r hi hc hr
    rcases getElem?_concat_eq_some.mp hc with hc | ⟨_, rfl⟩
    · cases hreset : S.reset with
      | some q =>
        have hlt := (List.getElem?_eq_some_iff.mp hc).1
        simp only [hreset, Option.isSome_some, if_true, Option.some.injEq] at hi
        omega
      | none =>
        simp only [hreset, Option.isSome_none, Bool.false_eq_true, if_false] at hi
        rw [S.status_fill, hreset]
        exact h i c r hi hc hr
    · cases hr
  | issue hc | ret hc | writeBack hc | raise hc => exact h.setCall hc rfl
  | @respond i c r hc =>
    intro k e q hk he hq
    obtain rfl : i = k := Option.some.inj hk
    rcases (getElem?_set_eq_some hc).mp he with ⟨_, rfl⟩ | ⟨hne, _⟩
    · rw [S.status_setStatus]
      exact Option.some.inj hq
    · exact absurd rfl hne

theorem Unwritten.setCall {i : ℕ} {c d : Call P ρ} {p : O} {j : Option ℕ} (h : Unwritten s)
    (hc : s.calls[i]? = some c) (hd : d.pc ≠ .done → d.got = none) :
    Unwritten { s.setCall i d with object := p, setter := j } := by
  intro k e he hpc
  rcases (getElem?_set_eq_some hc).mp he with ⟨rfl, rfl⟩ | ⟨_, he⟩
  · exact hd hpc
  · exact h k e he hpc

theorem unwritten_step (h : Unwritten s) (hmove : Move S s a u) : Unwritten u := by
  cases hmove with
  | enter p =>
    intro i c hc hpc
    rcases getElem?_concat_eq_some.mp hc with hc | ⟨_, rfl⟩
    · exact h i c hc hpc
    · rfl
  | @issue i c hc hpc | @ret i c hc hpc | @raise i c hc hpc | @respond i c _ hc hpc =>
    have hout : c.pc ≠ .done := by simp [hpc]
    exact h.setCall hc fun _ => h i c hc hout
  | writeBack hc => exact h.setCall hc fun hout => absurd rfl hout

structure Consistent (S : SharedObject P O A ρ) (s : State P O ρ) : Prop where
  lastSeen : LastSeen S s
  setterProduced : SetterProduced S s
  unwritten : Unwritten s

theorem consistent_step (h : Consistent S s) (hmove : Move S s a u) : Consistent S u :=
  ⟨lastSeen_step h.lastSeen hmove, setterProduced_step h.setterProduced hmove,
    unwritten_step h.unwritten hmove⟩

theorem runs_consistent (h : (S.machine o).Runs ⟨o, [], none⟩ as s) : Consistent S s := by
  refine h.invariant (Consistent S)
    ⟨by simp [LastSeen], by simp [SetterProduced], by simp [Unwritten]⟩ ?_
  intro s a u hs _ hstep
  exact consistent_step hs (step_move hstep)

def Serial (s : State P O ρ) (a : Action P ρ) : Prop :=
  ∀ p, a = .enter p → ∀ c ∈ s.calls, c.pc.over = true

/-- The target of every call sees its own payload, and every caller whose target has returned
    gets the status that it produced. -/
def Isolated (S : SharedObject P O A ρ) (s : State P O ρ) : Prop :=
  ∀ (i : ℕ) (c : Call P ρ), s.calls[i]? = some c →
    (c.pc = .issued → S.seen s.object = S.own c.payload) ∧
    (c.pc = .done → ∃ r, c.produced = some r ∧ c.got = some r)

structure Alone (n : ℕ) (setter : Option ℕ) (i : ℕ) (c : Call P ρ) : Prop where
  last : c.pc.over = false → i + 1 = n
  owns : c.pc.over = false → c.produced.isSome → setter = some i
  answered : c.pc = .returned → c.produced.isSome
  done : c.pc = .done → ∃ r, c.produced = some r ∧ c.got = some r

def AllAlone (s : State P O ρ) : Prop :=
  ∀ (i : ℕ) (c : Call P ρ), s.calls[i]? = some c → Alone s.calls.length s.setter i c

theorem AllAlone.setCall {i : ℕ} {c d : Call P ρ} {p : O} {j : Option ℕ} (h : AllAlone s)
    (hc : s.calls[i]? = some c) (hpc : c.pc.over = false) (hd : Alone s.calls.length j i d) :
    AllAlone { s.setCall i d with object := p, setter := j } := by
  intro k e he
  have hlen : (s.setCall i d).calls.length = s.calls.length := List.length_set
  simp only [hlen]
  rcases (getElem?_set_eq_some hc).mp he with ⟨rfl, rfl⟩ | ⟨hne, he⟩
  · exact hd
  · have hi := (h i c hc).last hpc
    have hk := h k e he
    have hover : e.pc.over ≠ false := by
      intro hout
      have hlast := hk.last hout
      omega
    exact ⟨fun hout => absurd hout hover, fun hout => absurd hout hover, hk.answered, hk.done⟩

theorem alone_step (hC : Serial s a) (hS : SetterProduced S s) (h : AllAlone s)
    (hmove : Move S s a u) : AllAlone u := by
  cases hmove with
  | enter p =>
    intro i c hc
    rcases getElem?_concat_eq_some.mp hc with hc | ⟨rfl, rfl⟩
    · have hover : c.pc.over ≠ false :=
        Bool.ne_false_iff.mpr (hC p rfl c (List.mem_of_getElem? hc))
      have hold := h i c hc
      exact ⟨fun hout => absurd hout hover, fun hout => absurd hout hover, hold.answered,
        hold.done⟩
    · exact ⟨fun _ => by simp, fun _ hr => by simp at hr, fun hpc => by simp at hpc,
        fun hpc => by simp at hpc⟩
  | @issue i c hc hpc =>
    have hout : c.pc.over = false := by rw [hpc]; rfl
    have hold := h i c hc
    exact h.setCall hc hout ⟨fun _ => hold.last hout, fun _ => hold.owns hout, by simp, by simp⟩
  | @respond i c r hc hpc =>
    have hout : c.pc.over = false := by rw [hpc]; rfl
    exact h.setCall hc hout ⟨fun _ => (h i c hc).last hout, fun _ _ => rfl, by simp [hpc],
      by simp [hpc]⟩
  | @ret i c hc hpc hr =>
    have hout : c.pc.over = false := by rw [hpc]; rfl
    have hold := h i c hc
    exact h.setCall hc hout ⟨fun _ => hold.last hout, fun _ => hold.owns hout, fun _ => hr, by simp⟩
  | @writeBack i c hc hpc =>
    have hout : c.pc.over = false := by rw [hpc]; rfl
    obtain ⟨r, hr⟩ := Option.isSome_iff_exists.mp ((h i c hc).answered hpc)
    have howns := (h i c hc).owns hout (by simp [hr])
    have hgot := hS i c r howns hc hr
    exact h.setCall hc hout ⟨by simp [Pc.over], by simp [Pc.over], by simp,
      fun _ => ⟨r, hr, by simp [hgot]⟩⟩
  | @raise i c hc hpc =>
    have hout : c.pc.over = false := by rw [hpc]; rfl
    exact h.setCall hc hout ⟨by simp [Pc.over], by simp [Pc.over], by simp, by simp⟩

theorem runs_isolated (h : (S.machine o).RunsWith Serial ⟨o, [], none⟩ as s) : Isolated S s := by
  have hinit : Consistent S ⟨o, [], none⟩ := runs_consistent (.refl _)
  have hinv : Consistent S s ∧ AllAlone s := by
    refine h.invariant (fun s => Consistent S s ∧ AllAlone s) ⟨hinit, by simp [AllAlone]⟩ ?_
    intro s a u hs hC hstep
    have hmove : Move S s a u := step_move hstep
    exact ⟨consistent_step hs.1 hmove, alone_step hC hs.1.setterProduced hs.2 hmove⟩
  obtain ⟨hcons, halone⟩ := hinv
  intro i c hc
  refine ⟨fun hpc => hcons.lastSeen i c hc ((halone i c hc).last ?_), (halone i c hc).done⟩
  rw [hpc]
  rfl

/-- In any run a call sees its own payload until a later one enters, and its caller gets
    the status of its target unless another call has set it since, or nothing if the target
    throws. -/
structure Handed (S : SharedObject P O A ρ) (o : O) : Prop where
  seen : ∀ as s, (S.machine o).Runs ⟨o, [], none⟩ as s → LastSeen S s
  status : ∀ as s i c r u, (S.machine o).Runs ⟨o, [], none⟩ as s → s.calls[i]? = some c →
    c.produced = some r → s.setter = some i → S.step s (.writeBack i) = some u →
    ∃ d, u.calls[i]? = some d ∧ d.got = some r
  raised : ∀ as s (i : ℕ) (c : Call P ρ), (S.machine o).Runs ⟨o, [], none⟩ as s →
    s.calls[i]? = some c → c.pc = .raised → c.got = none
  serial : ∀ as s, (S.machine o).RunsWith Serial ⟨o, [], none⟩ as s → Isolated S s

theorem handed (S : SharedObject P O A ρ) (o : O) : Handed S o where
  seen as s h := (runs_consistent h).lastSeen
  status as s i c r u h hc hr hi hstep := by
    have hstatus := (runs_consistent h).setterProduced i c r hi hc hr
    cases (step_move hstep : Move S s (.writeBack i) u) with
    | writeBack hd _ =>
      refine ⟨_, (getElem?_set_eq_some hd).mpr (Or.inl ⟨rfl, rfl⟩), ?_⟩
      rw [hstatus]
  raised as s i c h hc hpc := by
    refine (runs_consistent h).unwritten i c hc ?_
    rw [hpc]
    exact Pc.noConfusion
  serial as s h := runs_isolated h

/-- The target of a first call sees the payload of a second one that enters meanwhile. -/
theorem not_isolated (S : SharedObject P O A ρ) (o : O) {p q : P} (h : S.own p ≠ S.own q) :
    ¬ ∀ as s, (S.machine o).Runs ⟨o, [], none⟩ as s → Isolated S s := by
  intro hall
  let s : State P O ρ := {
    object := S.fill q (S.fill p o)
    calls := [⟨p, .issued, none, none⟩, ⟨q, .filled, none, none⟩]
    setter := if S.reset.isSome then some 1 else none }
  have hrun : (S.machine o).Runs ⟨o, [], none⟩ [.enter p, .issue 0, .enter q] s := by
    refine .next trivial rfl (.next trivial rfl (.one trivial ?_))
    cases hr : S.reset <;> simp [s, SharedObject.machine, SharedObject.step, State.setCall, hr]
  have hseen := (hall _ s hrun 0 ⟨p, .issued, none, none⟩ rfl).1 rfl
  exact h (hseen.symm.trans (S.seen_fill q _))

end NvdlaVp.SharedCalls
