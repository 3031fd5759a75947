import NvdlaVp.MsiInterrupt

set_option autoImplicit false

namespace NvdlaVp.MsiInterrupt
open MachineRuns

/-- An iteration that clears the bit transmits a value that is not zero. -/
def Delivered (s : State) : Prop := ∀ it ∈ s.iterations, it.cleared = true → it.value ≠ 0

/-- The hardware does not set the bit while a peek that read it clear awaits its poke. -/
def Settled (msi_index : Fin 32) (s : State) (a : Action) : Prop :=
  ∀ bits status, a = .hardware bits → s.pc = .peeked status →
    bits.getLsbD msi_index = true → status.getLsbD msi_index = true

instance (msi_index : Fin 32) (s : State) (a : Action) : Decidable (Settled msi_index s a) :=
  match a, h : s.pc with
  | .hardware bits, .peeked status =>
    decidable_of_iff (bits.getLsbD msi_index = true → status.getLsbD msi_index = true)
      ⟨fun hi _ _ ha hs => by cases ha; rw [h] at hs; cases hs; exact hi,
        fun hi => hi bits status rfl h⟩
  | .hardware _, .notStarted | .hardware _, .waiting | .hardware _, .woken
  | .hardware _, .poked _ | .hardware _, .transmitting =>
    isTrue fun _ _ _ hs => by simp [h] at hs
  | .notify, _ | .kernel, _ | .run, _ => isTrue fun _ _ ha => by cases ha

def Sampled (msi_index : Fin 32) (s : State) : Prop :=
  match s.pc with
  | .peeked status => s.value = status &&& mask msi_index ∧
      (s.status.getLsbD msi_index = true → status.getLsbD msi_index = true)
  | .poked cleared => cleared = true → s.value ≠ 0
  | _ => True

structure Acknowledged (msi_index : Fin 32) (s : State) : Prop where
  sampled : Sampled msi_index s
  delivered : Delivered s

variable {msi_index : Fin 32} {s u : State} {a : Action} {as : List Action}

theorem sampled_step (hC : Settled msi_index s a) (h : Sampled msi_index s)
    (hmove : Move msi_index s a u) : Sampled msi_index u := by
  cases hmove with
  | hardware bits =>
    unfold Sampled at h ⊢
    cases hpc : s.pc with
    | peeked status =>
      simp only [hpc] at h ⊢
      refine ⟨h.1, fun hset => ?_⟩
      rw [BitVec.getLsbD_or, Bool.or_eq_true] at hset
      exact hset.elim h.2 (hC bits status rfl hpc)
    | poked cleared => simpa only [hpc] using h
    | notStarted | waiting | woken | transmitting => trivial
  | peek _ _ => exact ⟨rfl, id⟩
  | poke status _ hpc =>
    intro hcleared
    simp only [Sampled, hpc] at h
    rw [h.1]
    exact (and_mask_ne_zero msi_index status).mpr (h.2 hcleared)
  | notify | start | update | pass | nextCycle => exact h
  | wake | first | transmit | ret => trivial

theorem delivered_step (hs : Sampled msi_index s) (h : Delivered s)
    (hmove : Move msi_index s a u) : Delivered u := by
  cases hmove with
  | transmit cleared _ hpc =>
    intro it hit
    rcases List.mem_append.mp hit with hit | hit
    · exact h it hit
    · rw [List.mem_singleton.mp hit]
      simpa only [Sampled, hpc] using hs
  | hardware | notify | start | update | wake | pass | nextCycle | first | peek | poke | ret =>
    exact h

theorem runs_acknowledged (h : (machine msi_index).RunsWith (Settled msi_index) .init as s) :
    Acknowledged msi_index s := by
  refine h.invariant (Acknowledged msi_index) ⟨trivial, by simp [Delivered, State.init]⟩ ?_
  intro s a u hs hC hstep
  have hmove : Move msi_index s a u := step_move hstep
  exact ⟨sampled_step hC hs.sampled hmove, delivered_step hs.sampled hs.delivered hmove⟩

theorem transmits_of_peeked (msi_index : Fin 32) {status : BitVec 32} (hpc : s.pc = .peeked status)
    (hp : s.phase = .evaluation) : ∃ bs v, (machine msi_index).Runs s bs v ∧
      v.iterations = s.iterations ++ [⟨s.status.getLsbD msi_index, s.value⟩] := by
  have hpoke : (machine msi_index).step s .run = some { s with
      pc := .poked (s.status.getLsbD msi_index)
      status := poke s.status (mask msi_index) } := by
    simp [machine, step, transport, hp, hpc]
  have htransmit : (machine msi_index).step { s with
      pc := .poked (s.status.getLsbD msi_index)
      status := poke s.status (mask msi_index) } .run = some { s with
      pc := .transmitting
      status := poke s.status (mask msi_index)
      iterations := s.iterations ++ [⟨s.status.getLsbD msi_index, s.value⟩] } := by
    simp [machine, step, transport, hp]
  exact ⟨[.run, .run], _, .next trivial hpoke (.one trivial htransmit), rfl⟩

theorem swallowed_of_unsettled {bits status : BitVec 32} (hI : Acknowledged msi_index s)
    (hq : Quiescent s) (hpc : s.pc = .peeked status) (hset : bits.getLsbD msi_index = true)
    (hclear : status.getLsbD msi_index ≠ true) : ∃ bs v,
      (machine msi_index).Runs { s with status := s.status ||| bits } bs v ∧ ¬ Delivered v := by
  have hvalue : s.value = 0 := by
    have hv := hI.sampled
    simp only [Sampled, hpc] at hv
    rw [hv.1]
    exact not_not.mp (mt (and_mask_ne_zero msi_index status).mp hclear)
  have hphase : s.phase = .evaluation := by
    rcases hq with hp | hp | hp
    · exact hp
    · simp [hpc] at hp
    · simp [hpc, Pc.runnable] at hp
  obtain ⟨bs, v, hrun, hit⟩ := transmits_of_peeked msi_index
    (s := { s with status := s.status ||| bits }) hpc hphase
  refine ⟨bs, v, hrun, fun hall => ?_⟩
  have hlast := hall ⟨true, 0⟩ (by simp [hit, hset, hvalue])
  exact hlast rfl rfl

theorem bit_step {j : Fin 32} (hj : msi_index ≠ j) (hmove : Move msi_index s a u)
    (h : s.status.getLsbD j = true) : u.status.getLsbD j = true := by
  cases hmove with
  | hardware bits => rw [BitVec.getLsbD_or, h, Bool.true_or]
  | poke => rw [getLsbD_poke, h, decide_eq_true hj, Bool.true_and]
  | notify | start | update | wake | pass | nextCycle | first | peek | transmit | ret => exact h

theorem bit_kept {j : Fin 32} (hj : msi_index ≠ j) (h : (machine msi_index).Runs s as u) :
    s.status.getLsbD j = true → u.status.getLsbD j = true := by
  refine h.relates (fun s u => s.status.getLsbD j = true → u.status.getLsbD j = true)
    (fun _ => id) ?_ ?_
  · intro s u v hsu huv hset
    exact huv (hsu hset)
  intro s a u hstep
  have hmove : Move msi_index s a u := step_move hstep
  exact bit_step hj hmove

/-- Along a run in which the hardware never sets the bit between a peek that read it clear
    and the poke, nothing is acknowledged undelivered; a step that does so can be followed by
    an acknowledgement of value zero. The other bits are never cleared. -/
theorem acknowledged_delivered_exactly (msi_index : Fin 32) :
    (∀ as s, (machine msi_index).RunsWith (Settled msi_index) .init as s → Delivered s) ∧
    (∀ as s a u, (machine msi_index).RunsWith (Settled msi_index) .init as s →
      step msi_index s a = some u → ¬ Settled msi_index s a →
      ∃ bs v, (machine msi_index).Runs u bs v ∧ ¬ Delivered v) ∧
    (∀ j, msi_index ≠ j → ∀ s bs u, (machine msi_index).Runs s bs u →
      s.status.getLsbD j = true → u.status.getLsbD j = true) := by
  refine ⟨fun as s h => (runs_acknowledged h).delivered, ?_, fun j hj s bs u => bit_kept hj⟩
  intro as s a u hrun hstep hC
  simp only [Settled, not_forall] at hC
  obtain ⟨bits, status, rfl, hpc, hset, hclear⟩ := hC
  obtain rfl := Option.some.inj hstep
  exact swallowed_of_unsettled (runs_acknowledged hrun) (runs_quiescent hrun.runs) hpc hset
    hclear

def asserted : List Action :=
  [.kernel, .kernel, .kernel, .run, .hardware 1, .notify, .kernel, .kernel, .kernel, .run, .run,
    .run]

theorem acknowledged_delivered_exactly_asserted : ∃ s,
    (machine 0).RunsWith (Settled 0) .init asserted s ∧ s.iterations = [⟨true, 1⟩] ∧
      Delivered s := by
  obtain ⟨s, hrun, hit⟩ := Machine.runsWith_of_eval (machine 0) (Settled 0) asserted
    (fun s => s.iterations = [⟨true, 1⟩]) (by decide)
  exact ⟨s, hrun, hit, (acknowledged_delivered_exactly 0).1 _ s hrun⟩

/-- A spurious wake-up peeks 0, then the hardware sets bit 0 and the poke clears it. -/
def swallowed : List Action :=
  [.kernel, .kernel, .kernel, .run, .notify, .kernel, .kernel, .kernel, .run, .hardware 1,
    .notify, .run, .run]

theorem assertion_swallowed :
    ¬ ∀ as s, (machine 0).Runs .init as s → Delivered s := by
  intro hall
  obtain ⟨s, hrun, hit⟩ := Machine.runsWith_of_eval (machine 0) (fun _ _ => True) swallowed
    (fun s => s.iterations = [⟨true, 0⟩]) (by decide)
  exact hall _ s hrun ⟨true, 0⟩ (by simp [hit]) rfl rfl

end NvdlaVp.MsiInterrupt
