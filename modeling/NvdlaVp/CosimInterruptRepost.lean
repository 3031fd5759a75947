import NvdlaVp.CosimInterrupt

set_option autoImplicit false

namespace NvdlaVp.CosimInterrupt
open MachineRuns KeyValueStore

inductive FreeAction where
  | bridge
  | post (status : BitVec 32)
  | delDn
  deriving DecidableEq, Repr

structure FreeState where
  bridge : Bridge
  posted : List (BitVec 32)

def FreeState.init : FreeState := ⟨.init, []⟩

def FreeState.setStore (s : FreeState) (m : Store Key IrqTransPayload) : FreeState :=
  { s with bridge := { s.bridge with store := m } }

def freeStep (s : FreeState) : FreeAction → Option FreeState
  | .bridge => some { s with bridge := bridgeStep s.bridge }
  | .post status => some { s.setStore (s.bridge.store.put .up ⟨status⟩) with
      posted := s.posted ++ [status] }
  | .delDn =>
    if (s.bridge.store.get .dn).isSome then some (s.setStore (s.bridge.store.del .dn)) else none

def freeMachine : Machine FreeState FreeAction := ⟨.init, freeStep⟩

def FreeState.values (s : FreeState) : List (BitVec 32) := s.posted.map irqValue

def Pc.read : Pc → Option IrqTransPayload
  | .getDn (some v) | .delStaleDn v | .delUp v => some v
  | _ => none

def Bridge.owed (b : Bridge) : Option (BitVec 32) :=
  match b.pc with
  | .getDn (some v) | .delStaleDn v | .delUp v | .putDn v => some (irqValue v.value)
  | .waitNs | .pollDn | .transmit => some b.value
  | .waitMs | .getUp | .getDn none | .transmitting => none

/-- The peer leaves the key alone between the bridge's read and its removal, up to `same`. -/
def Spares (same : BitVec 32 → BitVec 32 → Prop) (s : FreeState) : FreeAction → Prop
  | .post status => ∀ v ∈ s.bridge.pc.read, same status v.value
  | .bridge | .delDn => True

def SameValue (x y : BitVec 32) : Prop := irqValue x = irqValue y

instance : DecidableRel SameValue := fun x y =>
  inferInstanceAs (Decidable (irqValue x = irqValue y))

instance (same : BitVec 32 → BitVec 32 → Prop) [DecidableRel same] (s : FreeState) :
    ∀ a, Decidable (Spares same s a)
  | .post status => inferInstanceAs (Decidable (∀ v ∈ s.bridge.pc.read, same status v.value))
  | .bridge | .delDn => isTrue trivial

/-- Back at the 1 ms wait with the up key empty, the last value delivered is that of the
    last status. -/
def Tracked (s : FreeState) : Prop :=
  s.posted ≠ [] → s.bridge.store.get .up = none → s.bridge.pc = .waitMs →
    s.bridge.delivered.getLast? = s.values.getLast?

/-- What `del` is about to remove is the status just read. -/
def RemovesRead (s : FreeState) : Prop :=
  ∀ v, s.bridge.pc = .delUp v → s.bridge.store.get .up = some v

/-- `value` is set where it is still to be sent; nothing newer than the status in hand is
    posted unless the up key shows it. -/
structure Fresh (s : FreeState) : Prop where
  up : ∀ v, s.bridge.store.get .up = some v → s.posted.getLast? = some v.value
  value : ∀ v, s.bridge.pc = .delUp v ∨ s.bridge.pc = .putDn v → s.bridge.value = irqValue v.value
  last : s.bridge.pc.read.isSome ∨ s.bridge.store.get .up = none →
    (s.bridge.delivered ++ s.bridge.owed.toList).getLast? = s.values.getLast?

variable {s u : FreeState} {a : FreeAction} {as : List FreeAction}

theorem Spares.mono {same same' : BitVec 32 → BitVec 32 → Prop} (h : Spares same s a)
    (himp : ∀ x y, same x y → same' x y) : Spares same' s a := by
  cases a with
  | post status => exact fun v hv => himp _ _ (h v hv)
  | bridge | delDn => trivial

theorem fresh_init : Fresh .init where
  up v h := by simp [FreeState.init, Bridge.init] at h
  value v h := by simp [FreeState.init, Bridge.init] at h
  last _ := rfl

theorem owed_of_read {b : Bridge} {v : IrqTransPayload} (h : b.pc.read = some v) :
    b.owed = some (irqValue v.value) := by
  unfold Pc.read at h
  unfold Bridge.owed
  split at h <;> simp_all

theorem fresh_post {status : BitVec 32} (hs : Fresh s) (hC : Spares SameValue s (.post status))
    (h : freeStep s (.post status) = some u) : Fresh u := by
  obtain rfl := Option.some.inj h
  refine ⟨?_, hs.value, ?_⟩
  · intro v hv
    obtain rfl : ⟨status⟩ = v := by simpa [FreeState.setStore] using hv
    simp
  · intro hread
    have hread : s.bridge.pc.read.isSome := by simpa [FreeState.setStore] using hread
    obtain ⟨v, hv⟩ := Option.isSome_iff_exists.mp hread
    have howed : s.bridge.owed = some (irqValue v.value) := owed_of_read hv
    have hsame : irqValue status = irqValue v.value := hC v hv
    change (s.bridge.delivered ++ s.bridge.owed.toList).getLast? =
      ((s.posted ++ [status]).map irqValue).getLast?
    simp [howed, hsame]

theorem fresh_delDn (hs : Fresh s) (h : freeStep s .delDn = some u) : Fresh u := by
  obtain ⟨_, hu⟩ : (s.bridge.store.get .dn).isSome ∧
      s.setStore (s.bridge.store.del .dn) = u := by
    simpa [freeStep] using h
  subst hu
  have hup : (s.bridge.store.del .dn).get .up = s.bridge.store.get .up :=
    Store.get_del_of_ne _ (by decide)
  exact ⟨fun v hv => hs.up v (hup ▸ hv), hs.value, fun h => hs.last (hup ▸ h)⟩

theorem fresh_bridge (hs : Fresh s) (h : freeStep s .bridge = some u) : Fresh u := by
  obtain rfl := Option.some.inj h
  obtain ⟨⟨store, pc, value, delivered, errors⟩, posted⟩ := s
  obtain ⟨hup, hvalue, hlast⟩ := hs
  have hread (v : IrqTransPayload) (hv : pc.read = some v) :
      some (irqValue v.value) = (posted.map irqValue).getLast? := by
    have howed : (Bridge.mk store pc value delivered errors).owed = some (irqValue v.value) :=
      owed_of_read hv
    simpa [howed, FreeState.values] using hlast (.inl (Option.isSome_iff_exists.mpr ⟨v, hv⟩))
  cases pc with
  | waitMs => exact ⟨hup, by simp [bridgeStep], hlast⟩
  | getUp =>
    refine ⟨hup, by simp [bridgeStep], ?_⟩
    cases hget : store.get .up with
    | none => simpa [bridgeStep, Bridge.owed, Pc.read, FreeState.values, hget] using hlast
    | some v =>
      have hpost : posted.getLast? = some v.value := hup v hget
      simp [bridgeStep, Bridge.owed, FreeState.values, hget, hpost]
  | getDn o =>
    cases o with
    | none => exact ⟨hup, by simp [bridgeStep], hlast⟩
    | some v =>
      cases hget : store.get .dn with
      | none =>
        refine ⟨by simpa [bridgeStep, Bridge.status, hget] using hup, ?_, fun _ => ?_⟩
        · simp [bridgeStep, Bridge.status, hget]
        · simpa [bridgeStep, Bridge.status, Bridge.owed, FreeState.values, hget]
            using hread v rfl
      | some w =>
        refine ⟨by simpa [bridgeStep, hget] using hup, by simp [bridgeStep, hget], fun _ => ?_⟩
        simpa [bridgeStep, Bridge.owed, FreeState.values, hget] using hread v rfl
  | delStaleDn v =>
    refine ⟨?_, by simp [bridgeStep, Bridge.status], fun _ => ?_⟩
    · simpa [bridgeStep, Bridge.status] using hup
    · simpa [bridgeStep, Bridge.status, Bridge.owed, FreeState.values] using hread v rfl
  | delUp v =>
    refine ⟨by simp [bridgeStep], ?_, ?_⟩
    · simpa [bridgeStep] using hvalue
    · simpa [bridgeStep, Bridge.owed, FreeState.values] using hread v rfl
  | putDn v =>
    have hv : value = irqValue v.value := hvalue v (.inr rfl)
    refine ⟨by simpa [bridgeStep] using hup, by simp [bridgeStep], ?_⟩
    simpa [bridgeStep, Bridge.owed, Pc.read, FreeState.values, hv] using hlast
  | waitNs => exact ⟨hup, by simp [bridgeStep], hlast⟩
  | pollDn =>
    cases hget : store.get .dn with
    | none =>
      refine ⟨by simpa [bridgeStep, hget] using hup, by simp [bridgeStep, hget], ?_⟩
      simpa [bridgeStep, Bridge.owed, Pc.read, FreeState.values, hget] using hlast
    | some w =>
      refine ⟨by simpa [bridgeStep, hget] using hup, by simp [bridgeStep, hget], ?_⟩
      simpa [bridgeStep, Bridge.owed, Pc.read, FreeState.values, hget] using hlast
  | transmit =>
    refine ⟨hup, by simp [bridgeStep], ?_⟩
    simpa [bridgeStep, Bridge.owed, Pc.read, FreeState.values] using hlast
  | transmitting => exact ⟨hup, by simp [bridgeStep], hlast⟩

theorem fresh_step (hs : Fresh s) (hC : Spares SameValue s a) (h : freeStep s a = some u) :
    Fresh u := by
  cases a with
  | bridge => exact fresh_bridge hs h
  | post status => exact fresh_post hs hC h
  | delDn => exact fresh_delDn hs h

theorem Fresh.tracked (h : Fresh s) : Tracked s := by
  intro _ hup hpc
  have hlast := h.last (.inr hup)
  rwa [show s.bridge.owed = none by simp only [Bridge.owed, hpc], Option.toList_none,
    List.append_nil] at hlast

def Held (s : FreeState) : Prop :=
  ∀ v, s.bridge.pc.read = some v → s.bridge.store.get .up = some v

theorem held_step (hs : Held s) (hC : Spares Eq s a) (h : freeStep s a = some u) : Held u := by
  intro v hv
  cases a with
  | post status =>
    obtain rfl := Option.some.inj h
    have hsame : status = v.value := hC v hv
    simp [FreeState.setStore, hsame]
  | delDn =>
    obtain ⟨_, hu⟩ : (s.bridge.store.get .dn).isSome ∧
        s.setStore (s.bridge.store.del .dn) = u := by
      simpa [freeStep] using h
    subst hu
    exact (Store.get_del_of_ne _ (by decide)).trans (hs v hv)
  | bridge =>
    obtain rfl := Option.some.inj h
    obtain ⟨⟨store, pc, value, delivered, errors⟩, posted⟩ := s
    cases pc with
    | getUp =>
      cases hget : store.get .up with
      | none => simp [bridgeStep, hget, Pc.read] at hv
      | some w => simpa [bridgeStep, hget, Pc.read] using hv
    | getDn o =>
      cases o with
      | none => simp [bridgeStep, Pc.read] at hv
      | some w =>
        have hw : store.get .up = some w := hs w rfl
        cases hget : store.get .dn <;> simp_all [bridgeStep, Bridge.status, Pc.read]
    | delStaleDn w =>
      have hw : store.get .up = some w := hs w rfl
      simpa [bridgeStep, Bridge.status, Pc.read, hw] using hv
    | pollDn =>
      cases hget : store.get .dn <;> simp [bridgeStep, hget, Pc.read] at hv
    | waitMs | delUp w | putDn w | waitNs | transmit | transmitting =>
      simp [bridgeStep, Pc.read] at hv

theorem Held.removesRead (h : Held s) : RemovesRead s := by
  intro v hpc
  exact h v (by rw [hpc]; rfl)

theorem runs_to_delUp {v : IrqTransPayload} (hread : s.bridge.pc.read = some v)
    (hvalue : s.bridge.pc = .delUp v → s.bridge.value = irqValue v.value) :
    ∃ bs w, freeMachine.Runs s bs w ∧ w.bridge.pc = .delUp v ∧
      w.bridge.value = irqValue v.value ∧ w.posted = s.posted ∧
      w.bridge.store.get .up = s.bridge.store.get .up := by
  obtain ⟨⟨store, pc, value, delivered, errors⟩, posted⟩ := s
  cases pc with
  | delUp w =>
    obtain rfl : w = v := by simpa [Pc.read] using hread
    exact ⟨[], _, .refl _, rfl, hvalue rfl, rfl, rfl⟩
  | delStaleDn w =>
    obtain rfl : w = v := by simpa [Pc.read] using hread
    refine ⟨[.bridge], _, .one trivial rfl, ?_⟩
    simp [bridgeStep, Bridge.status]
  | getDn o =>
    obtain rfl : o = some v := by cases o <;> simp_all [Pc.read]
    cases hget : store.get .dn with
    | none =>
      refine ⟨[.bridge], _, .one trivial rfl, ?_⟩
      simp [bridgeStep, Bridge.status, hget]
    | some w =>
      refine ⟨[.bridge, .bridge], _, .next trivial rfl (.one trivial rfl), ?_⟩
      simp [bridgeStep, Bridge.status, hget]
  | waitMs | getUp | putDn w | waitNs | pollDn | transmit | transmitting =>
    simp [Pc.read] at hread

theorem runs_to_waitMs {v : IrqTransPayload} (hpc : s.bridge.pc = .delUp v)
    (hvalue : s.bridge.value = irqValue v.value) :
    ∃ bs w, freeMachine.Runs s bs w ∧ w.bridge.pc = .waitMs ∧
      w.bridge.store.get .up = none ∧ w.posted = s.posted ∧
      w.bridge.delivered.getLast? = some (irqValue v.value) := by
  obtain ⟨⟨store, pc, value, delivered, errors⟩, posted⟩ := s
  obtain rfl : pc = .delUp v := hpc
  obtain rfl : value = irqValue v.value := hvalue
  refine ⟨[.bridge, .bridge, .delDn, .bridge, .bridge, .bridge, .bridge], _,
    Machine.runsWith_of_exec rfl, ?_⟩
  simp [bridgeStep, FreeState.setStore]

theorem runs_fresh (h : freeMachine.RunsWith (Spares SameValue) .init as s) : Fresh s :=
  h.invariant Fresh fresh_init fun _ _ _ hs hC hstep => fresh_step hs hC hstep

theorem runs_held (h : freeMachine.RunsWith (Spares Eq) .init as s) : Held s :=
  h.invariant Held (fun v hv => by cases hv) fun _ _ _ hs hC hstep => held_step hs hC hstep

theorem not_spares {same : BitVec 32 → BitVec 32 → Prop} (h : ¬ Spares same s a) :
    ∃ status v, a = .post status ∧ s.bridge.pc.read = some v ∧ ¬ same status v.value := by
  cases a with
  | post status =>
    simp only [Spares, not_forall] at h
    obtain ⟨v, hv, hne⟩ := h
    exact ⟨status, v, rfl, hv, hne⟩
  | bridge | delDn => exact absurd trivial h

theorem lost_of_repost (hs : Fresh s) (h : freeStep s a = some u)
    (hC : ¬ Spares SameValue s a) : ∃ bs w, freeMachine.Runs u bs w ∧ ¬ Tracked w := by
  obtain ⟨status, v, rfl, hread, hne⟩ := not_spares hC
  obtain rfl := Option.some.inj h
  obtain ⟨bs, w, hw, hpc, hvalue, hposted, _⟩ :=
    runs_to_delUp (s := { s.setStore (s.bridge.store.put .up ⟨status⟩) with
      posted := s.posted ++ [status] }) hread fun hpc => hs.value v (.inl hpc)
  obtain ⟨bs', w', hw', hpc', hup, hposted', hlast⟩ := runs_to_waitMs hpc hvalue
  refine ⟨bs ++ bs', w', hw.trans hw', fun htracked => hne ?_⟩
  have hall : w'.posted = s.posted ++ [status] := hposted'.trans hposted
  have heq := htracked (by simp [hall]) hup hpc'
  rw [hlast, FreeState.values, hall] at heq
  simpa [SameValue] using heq.symm

theorem removed_of_repost (hs : Fresh s) (h : freeStep s a = some u)
    (hC : ¬ Spares Eq s a) : ∃ bs w, freeMachine.Runs u bs w ∧ ¬ RemovesRead w := by
  obtain ⟨status, v, rfl, hread, hne⟩ := not_spares hC
  obtain rfl := Option.some.inj h
  obtain ⟨bs, w, hw, hpc, _, _, hup⟩ :=
    runs_to_delUp (s := { s.setStore (s.bridge.store.put .up ⟨status⟩) with
      posted := s.posted ++ [status] }) hread fun hpc => hs.value v (.inl hpc)
  refine ⟨bs, w, hw, fun hremoves => hne ?_⟩
  have hget := hremoves v hpc
  rw [hup] at hget
  simpa [FreeState.setStore] using congrArg (Option.map IrqTransPayload.value) hget

/-- While the peer does not replace the status that the bridge has read and not removed
    yet by one of another value, the last value delivered is the last status's; while it
    does not replace it by another status, `del` removes the status just read. A step
    that breaks either condition can be followed by the loss. -/
theorem reposted_delivered :
    (∀ as s, freeMachine.RunsWith (Spares SameValue) .init as s → Tracked s ∧
      ∀ a u, freeStep s a = some u → ¬ Spares SameValue s a →
        ∃ bs w, freeMachine.Runs u bs w ∧ ¬ Tracked w) ∧
    (∀ as s, freeMachine.RunsWith (Spares Eq) .init as s → RemovesRead s ∧
      ∀ a u, freeStep s a = some u → ¬ Spares Eq s a →
        ∃ bs w, freeMachine.Runs u bs w ∧ ¬ RemovesRead w) := by
  refine ⟨fun as s h => ?_, fun as s h => ?_⟩
  · have hs := runs_fresh h
    exact ⟨hs.tracked, fun a u hstep hC => lost_of_repost hs hstep hC⟩
  · have hsame : freeMachine.RunsWith (Spares SameValue) .init as s :=
      h.mono fun s a hC => hC.mono fun _ _ => congrArg irqValue
    exact ⟨(runs_held h).removesRead,
      fun a u hstep hC => removed_of_repost (runs_fresh hsame) hstep hC⟩

/-- A second status is posted before the first is acknowledged. -/
def spared : List FreeAction :=
  [.post 1, .bridge, .bridge, .bridge, .bridge, .post 2, .bridge, .delDn, .bridge, .bridge,
    .bridge, .bridge, .bridge, .bridge, .bridge, .bridge, .bridge, .delDn, .bridge, .bridge,
    .bridge, .bridge]

theorem reposted_delivered_spared :
    ∃ s, freeMachine.RunsWith (Spares SameValue) .init spared s ∧ s.bridge.delivered = [1, 0] ∧
      s.posted = [1, 2] ∧ Tracked s := by
  obtain ⟨s, hrun, hd, hp⟩ := Machine.runsWith_of_eval freeMachine (Spares SameValue) spared
    (fun s => s.bridge.delivered = [1, 0] ∧ s.posted = [1, 2]) (by decide)
  exact ⟨s, hrun, hd, hp, (reposted_delivered.1 _ s hrun).1⟩

/-- The peer replaces status 1 by status 0 after `get` and before `del`. -/
def replaced : List FreeAction :=
  [.post 1, .bridge, .bridge, .bridge, .post 0, .bridge, .bridge, .delDn, .bridge, .bridge,
    .bridge, .bridge]

theorem replaced_status_lost : ¬ ∀ as s, freeMachine.Runs .init as s → Tracked s := by
  intro hall
  obtain ⟨s, hrun, hp, hup, hpc, hd⟩ := Machine.runsWith_of_eval freeMachine (fun _ _ => True)
    replaced (fun s => s.posted = [1, 0] ∧ s.bridge.store.get .up = none ∧
      s.bridge.pc = .waitMs ∧ s.bridge.delivered = [1]) (by decide)
  have heq := hall _ s hrun (by simp [hp]) hup hpc
  rw [hd, FreeState.values, hp] at heq
  exact absurd heq (by decide)

end NvdlaVp.CosimInterrupt
