import NvdlaVp.CosimInterrupt

set_option autoImplicit false

namespace NvdlaVp.CosimInterrupt
open MachineRuns KeyValueStore

structure Last (s : State) (v : IrqTransPayload) : Prop where
  get : s.posted[s.removed]? = some v.value
  length : s.posted.length = s.removed + 1

structure Quiet (s : State) : Prop where
  peer : s.peer = .ready
  up : s.bridge.store.get .up = none
  dn : s.bridge.store.get .dn = none
  length : s.posted.length = s.removed

structure Posted (s : State) (v : IrqTransPayload) : Prop where
  peer : s.peer = .waitDn
  up : s.bridge.store.get .up = some v
  dn : s.bridge.store.get .dn = none
  last : Last s v

structure Taken (s : State) (v : IrqTransPayload) : Prop where
  peer : s.peer = .waitDn
  up : s.bridge.store.get .up = none
  dn : s.bridge.store.get .dn = none
  last : Last s v

structure Acked (s : State) (v : IrqTransPayload) : Prop where
  peer : s.peer = .waitDn ∨ s.peer = .delDn
  up : s.bridge.store.get .up = none
  dn : s.bridge.store.get .dn = some v
  last : Last s v

def Resting (s : State) : Prop := Quiet s ∨ ∃ v, Posted s v

def Even (s : State) : Prop := s.removed = s.bridge.delivered.length

/-- One acknowledgement is removed already, and its status is the next to be delivered. -/
structure Ahead (s : State) : Prop where
  removed : s.removed = s.bridge.delivered.length + 1
  value : s.values[s.bridge.delivered.length]? = some s.bridge.value
  rest : Resting s

def AtPc (s : State) : Pc → Prop
  | .waitMs | .getUp | .getDn none | .transmitting => Even s ∧ Resting s
  | .getDn (some v) => Even s ∧ Posted s v
  | .delStaleDn _ => False
  | .delUp v => Even s ∧ Posted s v ∧ s.bridge.value = irqValue v.value
  | .putDn v => Even s ∧ Taken s v ∧ s.bridge.value = irqValue v.value
  | .waitNs | .pollDn =>
    (Even s ∧ ∃ v, Acked s v ∧ s.bridge.value = irqValue v.value) ∨ Ahead s
  | .transmit => Ahead s

structure Invariant (s : State) : Prop where
  delivered : s.bridge.delivered <+: s.values
  errors : s.bridge.errors = []
  pc : AtPc s s.bridge.pc

theorem invariant_init : Invariant .init :=
  ⟨List.nil_prefix, rfl, rfl, .inl ⟨rfl, rfl, rfl, rfl⟩⟩

theorem Resting.congr {s u : State} (h : Resting s) (hp : u.peer = s.peer)
    (hs : u.bridge.store = s.bridge.store) (hposted : u.posted = s.posted)
    (hr : u.removed = s.removed) : Resting u := by
  rcases h with ⟨peer, up, dn, len⟩ | ⟨v, peer, up, dn, hget, hlen⟩
  · exact .inl ⟨hp.trans peer, hs ▸ up, hs ▸ dn, by rw [hposted, hr, len]⟩
  · exact .inr ⟨v, hp.trans peer, hs ▸ up, hs ▸ dn, by rw [hposted, hr, hget],
      by rw [hposted, hr, hlen]⟩

theorem Acked.congr {s u : State} {v : IrqTransPayload} (h : Acked s v) (hp : u.peer = s.peer)
    (hs : u.bridge.store = s.bridge.store) (hposted : u.posted = s.posted)
    (hr : u.removed = s.removed) : Acked u v :=
  ⟨hp ▸ h.peer, hs ▸ h.up, hs ▸ h.dn, by rw [hposted, hr, h.last.get],
    by rw [hposted, hr, h.last.length]⟩

theorem Ahead.prefix_append {s : State} (h : Ahead s)
    (hd : s.bridge.delivered <+: s.values) :
    s.bridge.delivered ++ [s.bridge.value] <+: s.values := by
  obtain ⟨rest, hrest⟩ := hd
  have hv := h.value
  rw [← hrest, List.getElem?_append_right (Nat.le_refl _), Nat.sub_self] at hv
  cases rest with
  | nil => contradiction
  | cons x rest =>
    obtain rfl : x = s.bridge.value := by simpa using hv
    exact ⟨rest, by rw [← hrest]; simp⟩

theorem invariant_bridge {s : State} (h : Invariant s) :
    Invariant { s with bridge := bridgeStep s.bridge } := by
  obtain ⟨hd, he, hpc⟩ := h
  cases hq : s.bridge.pc with
  | waitMs =>
    rw [hq] at hpc
    rw [show bridgeStep s.bridge = { s.bridge with pc := .getUp } by simp only [bridgeStep, hq]]
    exact ⟨hd, he, hpc.1, hpc.2.congr rfl rfl rfl rfl⟩
  | getUp =>
    rw [hq] at hpc
    rw [show bridgeStep s.bridge = { s.bridge with pc := .getDn (s.bridge.store.get .up) } by
      simp only [bridgeStep, hq]]
    obtain ⟨heven, hrest⟩ := hpc
    refine ⟨hd, he, ?_⟩
    rcases hrest with hquiet | ⟨v, hposted⟩
    · simp only [hquiet.up]
      exact ⟨heven, .inl ⟨hquiet.peer, hquiet.up, hquiet.dn, hquiet.length⟩⟩
    · simp only [hposted.up]
      exact ⟨heven, hposted.peer, hposted.up, hposted.dn, hposted.last.get, hposted.last.length⟩
  | getDn o =>
    rw [hq] at hpc
    cases o with
    | none =>
      rw [show bridgeStep s.bridge = { s.bridge with pc := .waitMs } by
        simp only [bridgeStep, hq]]
      exact ⟨hd, he, hpc.1, hpc.2.congr rfl rfl rfl rfl⟩
    | some v =>
      obtain ⟨heven, hposted⟩ := hpc
      rw [show bridgeStep s.bridge = s.bridge.status v by
        simp [bridgeStep, hq, hposted.dn]]
      exact ⟨hd, he, heven, ⟨hposted.peer, hposted.up, hposted.dn, hposted.last.get,
        hposted.last.length⟩, rfl⟩
  | delStaleDn v =>
    rw [hq] at hpc
    exact hpc.elim
  | delUp v =>
    rw [hq] at hpc
    obtain ⟨heven, hposted, hvalue⟩ := hpc
    rw [show bridgeStep s.bridge = { s.bridge with
      pc := .putDn v, store := s.bridge.store.del .up } by simp only [bridgeStep, hq]]
    exact ⟨hd, he, heven, ⟨hposted.peer, Store.get_del _ _,
      (Store.get_del_of_ne _ (by decide)).trans hposted.dn, hposted.last.get,
      hposted.last.length⟩, hvalue⟩
  | putDn v =>
    rw [hq] at hpc
    obtain ⟨heven, htaken, hvalue⟩ := hpc
    rw [show bridgeStep s.bridge = { s.bridge with
      pc := .waitNs, store := s.bridge.store.put .dn v } by simp only [bridgeStep, hq]]
    exact ⟨hd, he, .inl ⟨heven, v, ⟨.inl htaken.peer,
      (Store.get_put_of_ne _ _ (by decide)).trans htaken.up, Store.get_put _ _ _,
      htaken.last.get, htaken.last.length⟩, hvalue⟩⟩
  | waitNs =>
    rw [hq] at hpc
    rw [show bridgeStep s.bridge = { s.bridge with pc := .pollDn } by
      simp only [bridgeStep, hq]]
    refine ⟨hd, he, hpc.imp ?_ ?_⟩
    · rintro ⟨heven, v, hacked, hvalue⟩
      exact ⟨heven, v, hacked.congr rfl rfl rfl rfl, hvalue⟩
    · rintro ⟨hr, hv, hrest⟩
      exact ⟨hr, hv, hrest.congr rfl rfl rfl rfl⟩
  | pollDn =>
    rw [hq] at hpc
    rcases hpc with ⟨heven, v, hacked, hvalue⟩ | ⟨hr, hv, hrest⟩
    · rw [show bridgeStep s.bridge = { s.bridge with pc := .waitNs } by
        simp [bridgeStep, hq, hacked.dn]]
      exact ⟨hd, he, .inl ⟨heven, v, hacked.congr rfl rfl rfl rfl, hvalue⟩⟩
    · have hdn : s.bridge.store.get .dn = none := by
        rcases hrest with hquiet | ⟨v, hposted⟩
        · exact hquiet.dn
        · exact hposted.dn
      rw [show bridgeStep s.bridge = { s.bridge with pc := .transmit } by
        simp [bridgeStep, hq, hdn]]
      exact ⟨hd, he, hr, hv, hrest.congr rfl rfl rfl rfl⟩
  | transmit =>
    rw [hq] at hpc
    have hahead : Ahead s := hpc
    rw [show bridgeStep s.bridge = { s.bridge with
      pc := .transmitting, delivered := s.bridge.delivered ++ [s.bridge.value] } by
        simp only [bridgeStep, hq]]
    refine ⟨hahead.prefix_append hd, he, ?_, hahead.rest.congr rfl rfl rfl rfl⟩
    simp only [Even, List.length_append, List.length_singleton]
    exact hahead.removed
  | transmitting =>
    rw [hq] at hpc
    rw [show bridgeStep s.bridge = { s.bridge with pc := .waitMs } by
      simp only [bridgeStep, hq]]
    exact ⟨hd, he, hpc.1, hpc.2.congr rfl rfl rfl rfl⟩

theorem Quiet.post {s : State} (h : Quiet s) (status : BitVec 32) :
    Posted { s.setStore (s.bridge.store.put .up ⟨status⟩) with
      peer := .waitDn
      posted := s.posted ++ [status] } ⟨status⟩ := by
  refine ⟨rfl, Store.get_put _ _ _, (Store.get_put_of_ne _ _ (by decide)).trans h.dn, ?_, ?_⟩
  · change (s.posted ++ [status])[s.removed]? = some status
    rw [← h.length]
    simp
  · change (s.posted ++ [status]).length = s.removed + 1
    simp [h.length]

theorem Resting.quiet {s : State} (h : Resting s) (hp : s.peer = .ready) : Quiet s := by
  rcases h with h | ⟨v, h⟩
  · exact h
  · rw [h.peer] at hp
    contradiction

theorem invariant_post {s u : State} {status : BitVec 32} (h : Invariant s)
    (hstep : step s (.post status) = some u) : Invariant u := by
  obtain ⟨hd, he, hpc⟩ := h
  have hp : s.peer = .ready := by
    cases hp : s.peer <;> simp_all [step]
  simp only [step, hp, Option.some.injEq] at hstep
  subst u
  have hvalues : s.bridge.delivered <+: (s.posted ++ [status]).map irqValue := by
    rw [List.map_append]
    exact hd.trans (List.prefix_append _ _)
  refine ⟨hvalues, he, ?_⟩
  change AtPc _ s.bridge.pc
  have hrest : Resting s → Resting { s.setStore (s.bridge.store.put .up ⟨status⟩) with
      peer := .waitDn
      posted := s.posted ++ [status] } :=
    fun h => .inr ⟨_, (h.quiet hp).post status⟩
  have hahead : Ahead s → Ahead { s.setStore (s.bridge.store.put .up ⟨status⟩) with
      peer := .waitDn
      posted := s.posted ++ [status] } := by
    rintro ⟨hr, hv, h⟩
    refine ⟨hr, ?_, hrest h⟩
    refine getElem?_of_prefix ?_ hv
    rw [State.values, State.values, List.map_append]
    exact List.prefix_append _ _
  cases hq : s.bridge.pc with
  | waitMs | getUp | transmitting =>
    rw [hq] at hpc
    exact ⟨hpc.1, hrest hpc.2⟩
  | getDn o =>
    rw [hq] at hpc
    cases o with
    | none => exact ⟨hpc.1, hrest hpc.2⟩
    | some v => exact absurd (hp.symm.trans hpc.2.peer) (by decide)
  | delStaleDn v =>
    rw [hq] at hpc
    exact hpc.elim
  | delUp v =>
    rw [hq] at hpc
    exact absurd (hp.symm.trans hpc.2.1.peer) (by decide)
  | putDn v =>
    rw [hq] at hpc
    exact absurd (hp.symm.trans hpc.2.1.peer) (by decide)
  | waitNs | pollDn =>
    rw [hq] at hpc
    rcases hpc with ⟨_, v, hacked, _⟩ | h
    · rcases hacked.peer with h | h
      · exact absurd (hp.symm.trans h) (by decide)
      · exact absurd (hp.symm.trans h) (by decide)
    · exact .inr (hahead h)
  | transmit =>
    rw [hq] at hpc
    exact hahead hpc

theorem peerStep_of_empty {s u : State} (hp : s.peer = .waitDn)
    (hdn : s.bridge.store.get .dn = none) (hstep : peerStep s = some u) : u = s := by
  simpa [peerStep, hp, hdn, eq_comm] using hstep

theorem Resting.peerStep {s u : State} (h : Resting s) (hstep : peerStep s = some u) :
    u = s := by
  rcases h with h | ⟨v, h⟩
  · simp [CosimInterrupt.peerStep, h.peer] at hstep
  · exact peerStep_of_empty h.peer h.dn hstep

theorem Acked.peerStep {s u : State} {v : IrqTransPayload} (h : Acked s v) (heven : Even s)
    (hvalue : s.bridge.value = irqValue v.value)
    (hstep : peerStep s = some u) : u.bridge.pc = s.bridge.pc ∧
      u.bridge.delivered = s.bridge.delivered ∧ u.bridge.errors = s.bridge.errors ∧
      u.values = s.values ∧
      ((Even u ∧ Acked u v ∧ u.bridge.value = irqValue v.value) ∨ Ahead u) := by
  obtain ⟨hp, hup, hdn, hlast⟩ := h
  rcases hp with hp | hp
  · simp only [CosimInterrupt.peerStep, hp, hdn, Option.isSome_some, if_true,
      Option.some.injEq] at hstep
    subst u
    exact ⟨rfl, rfl, rfl, rfl, .inl ⟨heven, ⟨.inr rfl, hup, hdn, hlast.get, hlast.length⟩, hvalue⟩⟩
  · simp only [CosimInterrupt.peerStep, hp, Option.some.injEq] at hstep
    subst u
    refine ⟨rfl, rfl, rfl, rfl, .inr ⟨congrArg (· + 1) heven, ?_, .inl ⟨rfl, ?_, ?_, ?_⟩⟩⟩
    · change (s.posted.map irqValue)[s.bridge.delivered.length]? = some s.bridge.value
      rw [← heven, List.getElem?_map, hlast.get, hvalue]
      rfl
    · exact (Store.get_del_of_ne _ (by decide)).trans hup
    · exact Store.get_del _ _
    · exact hlast.length

theorem invariant_peer {s u : State} (h : Invariant s) (hstep : peerStep s = some u) :
    Invariant u := by
  have hs := h
  obtain ⟨hd, he, hpc⟩ := h
  cases hq : s.bridge.pc with
  | waitMs | getUp | transmitting =>
    rw [hq] at hpc
    rwa [hpc.2.peerStep hstep]
  | getDn o =>
    rw [hq] at hpc
    cases o with
    | none => rwa [hpc.2.peerStep hstep]
    | some v => rwa [peerStep_of_empty hpc.2.peer hpc.2.dn hstep]
  | delStaleDn v =>
    rw [hq] at hpc
    exact hpc.elim
  | delUp v =>
    rw [hq] at hpc
    rwa [peerStep_of_empty hpc.2.1.peer hpc.2.1.dn hstep]
  | putDn v =>
    rw [hq] at hpc
    rwa [peerStep_of_empty hpc.2.1.peer hpc.2.1.dn hstep]
  | waitNs | pollDn =>
    rw [hq] at hpc
    rcases hpc with ⟨heven, v, hacked, hvalue⟩ | hahead
    · obtain ⟨hpc', hdel, herr, hval, hat⟩ := hacked.peerStep heven hvalue hstep
      refine ⟨by rw [hdel, hval]; exact hd, by rw [herr]; exact he, ?_⟩
      rw [hpc', hq]
      exact hat.imp_left fun h => ⟨h.1, v, h.2⟩
    · rwa [hahead.rest.peerStep hstep]
  | transmit =>
    rw [hq] at hpc
    rwa [Resting.peerStep (Ahead.rest hpc) hstep]

theorem runs_invariant {as : List Action} {s : State} (h : machine.Runs .init as s) :
    Invariant s := by
  refine h.invariant Invariant invariant_init ?_
  intro s a u hs _ hstep
  cases a with
  | bridge =>
    obtain rfl : { s with bridge := bridgeStep s.bridge } = u := Option.some.inj hstep
    exact invariant_bridge hs
  | post status => exact invariant_post hs hstep
  | peer => exact invariant_peer hs hstep

theorem Invariant.lag {s : State} (h : Invariant s) :
    s.bridge.delivered.length ≤ s.removed ∧ s.removed ≤ s.bridge.delivered.length + 1 := by
  have hcases : Even s ∨ Ahead s := by
    have hpc := h.pc
    cases hq : s.bridge.pc with
    | waitMs | getUp | transmitting | delUp v | putDn v =>
      rw [hq] at hpc
      exact .inl hpc.1
    | getDn o =>
      rw [hq] at hpc
      cases o <;> exact .inl hpc.1
    | delStaleDn v =>
      rw [hq] at hpc
      exact hpc.elim
    | waitNs | pollDn =>
      rw [hq] at hpc
      exact hpc.imp_left And.left
    | transmit =>
      rw [hq] at hpc
      exact .inr hpc
  rcases hcases with heven | hahead
  · unfold Even at heven
    omega
  · have := hahead.removed
    omega

/-- In every run the transmitted values are those of the posted statuses so far, at most
    one removed acknowledgement ahead, and no acknowledgement meets another one. -/
theorem interrupts_delivered_once {as : List Action} {s : State}
    (h : machine.Runs .init as s) :
    s.bridge.delivered <+: s.posted.map irqValue ∧
    s.bridge.delivered.length ≤ s.removed ∧ s.removed ≤ s.bridge.delivered.length + 1 ∧
    s.bridge.errors = [] ∧
    ∀ v, s.bridge.pc = .putDn v → s.bridge.store.get .dn = none := by
  have hinv := runs_invariant h
  obtain ⟨hge, hle⟩ := hinv.lag
  refine ⟨hinv.delivered, hge, hle, hinv.errors, fun v hq => ?_⟩
  have hpc := hinv.pc
  rw [hq] at hpc
  exact hpc.2.1.dn

theorem interrupts_delivered_once_two : ∃ s, machine.Runs .init
    [.bridge, .post 3, .bridge, .bridge, .bridge, .bridge, .peer, .peer, .post 2, .bridge,
      .bridge, .bridge] s ∧
    s.bridge.delivered = [1] ∧ s.posted.map irqValue = [1, 0] ∧
    s.bridge.delivered <+: s.posted.map irqValue := by
  obtain ⟨s, hrun, hdel, hposted⟩ := Machine.runsWith_of_eval machine (fun _ _ => True)
    [.bridge, .post 3, .bridge, .bridge, .bridge, .bridge, .peer, .peer, .post 2, .bridge,
      .bridge, .bridge]
    (fun s => s.bridge.delivered = [1] ∧ s.posted.map irqValue = [1, 0]) (by decide)
  exact ⟨s, hrun, hdel, hposted, (interrupts_delivered_once hrun).1⟩

end NvdlaVp.CosimInterrupt
