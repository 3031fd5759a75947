import NvdlaVp.CosimBridgeAttribution

set_option autoImplicit false

namespace NvdlaVp.CosimBridge
open MachineRuns KeyValueStore

theorem performed_once {g : Gsgp2cosim} {as : List Action} {s : State}
    (h : (machine g).Runs .init as s) :
    s.performed.Pairwise fun p q => p.ticket ≠ q.ticket := by
  obtain ⟨ht, ho⟩ := runs_tracked h
  refine ho.sorted.imp_of_mem ?_
  intro p q hp hq hlt heq
  have hch := (ht.performed p hp).unique (heq ▸ ht.performed q hq)
  exact absurd (hlt hch) (by omega)

structure InOrder (g : Gsgp2cosim) (s : State) : Prop where
  sorted : s.performed.Pairwise fun p q => p.ticket < q.ticket
  issued : ∀ p ∈ s.performed, ∃ r, s.calls[p.ticket]? = some r ∧ p.access = g.access r

def PeerPc.pending : PeerPc → Bool
  | .got _ | .taken _ => true
  | _ => false

/-- A request is put only when the other channel has none left to perform. -/
def OtherDone (s : State) (a : Action) : Prop :=
  a = .bridge → ∀ c ∈ s.pc.put,
    s.store.get (.dn c.channel.other) = none ∧ (s.peer c.channel.other).pending = false

instance (s : State) (a : Action) : Decidable (OtherDone s a) :=
  inferInstanceAs (Decidable (_ → ∀ c ∈ s.pc.put, _ ∧ _))

theorem unperformed_iff (s : State) (ch : Channel) : (∃ m, Unperformed s ch m) ↔
    ¬ (s.store.get (.dn ch) = none ∧ (s.peer ch).pending = false) := by
  constructor
  · rintro ⟨m, hm⟩ ⟨hdn, hp⟩
    cases hm with
    | dn h => rw [hdn] at h; contradiction
    | got h => rw [h] at hp; contradiction
    | taken h => rw [h] at hp; contradiction
  · intro h
    cases hp : s.peer ch with
    | got m => exact ⟨m, .got hp⟩
    | taken m => exact ⟨m, .taken hp⟩
    | idle | answered m w =>
      have hdn : s.store.get (.dn ch) ≠ none := fun hnone => h ⟨hnone, by rw [hp]; rfl⟩
      obtain ⟨m, hm⟩ := Option.ne_none_iff_exists'.mp hdn
      exact ⟨m, .dn hm⟩

/-- At most one channel has requests left, and they are newer than all that is done. -/
structure Exclusive (s : State) : Prop where
  one : ∀ c d m n, c ≠ d → Unperformed s c m → ¬ Unperformed s d n
  pending : ∀ ch m, Unperformed s ch m → ∀ p ∈ s.performed, p.ticket < m.ticket
  sorted : s.performed.Pairwise fun p q => p.ticket < q.ticket

theorem exclusive_init : Exclusive .init where
  one c d m n _ h := by cases h <;> contradiction
  pending ch m h := by cases h <;> contradiction
  sorted := .nil

theorem other_eq_of_ne {c d : Channel} (h : c ≠ d) : c.other = d := by
  cases c <;> cases d <;> simp_all [Channel.other]

theorem no_unperformed_of_put {s : State} {c : Call} {d : Channel} {n : Message}
    (hC : OtherDone s .bridge) (hpc : s.pc = .putDn c) (hd : c.channel ≠ d) :
    ¬ Unperformed s d n := by
  intro hn
  have hfree := hC rfl c (by rw [hpc]; rfl)
  rw [other_eq_of_ne hd] at hfree
  exact (unperformed_iff s d).mp ⟨n, hn⟩ hfree

theorem bridge_of_pc {g : Gsgp2cosim} {s u : State} {a : Action} {c : Call} {k : BitVec 32}
    (h : Move g s a u) (hpc : s.pc = .putDn c) (hu : u.pc = .poll c k) : a = .bridge := by
  cases h with
  | call r stack h => rw [hpc] at h; contradiction
  | peerEmpty | peerGet | peerDel | perform | answer =>
    have hs : s.pc = .poll c k := hu
    rw [hpc] at hs
    contradiction
  | _ => rfl

theorem exclusive_step {g : Gsgp2cosim} {s u : State} {a : Action} (ho : Ordered s)
    (hs : Exclusive s) (hC : OtherDone s a) (h : Move g s a u) : Exclusive u := by
  refine ⟨?_, ?_, ?_⟩
  · intro c d m n hcd hm hn
    rcases unperformed_step h hm with hm | ⟨x, hpc, rfl, rfl, hpoll⟩
    · rcases unperformed_step h hn with hn | ⟨x, hpc, rfl, rfl, hpoll⟩
      · exact hs.one c d m n hcd hm hn
      · exact no_unperformed_of_put (bridge_of_pc h hpc hpoll ▸ hC) hpc hcd.symm hm
    · rcases unperformed_step h hn with hn | ⟨y, hpc', rfl, rfl, _⟩
      · exact no_unperformed_of_put (bridge_of_pc h hpc hpoll ▸ hC) hpc hcd hn
      · obtain rfl : x = y := BridgePc.putDn.inj (hpc.symm.trans hpc')
        exact hcd rfl
  · intro ch m hm p hp
    rcases performed_step h with he | ⟨d, n, w, htaken, rfl⟩
    · rw [he] at hp
      rcases unperformed_step h hm with hm | ⟨c, hpc, _, rfl, _⟩
      · exact hs.pending ch m hm p hp
      · exact (ho.fresh c (by rw [hpc]; rfl)).2 p hp
    · rcases unperformed_step h hm with hsm | ⟨c, hpc, _, rfl, hpoll⟩
      · rcases List.mem_append.mp hp with hp | hp
        · exact hs.pending ch m hsm p hp
        · rw [List.mem_singleton.mp hp]
          by_cases hch : ch = d
          · subst hch
            cases hm with
            | dn hdn => exact ho.replaced ch n m htaken hdn
            | got hg => simp at hg
            | taken ht => simp at ht
          · exact absurd (.taken htaken) (hs.one ch d m n hch hsm)
      · have hpc' : s.pc = _ := hpoll
        rw [hpc] at hpc'
        contradiction
  · rcases performed_step h with he | ⟨d, n, w, htaken, rfl⟩
    · rw [he]
      exact hs.sorted
    · refine List.pairwise_append.mpr ⟨hs.sorted, List.pairwise_singleton _ _, ?_⟩
      intro p hp q hq
      rw [List.mem_singleton.mp hq]
      exact hs.pending d n (.taken htaken) p hp

theorem runs_exclusive {g : Gsgp2cosim} {as : List Action} {s : State}
    (h : (machine g).RunsWith OtherDone .init as s) : Exclusive s := by
  have hinv := h.invariant (fun s => (Tracked g s ∧ Ordered s) ∧ Exclusive s)
    ⟨⟨tracked_init g, ordered_init⟩, exclusive_init⟩ ?_
  · exact hinv.2
  · rintro s a u ⟨⟨ht, ho⟩, he⟩ hC hstep
    have hmove := step_move hstep
    exact ⟨⟨tracked_step ht hmove, ordered_step ht ho hmove⟩, exclusive_step ho he hC hmove⟩

theorem runs_inOrder {g : Gsgp2cosim} {as : List Action} {s : State}
    (h : (machine g).RunsWith OtherDone .init as s) : InOrder g s := by
  refine ⟨(runs_exclusive h).sorted, fun p hp => ?_⟩
  obtain ⟨r, hr, _, ha⟩ := (runs_tracked h).1.performed p hp
  exact ⟨r, hr, ha⟩

structure PerformedNext (s v : State) (ch : Channel) : Prop where
  pc : v.pc = s.pc
  performed : ∃ m x, Unperformed s ch m ∧ v.performed = s.performed ++ [⟨x, m.ticket, 0⟩]
  other : ∀ d m, d ≠ ch → (Unperformed v d m ↔ Unperformed s d m)

section Next

variable (g : Gsgp2cosim) {s : State} {ch : Channel} {m : Message}

theorem unperformed_other {d : Channel} (hd : d ≠ ch) :
    Unperformed (peerStep s ch 0) d m ↔ Unperformed s d m := by
  obtain ⟨hp, hdn, _⟩ := peerStep_other s 0 hd
  constructor
  · rintro (h | h | h)
    · exact .dn (hdn.symm.trans h)
    · exact .got (hp.symm.trans h)
    · exact .taken (hp.symm.trans h)
  · rintro (h | h | h)
    · exact .dn (hdn.trans h)
    · exact .got (hp.trans h)
    · exact .taken (hp.trans h)

theorem next_of_peerStep (hperf : (peerStep s ch 0).performed = s.performed)
    (hback : ∀ n, Unperformed (peerStep s ch 0) ch n → Unperformed s ch n)
    (h : ∃ bs v, (machine g).Runs (peerStep s ch 0) bs v ∧
      PerformedNext (peerStep s ch 0) v ch) :
    ∃ bs v, (machine g).Runs s bs v ∧ PerformedNext s v ch := by
  obtain ⟨bs, v, hrun, hv⟩ := h
  have hstep : (machine g).step s (.peer ch 0) = some (peerStep s ch 0) := rfl
  obtain ⟨n, x, hn, hv'⟩ := hv.performed
  exact ⟨_, v, .next trivial hstep hrun, hv.pc.trans (peerStep_frame s ch 0).1,
    ⟨n, x, hback n hn, hperf ▸ hv'⟩, fun d k hd => (hv.other d k hd).trans (unperformed_other hd)⟩

theorem next_taken (hp : s.peer ch = .taken m) :
    ∃ bs v, (machine g).Runs s bs v ∧ PerformedNext s v ch := by
  have hstep : (machine g).step s (.peer ch 0) = some (peerStep s ch 0) := rfl
  refine ⟨_, _, .one trivial hstep, (peerStep_frame s ch 0).1, ?_, ?_⟩
  · exact ⟨m, m.payload.access ch, .taken hp, by simp [peerStep, hp]⟩
  · exact fun d n hd => unperformed_other hd

theorem next_got (hp : s.peer ch = .got m) :
    ∃ bs v, (machine g).Runs s bs v ∧ PerformedNext s v ch := by
  have htaken : (peerStep s ch 0).peer ch = .taken m := by simp [peerStep, hp]
  refine next_of_peerStep g (by simp [peerStep, hp]) ?_ (next_taken g htaken)
  intro n hn
  cases hn with
  | dn h => simp [peerStep, hp] at h
  | got h => rw [htaken] at h; contradiction
  | taken h =>
    obtain rfl : m = n := PeerPc.taken.inj (htaken.symm.trans h)
    exact .got hp

theorem next_idle (hp : s.peer ch = .idle) (hdn : s.store.get (.dn ch) = some m) :
    ∃ bs v, (machine g).Runs s bs v ∧ PerformedNext s v ch := by
  have hgot : (peerStep s ch 0).peer ch = .got m := by simp [peerStep, hp, hdn]
  refine next_of_peerStep g (by simp [peerStep, hp, hdn]) ?_ (next_got g hgot)
  intro n hn
  cases hn with
  | dn h => exact .dn (by simpa [peerStep, hp, hdn] using h)
  | got h =>
    obtain rfl : m = n := PeerPc.got.inj (hgot.symm.trans h)
    exact .dn hdn
  | taken h => rw [hgot] at h; contradiction

theorem next_answered {w : BitVec 32} {n : Message} (hp : s.peer ch = .answered n w)
    (hdn : s.store.get (.dn ch) = some m) :
    ∃ bs v, (machine g).Runs s bs v ∧ PerformedNext s v ch := by
  have hidle : (peerStep s ch 0).peer ch = .idle := by simp [peerStep, hp]
  have hdn' : (peerStep s ch 0).store.get (.dn ch) = some m := by simpa [peerStep, hp] using hdn
  refine next_of_peerStep g (by simp [peerStep, hp]) ?_ (next_idle g hidle hdn')
  intro k hk
  cases hk with
  | dn h =>
    obtain rfl : m = k := Option.some.inj (hdn'.symm.trans h)
    exact .dn hdn
  | got h => rw [hidle] at h; contradiction
  | taken h => rw [hidle] at h; contradiction

theorem performs_next (h : Unperformed s ch m) :
    ∃ bs v, (machine g).Runs s bs v ∧ PerformedNext s v ch := by
  cases h with
  | got hp => exact next_got g hp
  | taken hp => exact next_taken g hp
  | dn hdn =>
    cases hp : s.peer ch with
    | idle => exact next_idle g hp hdn
    | got n => exact next_got g hp
    | taken n => exact next_taken g hp
    | answered n w => exact next_answered g hp hdn

end Next

/-- After a put that finds older requests on the other channel, the new one can overtake. -/
theorem overtaken_of_put {g : Gsgp2cosim} {s u : State} {c : Call} (ho : Ordered s)
    (he : Exclusive s) (hpc : s.pc = .putDn c) (hstep : bridgeStep g s = some u)
    (hC : ∃ m, Unperformed s c.channel.other m) :
    ∃ bs v, (machine g).Runs u bs v ∧ ¬ InOrder g v := by
  obtain ⟨old, hold⟩ := hC
  have hfresh := (ho.fresh c (by rw [hpc]; rfl)).1
  have hu : u = { s with pc := .poll c g.shm_timeout
                         store := s.store.put (.dn c.channel) ⟨c.tp, c.ticket⟩ } := by
    simpa only [bridgeStep, hpc, Option.some.injEq, eq_comm] using hstep
  have hmove : Move g s .bridge u := bridgeStep_move hstep
  have hnew : Unperformed u c.channel ⟨c.tp, c.ticket⟩ := by
    rw [hu]
    exact .dn (Store.get_put _ _ _)
  have hold' : Unperformed u c.channel.other old := by
    rw [hu]
    cases hold with
    | dn h => exact .dn ((Store.get_put_of_ne _ _ (by simp)).trans h)
    | got h => exact .got h
    | taken h => exact .taken h
  obtain ⟨bs, v, hrun, hv⟩ := performs_next g hnew
  obtain ⟨m, x, hm, hperf⟩ := hv.performed
  obtain ⟨cs, w, hrun', hw⟩ := performs_next g
    ((hv.other _ _ (other_ne c.channel)).mpr hold')
  obtain ⟨n, y, hn, hperf'⟩ := hw.performed
  -- the first to be performed is the new request, the second one is older
  have hmt : m.ticket = c.ticket := by
    rcases unperformed_step hmove hm with hm | ⟨d, hpc', _, rfl, _⟩
    · exact absurd hold (he.one c.channel c.channel.other m old (other_ne c.channel).symm hm)
    · rw [BridgePc.putDn.inj (hpc.symm.trans hpc')]
  have hnt : n.ticket < c.ticket := by
    have hnu := (hv.other _ n (other_ne c.channel)).mp hn
    rcases unperformed_step hmove hnu with hns | ⟨d, hpc', hd, _⟩
    · exact hfresh _ n hns
    · rw [← BridgePc.putDn.inj (hpc.symm.trans hpc')] at hd
      exact absurd hd.symm (other_ne c.channel)
  refine ⟨_, w, hrun.trans hrun', fun hin => ?_⟩
  have hsorted := hin.sorted
  rw [hperf', hperf, List.append_assoc] at hsorted
  have hlt := (List.pairwise_append.mp (List.pairwise_append.mp hsorted).2.1).2.2 _
    List.mem_cons_self _ List.mem_cons_self
  simp only [hmt] at hlt
  omega

/-- A run in which every put finds the other channel done performs the calls in their
    order, and from the first put that does not a run leads to an overtaken call. -/
theorem performed_inOrder_exactly (g : Gsgp2cosim) :
    (∀ as s, (machine g).RunsWith OtherDone .init as s → InOrder g s) ∧
    (∀ as s a u, (machine g).RunsWith OtherDone .init as s → step g s a = some u →
      ¬ OtherDone s a → ∃ bs v, (machine g).Runs u bs v ∧ ¬ InOrder g v) := by
  refine ⟨fun as s => runs_inOrder, ?_⟩
  intro as s a u hrun hstep hC
  simp only [OtherDone, not_forall] at hC
  obtain ⟨rfl, c, hc, hfree⟩ := hC
  have hpc : s.pc = .putDn c := by
    cases hq : s.pc <;> simp_all [BridgePc.put]
  exact overtaken_of_put (runs_tracked hrun).2 (runs_exclusive hrun) hpc hstep
    ((unperformed_iff s _).mpr hfree)

/-- A write ends by timeout, and the peer performs it before the read is put. -/
def lateWrite : List Action :=
  [.call ⟨.wr, 0x10200010, 7⟩ 0, .bridge, .bridge, .bridge, .peer .wr 0, .bridge, .bridge, .bridge,
    .peer .wr 0, .peer .wr 0] ++ servedRound ⟨.rd, 0x10200010, 0⟩ 42

theorem performed_inOrder_exactly_timeout : ∃ s,
    (machine impatient).RunsWith OtherDone .init lateWrite s ∧
    s.returned = [⟨0, false, 7⟩, ⟨1, true, 42⟩] ∧
    s.performed = [⟨.write 0x10 7, 0, 0⟩, ⟨.read 0x10, 1, 42⟩] ∧ InOrder impatient s := by
  obtain ⟨s, hrun, hret, hperf⟩ := Machine.runsWith_of_eval (machine impatient) OtherDone lateWrite
    (fun s => s.returned = [⟨0, false, 7⟩, ⟨1, true, 42⟩] ∧
      s.performed = [⟨.write 0x10 7, 0, 0⟩, ⟨.read 0x10, 1, 42⟩]) (by decide)
  exact ⟨s, hrun, hret, hperf, (performed_inOrder_exactly impatient).1 _ s hrun⟩

/-- A write ends by timeout before the peer has looked at it; the peer performs the read
    that follows, and then the write. -/
def overtakenWrite : List Action :=
  [.call ⟨.wr, 0x10200000, 7⟩ 0, .bridge, .bridge, .bridge, .bridge, .bridge, .bridge,
    .call ⟨.rd, 0x10200000, 0⟩ 0, .bridge, .bridge, .bridge, .peer .rd 0, .peer .rd 0,
    .peer .rd 5, .peer .wr 0, .peer .wr 0, .peer .wr 0]

theorem overtaken_write :
    ¬ ∀ as s, (machine impatient).Runs .init as s → InOrder impatient s := by
  intro hall
  obtain ⟨s, hrun, hperf⟩ := Machine.runsWith_of_eval (machine impatient) (fun _ _ => True)
    overtakenWrite (fun s => s.performed = [⟨.read 0, 1, 5⟩, ⟨.write 0 7, 0, 0⟩]) (by decide)
  have hsorted := (hall _ s hrun).sorted
  rw [hperf] at hsorted
  exact absurd hsorted (by decide)

end NvdlaVp.CosimBridge
