import NvdlaVp.CosimBridge

set_option autoImplicit false

namespace NvdlaVp.CosimBridge
open MachineRuns KeyValueStore

@[simp] theorem setPeer_peer (s : State) (ch : Channel) (p : PeerPc) :
    (s.setPeer ch p).peer ch = p := by simp [State.setPeer]

theorem setPeer_peer_of_ne (s : State) {ch d : Channel} (p : PeerPc) (h : d ≠ ch) :
    (s.setPeer ch p).peer d = s.peer d := by simp [State.setPeer, h]

@[simp] theorem setPeer_store (s : State) (ch : Channel) (p : PeerPc) :
    (s.setPeer ch p).store = s.store := rfl
@[simp] theorem setPeer_pc (s : State) (ch : Channel) (p : PeerPc) :
    (s.setPeer ch p).pc = s.pc := rfl
@[simp] theorem setPeer_reports (s : State) (ch : Channel) (p : PeerPc) :
    (s.setPeer ch p).reports = s.reports := rfl
@[simp] theorem setPeer_calls (s : State) (ch : Channel) (p : PeerPc) :
    (s.setPeer ch p).calls = s.calls := rfl
@[simp] theorem setPeer_performed (s : State) (ch : Channel) (p : PeerPc) :
    (s.setPeer ch p).performed = s.performed := rfl
@[simp] theorem setPeer_returned (s : State) (ch : Channel) (p : PeerPc) :
    (s.setPeer ch p).returned = s.returned := rfl

theorem peerStep_frame (s : State) (ch : Channel) (w : BitVec 32) :
    (peerStep s ch w).pc = s.pc ∧ (peerStep s ch w).calls = s.calls ∧
      (peerStep s ch w).returned = s.returned ∧ (peerStep s ch w).reports = s.reports := by
  unfold peerStep
  split
  · split <;> exact ⟨rfl, rfl, rfl, rfl⟩
  all_goals exact ⟨rfl, rfl, rfl, rfl⟩

theorem peerStep_other (s : State) {ch d : Channel} (w : BitVec 32) (hd : d ≠ ch) :
    (peerStep s ch w).peer d = s.peer d ∧
      (peerStep s ch w).store.get (.dn d) = s.store.get (.dn d) ∧
      (peerStep s ch w).store.get (.up d) = s.store.get (.up d) := by
  have hp := fun p => setPeer_peer_of_ne s p hd
  unfold peerStep
  split
  · split
    · exact ⟨rfl, rfl, rfl⟩
    · exact ⟨hp _, rfl, rfl⟩
  · exact ⟨hp _, Store.get_del_of_ne _ (by simpa using hd), Store.get_del_of_ne _ (by simp)⟩
  · exact ⟨hp _, rfl, rfl⟩
  · exact ⟨hp _, Store.get_put_of_ne _ _ (by simp), Store.get_put_of_ne _ _ (by simpa using hd)⟩

@[simp] theorem other_ne (ch : Channel) : ch.other ≠ ch := by cases ch <;> decide

theorem eq_or_other (ch d : Channel) : d = ch ∨ d = ch.other := by
  cases ch <;> cases d <;> decide

inductive Unperformed (s : State) (ch : Channel) (m : Message) : Prop where
  | dn (h : s.store.get (.dn ch) = some m)
  | got (h : s.peer ch = .got m)
  | taken (h : s.peer ch = .taken m)

inductive Responded (s : State) (ch : Channel) (t : ℕ) (w : BitVec 32) : Prop where
  | answered (m : Message) (h : s.peer ch = .answered m w) (ht : m.ticket = t)
  | up (m : Message) (h : s.store.get (.up ch) = some m) (ht : m.ticket = t)
      (hw : m.payload.data = w)

theorem dn_step {g : Gsgp2cosim} {s u : State} {a : Action} {ch : Channel} {m : Message}
    (h : Move g s a u) (hm : u.store.get (.dn ch) = some m) : s.store.get (.dn ch) = some m ∨
      ∃ c, s.pc = .putDn c ∧ c.channel = ch ∧ m = ⟨c.tp, c.ticket⟩ ∧
        u.pc = .poll c g.shm_timeout := by
  cases h with
  | delStaleUp | delStaleDn | delUp | peerDel => exact .inl (Store.get_del_eq_some hm).2
  | putDn c hpc =>
    rcases Store.get_put_eq_some hm with ⟨hk, hm⟩ | ⟨_, hs⟩
    · exact .inr ⟨c, hpc, (Key.dn.inj hk).symm, hm, rfl⟩
    · exact .inl hs
  | answer d v w n hp =>
    left
    rwa [Store.get_put_of_ne s.store _ (by simp)] at hm
  | _ => exact .inl hm

theorem got_step {g : Gsgp2cosim} {s u : State} {a : Action} {ch : Channel} {m : Message}
    (h : Move g s a u) (hm : u.peer ch = .got m) :
    s.peer ch = .got m ∨ s.store.get (.dn ch) = some m := by
  cases h with
  | peerGet d w n hp hdn =>
    by_cases hd : ch = d
    · subst d
      obtain rfl : n = m := by simpa using hm
      exact .inr hdn
    · exact .inl (by rwa [setPeer_peer_of_ne s _ hd] at hm)
  | peerDel d w n hp | perform d w n hp | answer d v w n hp =>
    by_cases hd : ch = d
    · subst d
      simp at hm
    · exact .inl (by simpa only [setPeer_peer_of_ne s _ hd] using hm)
  | _ => exact .inl hm

theorem taken_step {g : Gsgp2cosim} {s u : State} {a : Action} {ch : Channel} {m : Message}
    (h : Move g s a u) (hm : u.peer ch = .taken m) :
    s.peer ch = .taken m ∨ (s.peer ch = .got m ∧ u.store.get (.dn ch) = none) := by
  cases h with
  | peerDel d w n hp =>
    by_cases hd : ch = d
    · subst d
      obtain rfl : n = m := by simpa using hm
      exact .inr ⟨hp, Store.get_del s.store _⟩
    · exact .inl (by simpa only [setPeer_peer_of_ne s _ hd] using hm)
  | peerGet d w n hp hdn | perform d w n hp | answer d v w n hp =>
    by_cases hd : ch = d
    · subst d
      simp at hm
    · exact .inl (by simpa only [setPeer_peer_of_ne s _ hd] using hm)
  | _ => exact .inl hm

theorem unperformed_step {g : Gsgp2cosim} {s u : State} {a : Action} {ch : Channel}
    {m : Message} (h : Move g s a u) (hm : Unperformed u ch m) : Unperformed s ch m ∨
      ∃ c, s.pc = .putDn c ∧ c.channel = ch ∧ m = ⟨c.tp, c.ticket⟩ ∧
        u.pc = .poll c g.shm_timeout := by
  cases hm with
  | dn hm => exact (dn_step h hm).imp_left .dn
  | got hm => exact .inl ((got_step h hm).elim .got .dn)
  | taken hm => exact .inl ((taken_step h hm).elim .taken fun hg => .got hg.1)

theorem Responded.back {s u : State} {ch : Channel} {t : ℕ} {w : BitVec 32}
    (hr : Responded u ch t w)
    (hup : ∀ m, u.store.get (.up ch) = some m → s.store.get (.up ch) = some m)
    (hp : u.peer ch = s.peer ch) : Responded s ch t w := by
  cases hr with
  | answered m h ht => exact .answered m (hp ▸ h) ht
  | up m h ht hw => exact .up m (hup m h) ht hw

theorem responded_step {g : Gsgp2cosim} {s u : State} {a : Action} {ch : Channel} {t : ℕ}
    {w : BitVec 32} (h : Move g s a u) (hr : Responded u ch t w) : Responded s ch t w ∨
      ∃ m, s.peer ch = .taken m ∧ m.ticket = t ∧
        u.performed = s.performed ++ [⟨m.payload.access ch, t, w⟩] := by
  cases h with
  | delStaleUp c | delStaleDn c | delUp c =>
    exact .inl (hr.back (fun m h => (Store.get_del_eq_some h).2) rfl)
  | putDn c hpc =>
    refine .inl (hr.back (fun m h => ?_) rfl)
    rwa [Store.get_put_of_ne s.store _ (by simp)] at h
  | peerGet d v n hp hdn =>
    by_cases hd : ch = d
    · subst d
      cases hr with
      | answered m h ht => simp at h
      | up m h ht hw => exact .inl (.up m h ht hw)
    · exact .inl (hr.back (fun m h => h) (setPeer_peer_of_ne s _ hd))
  | peerDel d v n hp =>
    by_cases hd : ch = d
    · subst d
      cases hr with
      | answered m h ht => simp at h
      | up m h ht hw => exact .inl (.up m (Store.get_del_eq_some h).2 ht hw)
    · exact .inl (hr.back (fun m h => (Store.get_del_eq_some h).2) (setPeer_peer_of_ne s _ hd))
  | perform d v n hp =>
    by_cases hd : ch = d
    · subst d
      cases hr with
      | answered m h ht =>
        simp only [setPeer_peer, PeerPc.answered.injEq] at h
        obtain ⟨rfl, rfl⟩ := h
        exact .inr ⟨n, hp, ht, by rw [ht]⟩
      | up m h ht hw => exact .inl (.up m h ht hw)
    · exact .inl (hr.back (fun m h => h) (setPeer_peer_of_ne s _ hd))
  | answer d v x n hp =>
    by_cases hd : ch = d
    · subst d
      cases hr with
      | answered m h ht => simp at h
      | up m h ht hw =>
        obtain rfl : _ = m := by simpa using h
        exact .inl (.answered n (hw ▸ hp) ht)
    · have hup : ∀ k, (s.store.put (.up d) k).get (.up ch) = s.store.get (.up ch) :=
        fun k => Store.get_put_of_ne s.store k (by simpa using hd)
      exact .inl (hr.back (fun m h => (hup _).symm.trans h) (setPeer_peer_of_ne s _ hd))
  | _ => exact .inl (hr.back (fun m h => h) rfl)

theorem performed_step {g : Gsgp2cosim} {s u : State} {a : Action} (h : Move g s a u) :
    u.performed = s.performed ∨ ∃ ch m w, s.peer ch = .taken m ∧
      u = { s.setPeer ch (.answered m w) with
        performed := s.performed ++ [⟨m.payload.access ch, m.ticket, w⟩] } := by
  cases h with
  | perform ch w m hp => exact .inr ⟨ch, m, w, hp, rfl⟩
  | _ => exact .inl rfl

theorem calls_step {g : Gsgp2cosim} {s u : State} {a : Action} (h : Move g s a u) :
    s.calls <+: u.calls := by
  cases h with
  | call r stack hpc => exact List.prefix_append s.calls [r]
  | _ => exact List.prefix_rfl

def PeerAccess.channel : PeerAccess → Channel
  | .write _ _ => .wr
  | .read _ => .rd

@[simp] theorem access_channel (tp : TransPayload) (ch : Channel) :
    (tp.access ch).channel = ch := by
  cases ch <;> rfl

theorem fill_access (g : Gsgp2cosim) (r : Request) (stack : BitVec 32) :
    (g.fill r stack).access r.channel = g.access r := by
  obtain ⟨cmd, addr, data⟩ := r
  cases cmd <;> rfl

def BridgePc.call : BridgePc → Option Call
  | .idle => none
  | .getDn c | .getUp c _ | .delStaleUp c _ | .delStaleDn c | .putDn c => some c
  | .poll c _ | .waiting c _ | .delUp c _ _ => some c

def BridgePc.unput : BridgePc → Option Call
  | .getDn c | .getUp c _ | .delStaleUp c _ | .delStaleDn c | .putDn c => some c
  | _ => none

@[simp] theorem afterUp_call (c : Call) (b : Bool) : (afterUp c b).call = some c := by
  cases b <;> rfl

@[simp] theorem afterUp_unput (c : Call) (b : Bool) : (afterUp c b).unput = some c := by
  cases b <;> rfl

theorem call_step {g : Gsgp2cosim} {s u : State} {a : Action} {c : Call} (h : Move g s a u)
    (hc : u.pc.call = some c) : (s.pc.call = some c ∧ u.calls = s.calls) ∨
      ∃ r stack, c = ⟨r, g.fill r stack, s.calls.length⟩ ∧ u.calls = s.calls ++ [r] := by
  cases h with
  | call r stack hpc => exact .inr ⟨r, stack, (Option.some.inj hc).symm, rfl⟩
  | getUpEmpty d b hpc | delStaleUp d b hpc =>
    rw [afterUp_call] at hc
    exact .inl ⟨by rw [hpc]; exact hc, rfl⟩
  | delUp d acked w hpc => exact nomatch hc
  | getDn d hpc | getUpFull d b m hpc | delStaleDn d hpc | putDn d hpc | pollFull d k m hpc
  | pollEmpty d k hpc | runOut d hpc | countDown d k hpc =>
    exact .inl ⟨by rw [hpc]; exact hc, rfl⟩
  | peerEmpty | peerGet | peerDel | perform | answer => exact .inl ⟨hc, rfl⟩

theorem unput_step {g : Gsgp2cosim} {s u : State} {a : Action} {c : Call} (h : Move g s a u)
    (hc : u.pc.unput = some c) : s.pc.unput = some c ∨
      (c.ticket = s.calls.length ∧ u.store = s.store ∧ u.peer = s.peer ∧
        u.performed = s.performed) := by
  cases h with
  | call r stack hpc => exact .inr ⟨by rw [← Option.some.inj hc], rfl, rfl, rfl⟩
  | getUpEmpty d b hpc | delStaleUp d b hpc =>
    rw [afterUp_unput] at hc
    exact .inl (by rw [hpc]; exact hc)
  | putDn d hpc | pollFull d k m hpc | pollEmpty d k hpc | runOut d hpc | countDown d k hpc
  | delUp d acked w hpc => exact nomatch hc
  | getDn d hpc | getUpFull d b m hpc | delStaleDn d hpc =>
    exact .inl (by rw [hpc]; exact hc)
  | peerEmpty | peerGet | peerDel | perform | answer => exact .inl hc

def Issued (g : Gsgp2cosim) (s : State) (ch : Channel) (t : ℕ) (access : PeerAccess) : Prop :=
  ∃ r, s.calls[t]? = some r ∧ r.channel = ch ∧ access = g.access r

theorem Issued.mono {g : Gsgp2cosim} {s u : State} {ch : Channel} {t : ℕ}
    {access : PeerAccess} (h : Issued g s ch t access) (hc : s.calls <+: u.calls) :
    Issued g u ch t access := by
  obtain ⟨r, hr, hch, ha⟩ := h
  exact ⟨r, getElem?_of_prefix hc hr, hch, ha⟩

theorem Issued.lt {g : Gsgp2cosim} {s : State} {ch : Channel} {t : ℕ} {access : PeerAccess}
    (h : Issued g s ch t access) : t < s.calls.length := by
  obtain ⟨r, hr, _⟩ := h
  exact (List.getElem?_eq_some_iff.mp hr).1

theorem Issued.unique {g : Gsgp2cosim} {s : State} {c d : Channel} {t : ℕ}
    {x y : PeerAccess} (h : Issued g s c t x) (h' : Issued g s d t y) : c = d := by
  obtain ⟨r, hr, hc, _⟩ := h
  obtain ⟨r', hr', hd, _⟩ := h'
  obtain rfl : r = r' := Option.some.inj (hr.symm.trans hr')
  exact hc.symm.trans hd

/-- Every message belongs to a call, and every response to a performed access. -/
structure Tracked (g : Gsgp2cosim) (s : State) : Prop where
  current : ∀ c, s.pc.call = some c →
    Issued g s c.channel c.ticket (c.tp.access c.channel) ∧ s.calls[c.ticket]? = some c.req ∧
      c.ticket + 1 = s.calls.length
  unperformed : ∀ ch m, Unperformed s ch m → Issued g s ch m.ticket (m.payload.access ch)
  performed : ∀ p ∈ s.performed, Issued g s p.access.channel p.ticket p.access
  responded : ∀ ch t w, Responded s ch t w →
    ∃ p ∈ s.performed, p.ticket = t ∧ p.response = w ∧ p.access.channel = ch

theorem tracked_init (g : Gsgp2cosim) : Tracked g .init where
  current c hc := nomatch hc
  unperformed ch m h := by cases h <;> contradiction
  performed p hp := nomatch hp
  responded ch t w h := by cases h <;> contradiction

theorem tracked_step {g : Gsgp2cosim} {s u : State} {a : Action} (hs : Tracked g s)
    (h : Move g s a u) : Tracked g u := by
  have hcalls := calls_step h
  have hsub : ∀ p ∈ s.performed, p ∈ u.performed := by
    intro p hp
    rcases performed_step h with he | ⟨_, _, _, _, rfl⟩
    · exact he ▸ hp
    · exact List.mem_append_left _ hp
  refine ⟨?_, ?_, ?_, ?_⟩
  · intro c hc
    rcases call_step h hc with ⟨hsc, he⟩ | ⟨r, stack, rfl, he⟩
    · obtain ⟨hi, hr, hl⟩ := hs.current c hsc
      exact ⟨hi.mono hcalls, he ▸ hr, he ▸ hl⟩
    · have hr : u.calls[s.calls.length]? = some r := by rw [he]; simp
      exact ⟨⟨r, hr, rfl, fill_access g r stack⟩, hr, by rw [he]; simp⟩
  · intro ch m hm
    rcases unperformed_step h hm with hm | ⟨c, hpc, rfl, rfl, _⟩
    · exact (hs.unperformed ch m hm).mono hcalls
    · exact (hs.current c (by rw [hpc]; rfl)).1.mono hcalls
  · intro p hp
    rcases performed_step h with he | ⟨ch, m, w, htaken, rfl⟩
    · exact (hs.performed p (he ▸ hp)).mono hcalls
    · rcases List.mem_append.mp hp with hp | hp
      · exact (hs.performed p hp).mono hcalls
      · have hi := (hs.unperformed ch m (.taken htaken)).mono hcalls
        rw [List.mem_singleton.mp hp]
        simpa only [access_channel] using hi
  · intro ch t w hr
    rcases responded_step h hr with hr | ⟨m, _, _, he⟩
    · obtain ⟨p, hp, hrest⟩ := hs.responded ch t w hr
      exact ⟨p, hsub p hp, hrest⟩
    · exact ⟨_, he ▸ List.mem_append_right _ List.mem_cons_self, rfl, rfl, access_channel _ _⟩

/-- Tickets grow along each channel, so no request is performed twice. -/
structure Ordered (s : State) : Prop where
  fresh : ∀ c, s.pc.unput = some c →
    (∀ ch m, Unperformed s ch m → m.ticket < c.ticket) ∧ ∀ p ∈ s.performed, p.ticket < c.ticket
  replaced : ∀ ch m n, s.peer ch = .taken m → s.store.get (.dn ch) = some n →
    m.ticket < n.ticket
  pending : ∀ ch m, Unperformed s ch m → ∀ p ∈ s.performed, p.access.channel = ch →
    p.ticket < m.ticket
  sorted : s.performed.Pairwise fun p q => p.access.channel = q.access.channel →
    p.ticket < q.ticket

theorem ordered_init : Ordered .init where
  fresh c hc := nomatch hc
  replaced ch m n hm := nomatch hm
  pending ch m h := by cases h <;> contradiction
  sorted := .nil

theorem ordered_step {g : Gsgp2cosim} {s u : State} {a : Action} (ht : Tracked g s)
    (hs : Ordered s) (h : Move g s a u) : Ordered u := by
  refine ⟨?_, ?_, ?_, ?_⟩
  · intro c hc
    rcases unput_step h hc with hsc | ⟨hl, hstore, hpeer, hperf⟩
    · obtain ⟨hun, hpe⟩ := hs.fresh c hsc
      constructor
      · intro ch m hm
        rcases unperformed_step h hm with hm | ⟨d, _, _, _, hpoll⟩
        · exact hun ch m hm
        · rw [hpoll] at hc
          exact nomatch hc
      · intro p hp
        rcases performed_step h with he | ⟨ch, m, w, htaken, rfl⟩
        · exact hpe p (he ▸ hp)
        · rcases List.mem_append.mp hp with hp | hp
          · exact hpe p hp
          · rw [List.mem_singleton.mp hp]
            exact hun ch m (.taken htaken)
    · rw [hl, hperf]
      refine ⟨fun ch m hm => ?_, fun p hp => (ht.performed p hp).lt⟩
      have hm' : Unperformed s ch m := by
        cases hm with
        | dn h => exact .dn (hstore ▸ h)
        | got h => exact .got (hpeer ▸ h)
        | taken h => exact .taken (hpeer ▸ h)
      exact (ht.unperformed ch m hm').lt
  · intro ch m n hm hn
    rcases taken_step h hm with htaken | ⟨_, hnone⟩
    · rcases dn_step h hn with hdn | ⟨c, hpc, _, rfl, _⟩
      · exact hs.replaced ch m n htaken hdn
      · exact (hs.fresh c (by rw [hpc]; rfl)).1 ch m (.taken htaken)
    · rw [hnone] at hn
      contradiction
  · intro ch m hm p hp hch
    rcases performed_step h with he | ⟨d, n, w, htaken, rfl⟩
    · rw [he] at hp
      rcases unperformed_step h hm with hm | ⟨c, hpc, _, rfl, _⟩
      · exact hs.pending ch m hm p hp hch
      · exact (hs.fresh c (by rw [hpc]; rfl)).2 p hp
    · rcases List.mem_append.mp hp with hp | hp
      · rcases unperformed_step h hm with hm | ⟨c, hpc, _, rfl, _⟩
        · exact hs.pending ch m hm p hp hch
        · exact (hs.fresh c (by rw [hpc]; rfl)).2 p hp
      · obtain rfl := List.mem_singleton.mp hp
        obtain rfl : d = ch := by simpa using hch
        cases hm with
        | dn hdn => exact hs.replaced d n m htaken hdn
        | got hg => simp at hg
        | taken ht => simp at ht
  · rcases performed_step h with he | ⟨d, n, w, htaken, rfl⟩
    · rw [he]
      exact hs.sorted
    · refine List.pairwise_append.mpr ⟨hs.sorted, List.pairwise_singleton _ _, ?_⟩
      intro p hp q hq hch
      obtain rfl := List.mem_singleton.mp hq
      exact hs.pending d n (.taken htaken) p hp (by simpa using hch)

theorem runs_tracked {g : Gsgp2cosim} {C : State → Action → Prop} {as : List Action}
    {u : State} (h : (machine g).RunsWith C .init as u) : Tracked g u ∧ Ordered u :=
  h.invariant (fun s => Tracked g s ∧ Ordered s) ⟨tracked_init g, ordered_init⟩
    fun _ _ _ hs _ hstep =>
      have hmove := step_move hstep
      ⟨tracked_step hs.1 hmove, ordered_step hs.1 hs.2 hmove⟩

end NvdlaVp.CosimBridge
