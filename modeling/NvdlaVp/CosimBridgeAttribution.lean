import NvdlaVp.CosimBridgeTickets

set_option autoImplicit false

namespace NvdlaVp.CosimBridge
open MachineRuns KeyValueStore

def State.outcomes (s : State) : List Returned :=
  match s.pc with
  | .delUp c acked mData => s.returned ++ [⟨c.ticket, acked, mData⟩]
  | _ => s.returned

/-- The peer has performed the request of `o`, and a read got the word it produced. -/
def AnsweredBy (g : Gsgp2cosim) (s : State) (o : Returned) : Prop :=
  ∃ r, s.calls[o.ticket]? = some r ∧ ∃ p ∈ s.performed, p.ticket = o.ticket ∧
    p.access = g.access r ∧ (r.mCmd = .rd → o.mData = p.response)

def Attributed (g : Gsgp2cosim) (s : State) : Prop :=
  ∀ o ∈ s.outcomes, o.acked = true → AnsweredBy g s o

def BridgePc.put : BridgePc → Option Call
  | .putDn c => some c
  | _ => none

/-- A request is put only when its channel's server is idle and its up key is empty. -/
def CleanPut (s : State) (a : Action) : Prop :=
  a = .bridge → ∀ c ∈ s.pc.put, s.peer c.channel = .idle ∧ s.store.get (.up c.channel) = none

instance (s : State) (a : Action) : Decidable (CleanPut s a) :=
  inferInstanceAs (Decidable (_ → ∀ c ∈ s.pc.put, _ ∧ _))

def BridgePc.polls : BridgePc → Option Call
  | .poll c _ | .waiting c _ => some c
  | _ => none

theorem call_of_polls {pc : BridgePc} {c : Call} (h : pc.polls = some c) : pc.call = some c := by
  cases pc <;> simp_all [BridgePc.polls, BridgePc.call]

theorem polls_step {g : Gsgp2cosim} {s u : State} {a : Action} {c : Call} (h : Move g s a u)
    (hc : u.pc.polls = some c) : s.pc.polls = some c ∨
      (s.pc = .putDn c ∧ a = .bridge ∧ u.peer = s.peer ∧
        u.store = s.store.put (.dn c.channel) ⟨c.tp, c.ticket⟩) := by
  cases h with
  | putDn d hpc =>
    obtain rfl : d = c := Option.some.inj hc
    exact .inr ⟨hpc, rfl, rfl, rfl⟩
  | pollEmpty d k hpc | countDown d k hpc => exact .inl (by rw [hpc]; exact hc)
  | getUpEmpty d b hpc | delStaleUp d b hpc => cases b <;> exact nomatch hc
  | call | getDn | getUpFull | delStaleDn | pollFull | runOut | delUp => exact nomatch hc
  | peerEmpty | peerGet | peerDel | perform | answer => exact .inl hc

structure Alone (s : State) : Prop where
  unperformed : ∀ c, s.pc.polls = some c → ∀ m, Unperformed s c.channel m → m.ticket = c.ticket
  responded : ∀ c, s.pc.polls = some c → ∀ t w, Responded s c.channel t w → t = c.ticket

theorem alone_init : Alone .init where
  unperformed _ hc := nomatch hc
  responded _ hc := nomatch hc

theorem alone_step {g : Gsgp2cosim} {s u : State} {a : Action} (hs : Alone s)
    (hC : CleanPut s a) (h : Move g s a u) : Alone u := by
  constructor
  · intro c hc m hm
    rcases polls_step h hc with hsc | ⟨hpc, rfl, hpeer, hstore⟩
    · rcases unperformed_step h hm with hm | ⟨d, hpc, _⟩
      · exact hs.unperformed c hsc m hm
      · rw [hpc] at hsc
        exact nomatch hsc
    · obtain ⟨hidle, _⟩ := hC rfl c (by rw [hpc]; rfl)
      cases hm with
      | dn hdn =>
        rw [hstore, Store.get_put] at hdn
        exact congrArg Message.ticket (Option.some.inj hdn).symm
      | got hg => rw [hpeer, hidle] at hg; contradiction
      | taken ht => rw [hpeer, hidle] at ht; contradiction
  · intro c hc t w hr
    rcases polls_step h hc with hsc | ⟨hpc, rfl, hpeer, hstore⟩
    · rcases responded_step h hr with hr | ⟨m, htaken, rfl, _⟩
      · exact hs.responded c hsc t w hr
      · exact hs.unperformed c hsc m (.taken htaken)
    · obtain ⟨hidle, hup⟩ := hC rfl c (by rw [hpc]; rfl)
      cases hr with
      | answered m ha _ => rw [hpeer, hidle] at ha; contradiction
      | up m hm _ _ =>
        rw [hstore, Store.get_put_of_ne _ _ (by simp), hup] at hm
        contradiction

theorem outcomes_step {g : Gsgp2cosim} {s u : State} {a : Action} {o : Returned}
    (h : Move g s a u) (ho : o ∈ u.outcomes) : o ∈ s.outcomes ∨ o.acked = false ∨
      ∃ c k m, s.pc = .poll c k ∧ s.store.get (.up c.channel) = some m ∧
        o = ⟨c.ticket, true, c.req.onResponse m.payload⟩ := by
  cases h with
  | pollFull c k m hpc hup =>
    rcases List.mem_append.mp ho with ho | ho
    · exact .inl (by rw [State.outcomes, hpc]; exact ho)
    · exact .inr (.inr ⟨c, k, m, hpc, hup, List.mem_singleton.mp ho⟩)
  | runOut c hpc =>
    rcases List.mem_append.mp ho with ho | ho
    · exact .inl (by rw [State.outcomes, hpc]; exact ho)
    · exact .inr (.inl (by rw [List.mem_singleton.mp ho]))
  | getUpEmpty c b hpc | delStaleUp c b hpc =>
    cases b <;> exact .inl (by rw [State.outcomes, hpc]; exact ho)
  | call r stack hpc | getDn c hpc | getUpFull c b m hpc | delStaleDn c hpc | putDn c hpc
  | pollEmpty c k hpc | countDown c k hpc | delUp c acked w hpc =>
    exact .inl (by rw [State.outcomes, hpc]; exact ho)
  | peerEmpty | peerGet | peerDel | perform | answer => exact .inl ho

theorem AnsweredBy.step {g : Gsgp2cosim} {s u : State} {a : Action} {o : Returned}
    (ho : AnsweredBy g s o) (h : Move g s a u) : AnsweredBy g u o := by
  obtain ⟨r, hr, p, hp, hrest⟩ := ho
  refine ⟨r, getElem?_of_prefix (calls_step h) hr, p, ?_, hrest⟩
  rcases performed_step h with he | ⟨_, _, _, _, rfl⟩
  · exact he ▸ hp
  · exact List.mem_append_left _ hp

theorem Tracked.answers {g : Gsgp2cosim} {s : State} {c : Call} {m : Message}
    (hs : Tracked g s) (hc : s.pc.call = some c) (hm : s.store.get (.up c.channel) = some m)
    (ht : m.ticket = c.ticket) :
    AnsweredBy g s ⟨c.ticket, true, c.req.onResponse m.payload⟩ := by
  obtain ⟨_, hreq, _⟩ := hs.current c hc
  obtain ⟨p, hp, hpt, hpw, _⟩ := hs.responded c.channel m.ticket m.payload.data (.up m hm rfl rfl)
  obtain ⟨r, hr, _, hacc⟩ := hs.performed p hp
  rw [hpt, ht] at hr
  obtain rfl : c.req = r := Option.some.inj (hreq.symm.trans hr)
  refine ⟨c.req, hreq, p, hp, hpt.trans ht, hacc, fun hrd => ?_⟩
  simp only [Request.onResponse, hrd, hpw]

theorem attributed_step {g : Gsgp2cosim} {s u : State} {a : Action} (hs : Attributed g s)
    (htr : Tracked g s) (hal : Alone s) (h : Move g s a u) : Attributed g u := by
  intro o ho hack
  rcases outcomes_step h ho with ho | hf | ⟨c, k, m, hpc, hup, rfl⟩
  · exact (hs o ho hack).step h
  · rw [hf] at hack
    contradiction
  · have hpolls : s.pc.polls = some c := by rw [hpc]; rfl
    have ht := hal.responded c hpolls m.ticket m.payload.data (.up m hup rfl rfl)
    exact (htr.answers (call_of_polls hpolls) hup ht).step h

theorem runs_attributed {g : Gsgp2cosim} {as : List Action} {s : State}
    (h : (machine g).RunsWith CleanPut .init as s) : Attributed g s := by
  have hinv := h.invariant (fun s => (Tracked g s ∧ Alone s) ∧ Attributed g s)
    ⟨⟨tracked_init g, alone_init⟩, fun o ho => nomatch ho⟩ ?_
  · exact hinv.2
  · rintro s a u ⟨⟨htr, hal⟩, hat⟩ hC hstep
    have hmove := step_move hstep
    exact ⟨⟨tracked_step htr hmove, alone_step hal hC hmove⟩, attributed_step hat htr hal hmove⟩

structure Finished (s v : State) (ch : Channel) (n : ℕ) : Prop where
  pc : v.pc = s.pc
  up : ∃ m, v.store.get (.up ch) = some m
  performed : ∀ p ∈ v.performed, p.ticket < n

section Finish

variable (g : Gsgp2cosim) {s : State} {ch : Channel} {m : Message} {n : ℕ}

theorem finish_next (w : BitVec 32)
    (h : ∃ bs v, (machine g).Runs (peerStep s ch w) bs v ∧ Finished (peerStep s ch w) v ch n) :
    ∃ bs v, (machine g).Runs s bs v ∧ Finished s v ch n := by
  obtain ⟨bs, v, hrun, hfin⟩ := h
  have hstep : (machine g).step s (.peer ch w) = some (peerStep s ch w) := rfl
  exact ⟨_, v, .next trivial hstep hrun, hfin.pc.trans (peerStep_frame s ch w).1, hfin.up,
    hfin.performed⟩

theorem finish_answered {w : BitVec 32} (hp : s.peer ch = .answered m w)
    (hn : ∀ p ∈ s.performed, p.ticket < n) :
    ∃ bs v, (machine g).Runs s bs v ∧ Finished s v ch n := by
  refine finish_next g 0 ⟨[], _, .refl _, rfl, ?_, ?_⟩
  · exact ⟨⟨⟨w, m.payload.addr⟩, m.ticket⟩, by simp [peerStep, hp]⟩
  · simpa [peerStep, hp] using hn

theorem finish_taken (hp : s.peer ch = .taken m) (hn : ∀ p ∈ s.performed, p.ticket < n)
    (hm : m.ticket < n) : ∃ bs v, (machine g).Runs s bs v ∧ Finished s v ch n := by
  have hans : (peerStep s ch 0).peer ch = .answered m 0 := by simp [peerStep, hp]
  have hperf : (peerStep s ch 0).performed =
      s.performed ++ [⟨m.payload.access ch, m.ticket, 0⟩] := by simp [peerStep, hp]
  refine finish_next g 0 (finish_answered g hans ?_)
  intro p hmem
  rcases List.mem_append.mp (hperf ▸ hmem) with hmem | hmem
  · exact hn p hmem
  · rw [List.mem_singleton.mp hmem]
    exact hm

theorem finish_got (hp : s.peer ch = .got m) (hn : ∀ p ∈ s.performed, p.ticket < n)
    (hm : m.ticket < n) : ∃ bs v, (machine g).Runs s bs v ∧ Finished s v ch n := by
  have htaken : (peerStep s ch 0).peer ch = .taken m := by simp [peerStep, hp]
  have hperf : (peerStep s ch 0).performed = s.performed := by simp [peerStep, hp]
  exact finish_next g 0 (finish_taken g htaken (hperf ▸ hn) hm)

end Finish

/-- After a put that is not clean, an earlier response can reach the poll first. -/
theorem stolen_of_unclean {g : Gsgp2cosim} {s u : State} {c : Call}
    (ho : Ordered s) (hpc : s.pc = .putDn c) (hstep : bridgeStep g s = some u)
    (hC : ¬ (s.peer c.channel = .idle ∧ s.store.get (.up c.channel) = none)) :
    ∃ bs v, (machine g).Runs u bs v ∧ ¬ Attributed g v := by
  obtain ⟨hun, hperf⟩ := ho.fresh c (by rw [hpc]; rfl)
  have hu : u = { s with pc := .poll c g.shm_timeout
                         store := s.store.put (.dn c.channel) ⟨c.tp, c.ticket⟩ } := by
    simpa only [bridgeStep, hpc, Option.some.injEq, eq_comm] using hstep
  have hupEq : u.store.get (.up c.channel) = s.store.get (.up c.channel) := by
    rw [hu]
    exact Store.get_put_of_ne _ _ (by simp)
  have hpeerEq : u.peer = s.peer := by rw [hu]
  have hperf' : ∀ p ∈ u.performed, p.ticket < c.ticket := by rw [hu]; exact hperf
  have hfin : ∃ bs v, (machine g).Runs u bs v ∧ Finished u v c.channel c.ticket := by
    cases hp : s.peer c.channel with
    | idle =>
      have hup : s.store.get (.up c.channel) ≠ none := fun hnone => hC ⟨hp, hnone⟩
      exact ⟨[], u, .refl u, rfl, Option.ne_none_iff_exists'.mp (hupEq ▸ hup), hperf'⟩
    | got m => exact finish_got g (hpeerEq ▸ hp) hperf' (hun _ m (.got hp))
    | taken m => exact finish_taken g (hpeerEq ▸ hp) hperf' (hun _ m (.taken hp))
    | answered m w => exact finish_answered g (hpeerEq ▸ hp) hperf'
  obtain ⟨bs, v, hrun, hv⟩ := hfin
  obtain ⟨m, hm⟩ := hv.up
  have hvpc : v.pc = .poll c g.shm_timeout := by rw [hv.pc, hu]
  have hpoll : (machine g).step v .bridge =
      some { v with pc := .delUp c true (c.req.onResponse m.payload) } := by
    simp only [machine, step, bridgeStep, hvpc, hm]
  refine ⟨_, _, hrun.trans (.one trivial hpoll), fun hatt => ?_⟩
  obtain ⟨_, _, p, hp, hpt, _⟩ := hatt ⟨c.ticket, true, c.req.onResponse m.payload⟩
    (List.mem_append_right _ List.mem_cons_self) rfl
  exact absurd hpt (Nat.ne_of_lt (hv.performed p hp))

/-- A run in which every put is clean attributes every response to its own call, and
    from a put that is not clean a run leads to a call that takes another's response. -/
theorem attributed_exactly (g : Gsgp2cosim) :
    (∀ as s, (machine g).RunsWith CleanPut .init as s → Attributed g s) ∧
    (∀ as s a u, (machine g).Runs .init as s → step g s a = some u → ¬ CleanPut s a →
      ∃ bs v, (machine g).Runs u bs v ∧ ¬ Attributed g v) := by
  refine ⟨fun as s => runs_attributed, ?_⟩
  intro as s a u hrun hstep hC
  obtain ⟨_, ho⟩ := runs_tracked hrun
  simp only [CleanPut, not_forall] at hC
  obtain ⟨rfl, c, hc, hunclean⟩ := hC
  have hpc : s.pc = .putDn c := by
    cases hq : s.pc <;> simp_all [BridgePc.put]
  exact stolen_of_unclean ho hpc hstep hunclean

def impatient : Gsgp2cosim := { csb_adaptor with shm_timeout := 0 }

/-- The peer looks at a first read only after its timeout, when the second one has replaced it. -/
def readAgain : List Action :=
  [.call ⟨.rd, 0x10200000, 0⟩ 0, .bridge, .bridge, .bridge, .bridge, .bridge, .bridge,
    .call ⟨.rd, 0x10200010, 0⟩ 0, .bridge, .bridge, .bridge, .bridge,
    .peer .rd 0, .peer .rd 0, .peer .rd 42, .peer .rd 0, .bridge, .bridge]

theorem attributed_exactly_timeout : ∃ s,
    (machine impatient).RunsWith CleanPut .init readAgain s ∧
    s.returned = [⟨0, false, 0⟩, ⟨1, true, 42⟩] ∧ Attributed impatient s := by
  obtain ⟨s, hrun, hret⟩ := Machine.runsWith_of_eval (machine impatient) CleanPut readAgain
    (fun s => s.returned = [⟨0, false, 0⟩, ⟨1, true, 42⟩]) (by decide)
  exact ⟨s, hrun, hret, (attributed_exactly impatient).1 _ s hrun⟩

/-- The first read ends by timeout while the peer holds it; the second read is put, and
    the late response to the first one ends its wait loop. -/
def lateResponse : List Action :=
  [.call ⟨.rd, 0x10200000, 0⟩ 0, .bridge, .bridge, .bridge, .peer .rd 0, .peer .rd 0,
    .bridge, .bridge, .bridge,
    .call ⟨.rd, 0x10200004, 0⟩ 0, .bridge, .bridge, .bridge, .peer .rd 111, .peer .rd 0,
    .bridge, .bridge]

theorem late_response_taken :
    ¬ ∀ as s, (machine impatient).Runs .init as s → Attributed impatient s := by
  intro hall
  obtain ⟨s, hrun, hret, hperf⟩ := Machine.runsWith_of_eval (machine impatient)
    (fun _ _ => True) lateResponse (fun s => s.outcomes = [⟨0, false, 0⟩, ⟨1, true, 111⟩] ∧
      s.performed = [⟨.read 0, 0, 111⟩]) (by decide)
  obtain ⟨_, _, p, hp, ht, _⟩ := hall _ s hrun ⟨1, true, 111⟩ (by simp [hret]) rfl
  rw [hperf, List.mem_singleton] at hp
  rw [hp] at ht
  exact absurd ht (by decide)

end NvdlaVp.CosimBridge
