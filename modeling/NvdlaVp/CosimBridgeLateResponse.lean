import NvdlaVp.CosimBridge

set_option autoImplicit false

namespace NvdlaVp.CosimBridge
open MachineRuns KeyValueStore Gsgp

inductive OpenAction where
  | call (r : Request) (stack : BitVec 32)
  | bridge
  | respond (ch : Channel) (ticket : ℕ) (tp : TransPayload)
  | takeDn (ch : Channel)
  deriving DecidableEq, Repr

/-- The bridge, the requests put and not answered yet, and what the transaction in progress
    has read from its up key. -/
structure OpenState where
  base : State
  unanswered : List (Channel × ℕ)
  received : Option Message

def OpenState.init : OpenState := ⟨.init, [], none⟩

def OpenState.setStore (s : OpenState) (m : Store Key Message) : OpenState :=
  { s with base := { s.base with store := m } }

def OpenState.reads (s : OpenState) : Option Message :=
  match s.base.pc with
  | .putDn _ => none
  | .poll c _ => s.base.store.get (.up c.channel)
  | _ => s.received

def OpenState.requests (s : OpenState) : List (Channel × ℕ) :=
  match s.base.pc with
  | .putDn c => s.unanswered ++ [(c.channel, c.ticket)]
  | _ => s.unanswered

def openStep (g : Gsgp2cosim) (s : OpenState) : OpenAction → Option OpenState
  | .call r stack => (enter g s.base r stack).map fun base => { s with base := base }
  | .bridge => (bridgeStep g s.base).map fun base => ⟨base, s.requests, s.reads⟩
  | .respond ch ticket tp =>
    if (ch, ticket) ∈ s.unanswered then
      some { s.setStore (s.base.store.put (.up ch) ⟨tp, ticket⟩) with
        unanswered := s.unanswered.erase (ch, ticket) }
    else none
  | .takeDn ch =>
    if (s.base.store.get (.dn ch)).isSome then some (s.setStore (s.base.store.del (.dn ch)))
    else none

def openMachine (g : Gsgp2cosim) : Machine OpenState OpenAction := ⟨.init, openStep g⟩

/-- The transaction has made its last poll, which found nothing. -/
def BridgePc.givingUp : BridgePc → Option Call
  | .waiting c timeout => if timeout = 0 then some c else none
  | .delUp c false _ => some c
  | _ => none

def BridgePc.leaving : BridgePc → Option Call
  | .delUp c _ _ => some c
  | pc => pc.givingUp

/-- A transaction that has reported a timeout finds no response to its own request. -/
def GaveUpEmpty (s : OpenState) : Prop :=
  ∀ c mData, s.base.pc = .delUp c false mData → ∀ m, s.base.store.get (.up c.channel) = some m →
    m.ticket ≠ c.ticket

/-- The last `del` removes nothing but what the transaction has read. -/
def RemovesReceived (s : OpenState) : Prop :=
  ∀ c acked mData, s.base.pc = .delUp c acked mData →
    ∀ m, s.base.store.get (.up c.channel) = some m → s.received = some m

/-- The current request is not answered after its last poll. -/
def InTime (s : OpenState) : OpenAction → Prop
  | .respond ch ticket _ => ∀ c ∈ s.base.pc.givingUp, (ch, ticket) ≠ (c.channel, c.ticket)
  | .call _ _ | .bridge | .takeDn _ => True

/-- After the last poll, no response is put in the channel but the one that was read. -/
def Undisturbed (s : OpenState) : OpenAction → Prop
  | .respond ch ticket tp =>
    ∀ c ∈ s.base.pc.leaving, ch = c.channel → s.received = some ⟨tp, ticket⟩
  | .call _ _ | .bridge | .takeDn _ => True

instance (s : OpenState) : ∀ a, Decidable (InTime s a)
  | .respond ch ticket _ =>
    inferInstanceAs (Decidable (∀ c ∈ s.base.pc.givingUp, (ch, ticket) ≠ (c.channel, c.ticket)))
  | .call _ _ | .bridge | .takeDn _ => isTrue trivial

instance (s : OpenState) : ∀ a, Decidable (Undisturbed s a)
  | .respond ch ticket tp => inferInstanceAs (Decidable
      (∀ c ∈ s.base.pc.leaving, ch = c.channel → s.received = some ⟨tp, ticket⟩))
  | .call _ _ | .bridge | .takeDn _ => isTrue trivial

variable {g : Gsgp2cosim} {s u : OpenState} {a : OpenAction} {as : List OpenAction}

theorem leaving_of_givingUp {pc : BridgePc} {c : Call} (h : pc.givingUp = some c) :
    pc.leaving = some c := by
  unfold BridgePc.givingUp at h
  split at h <;> simp_all [BridgePc.leaving, BridgePc.givingUp]

theorem leaving_bridge {c : Call} (h : openStep g s .bridge = some u)
    (hc : u.base.pc.leaving = some c) :
    (u.base.store.get (.up c.channel) = u.received ∧
      (u.base.pc.givingUp.isSome → u.received = none)) ∨
    (s.base.pc.givingUp = some c ∧ u.base.store = s.base.store ∧ u.received = s.received) := by
  obtain ⟨base, hbase, rfl⟩ := Option.map_eq_some_iff.mp h
  have hmove : Move g s.base .bridge base := bridgeStep_move hbase
  cases hmove with
  | pollFull d timeout m hpc hup =>
    obtain rfl : d = c := by simpa [BridgePc.leaving] using hc
    have hreads : s.reads = some m := by simp only [OpenState.reads, hpc, hup]
    exact .inl ⟨by rw [hreads]; exact hup, by simp [BridgePc.givingUp]⟩
  | pollEmpty d timeout hpc hup =>
    have hreads : s.reads = none := by simp only [OpenState.reads, hpc, hup]
    obtain ⟨_, rfl⟩ : timeout = 0 ∧ d = c := by
      simpa [BridgePc.leaving, BridgePc.givingUp] using hc
    exact .inl ⟨by rw [hreads]; exact hup, fun _ => hreads⟩
  | runOut d hpc =>
    obtain rfl : d = c := by simpa [BridgePc.leaving] using hc
    have hreads : s.reads = s.received := by simp only [OpenState.reads, hpc]
    exact .inr ⟨by simp [hpc, BridgePc.givingUp], rfl, hreads⟩
  | getUpEmpty d b | delStaleUp d b =>
    cases b <;> simp [afterUp, BridgePc.leaving, BridgePc.givingUp] at hc
  | getDn | getUpFull | delStaleDn | putDn | countDown | delUp =>
    simp [BridgePc.leaving, BridgePc.givingUp] at hc

theorem leaving_call {r : Request} {stack : BitVec 32}
    (h : openStep g s (.call r stack) = some u) : u.base.pc.leaving = none := by
  obtain ⟨base, hbase, rfl⟩ := Option.map_eq_some_iff.mp h
  simp only [enter] at hbase
  cases hpc : s.base.pc <;> simp only [hpc, Option.some.injEq, reduceCtorEq] at hbase
  subst hbase
  rfl

def NoneUnread (s : OpenState) : Prop :=
  ∀ c ∈ s.base.pc.givingUp, ∀ m, s.base.store.get (.up c.channel) = some m → m.ticket ≠ c.ticket

theorem noneUnread_step (hs : NoneUnread s) (hC : InTime s a) (h : openStep g s a = some u) :
    NoneUnread u := by
  intro c hc m hm
  cases a with
  | call r stack =>
    have hleave := leaving_of_givingUp hc
    rw [leaving_call h] at hleave
    cases hleave
  | bridge =>
    rcases leaving_bridge h (leaving_of_givingUp hc) with ⟨hup, hnone⟩ | ⟨hgive, hstore, _⟩
    · rw [hup, hnone (by rw [hc]; rfl)] at hm
      cases hm
    · exact hs c hgive m (hstore ▸ hm)
  | respond ch ticket tp =>
    obtain ⟨_, rfl⟩ : (ch, ticket) ∈ s.unanswered ∧ _ = u := by simpa [openStep] using h
    rcases Store.get_put_eq_some hm with ⟨hk, rfl⟩ | ⟨_, hm⟩
    · intro ht
      exact hC c hc (by rw [Key.up.inj hk]; exact congrArg _ ht)
    · exact hs c hc m hm
  | takeDn ch =>
    obtain ⟨_, rfl⟩ : (s.base.store.get (.dn ch)).isSome ∧ _ = u := by simpa [openStep] using h
    exact hs c hc m (Store.get_del_eq_some hm).2

theorem NoneUnread.gaveUpEmpty (h : NoneUnread s) : GaveUpEmpty s := by
  intro c mData hpc
  exact h c (by rw [hpc]; rfl)

/-- Past the last poll the up key shows what that poll has read. -/
structure Kept (s : OpenState) : Prop where
  up : ∀ c ∈ s.base.pc.leaving, s.base.store.get (.up c.channel) = s.received
  empty : s.base.pc.givingUp.isSome → s.received = none

theorem kept_step (hs : Kept s) (hC : Undisturbed s a) (h : openStep g s a = some u) :
    Kept u := by
  cases a with
  | call r stack =>
    have hleave := leaving_call h
    constructor
    · intro c hc
      rw [hleave] at hc
      cases hc
    · intro hgive
      obtain ⟨c, hc⟩ := Option.isSome_iff_exists.mp hgive
      rw [leaving_of_givingUp hc] at hleave
      cases hleave
  | bridge =>
    constructor
    · intro c hc
      rcases leaving_bridge h hc with ⟨hup, _⟩ | ⟨hgive, hstore, hreceived⟩
      · exact hup
      · rw [hstore, hreceived]
        exact hs.up c (leaving_of_givingUp hgive)
    · intro hgive
      obtain ⟨c, hc⟩ := Option.isSome_iff_exists.mp hgive
      rcases leaving_bridge h (leaving_of_givingUp hc) with ⟨_, hnone⟩ | ⟨hgive', _, hreceived⟩
      · exact hnone hgive
      · rw [hreceived]
        exact hs.empty (by rw [hgive']; rfl)
  | respond ch ticket tp =>
    obtain ⟨_, rfl⟩ : (ch, ticket) ∈ s.unanswered ∧ _ = u := by simpa [openStep] using h
    refine ⟨fun c hc => ?_, hs.empty⟩
    change (s.base.store.put (.up ch) ⟨tp, ticket⟩).get (.up c.channel) = s.received
    by_cases hch : ch = c.channel
    · rw [← hch, Store.get_put, hC c hc hch]
    · rw [Store.get_put_of_ne _ _ fun hk => hch (Key.up.inj hk).symm]
      exact hs.up c hc
  | takeDn ch =>
    obtain ⟨_, rfl⟩ : (s.base.store.get (.dn ch)).isSome ∧ _ = u := by simpa [openStep] using h
    exact ⟨fun c hc => (Store.get_del_of_ne _ (by simp)).trans (hs.up c hc), hs.empty⟩

theorem Kept.removesReceived (h : Kept s) : RemovesReceived s := by
  intro c acked mData hpc m hm
  rw [← h.up c (by rw [hpc]; rfl), hm]

theorem Kept.gaveUpEmpty (h : Kept s) : GaveUpEmpty s := by
  intro c mData hpc m hm
  have hreceived := h.empty (by rw [hpc]; rfl)
  rw [h.up c (by rw [hpc]; rfl), hreceived] at hm
  cases hm

theorem kept_init : Kept .init where
  up c hc := by cases hc
  empty hgive := by cases hgive

theorem runs_noneUnread (h : (openMachine g).RunsWith InTime .init as s) : NoneUnread s :=
  h.invariant NoneUnread (fun _ hc => by cases hc)
    fun _ _ _ hs hC hstep => noneUnread_step hs hC hstep

theorem runs_kept (h : (openMachine g).RunsWith Undisturbed .init as s) : Kept s :=
  h.invariant Kept kept_init fun _ _ _ hs hC hstep => kept_step hs hC hstep

theorem runs_to_delUp {c : Call} (hc : s.base.pc.leaving = some c) :
    ∃ bs w acked mData, (openMachine g).Runs s bs w ∧ w.base.pc = .delUp c acked mData ∧
      (s.base.pc.givingUp = some c → acked = false) ∧ w.received = s.received ∧
      w.base.store = s.base.store := by
  cases hpc : s.base.pc with
  | delUp d acked mData =>
    obtain rfl : d = c := by simpa [hpc, BridgePc.leaving] using hc
    refine ⟨[], s, acked, mData, .refl s, hpc, ?_, rfl, rfl⟩
    cases acked <;> simp [BridgePc.givingUp]
  | waiting d timeout =>
    obtain ⟨rfl, rfl⟩ : timeout = 0 ∧ d = c := by
      simpa [hpc, BridgePc.leaving, BridgePc.givingUp] using hc
    have hstep : (openMachine g).step s .bridge = some ⟨{ s.base with
        pc := .delUp d false d.req.mData
        reports := s.base.reports ++ [d.channel.timeoutReport] }, s.requests, s.reads⟩ := by
      simp [openMachine, openStep, bridgeStep, hpc]
    exact ⟨[.bridge], _, false, _, .one trivial hstep, rfl, fun _ => rfl,
      by simp [OpenState.reads, hpc], rfl⟩
  | idle | getDn | getUp | delStaleUp | delStaleDn | putDn | poll =>
    simp [hpc, BridgePc.leaving, BridgePc.givingUp] at hc

theorem unread_of_late (h : openStep g s a = some u) (hC : ¬ InTime s a) :
    ∃ bs w, (openMachine g).Runs u bs w ∧ ¬ GaveUpEmpty w := by
  cases a with
  | respond ch ticket tp =>
    simp only [InTime, not_forall, not_not] at hC
    obtain ⟨c, hc, heq⟩ := hC
    obtain ⟨rfl, rfl⟩ := Prod.mk.inj heq
    obtain ⟨_, rfl⟩ : (c.channel, c.ticket) ∈ s.unanswered ∧ _ = u := by
      simpa [openStep] using h
    obtain ⟨bs, w, acked, mData, hrun, hpc, hacked, _, hstore⟩ :=
      runs_to_delUp (g := g) (s := {
        s.setStore (s.base.store.put (.up c.channel) ⟨tp, c.ticket⟩) with
        unanswered := s.unanswered.erase (c.channel, c.ticket) }) (leaving_of_givingUp hc)
    refine ⟨bs, w, hrun, fun hempty => ?_⟩
    rw [hacked hc] at hpc
    exact hempty c mData hpc ⟨tp, c.ticket⟩ (by rw [hstore]; exact Store.get_put _ _ _) rfl
  | call | bridge | takeDn => exact absurd trivial hC

theorem unread_of_disturbed (h : openStep g s a = some u) (hC : ¬ Undisturbed s a) :
    ∃ bs w, (openMachine g).Runs u bs w ∧ ¬ RemovesReceived w := by
  cases a with
  | respond ch ticket tp =>
    simp only [Undisturbed, not_forall] at hC
    obtain ⟨c, hc, rfl, hne⟩ := hC
    obtain ⟨_, rfl⟩ : (c.channel, ticket) ∈ s.unanswered ∧ _ = u := by
      simpa [openStep] using h
    obtain ⟨bs, w, acked, mData, hrun, hpc, _, hreceived, hstore⟩ :=
      runs_to_delUp (g := g) (s := { s.setStore (s.base.store.put (.up c.channel) ⟨tp, ticket⟩) with
        unanswered := s.unanswered.erase (c.channel, ticket) }) hc
    refine ⟨bs, w, hrun, fun hremoves => hne ?_⟩
    rw [← hremoves c acked mData hpc ⟨tp, ticket⟩ (by rw [hstore]; exact Store.get_put _ _ _)]
    exact hreceived.symm
  | call | bridge | takeDn => exact absurd trivial hC

/-- While no request is answered between its last poll and the end of its transaction, a
    timeout throws no response to its own request away; while no other response is put there
    either, the last `del` removes only what was read. A step that breaks either condition
    can be followed by the loss. -/
theorem response_kept_exactly (g : Gsgp2cosim) :
    ((∀ as s, (openMachine g).RunsWith InTime .init as s → GaveUpEmpty s) ∧
      ∀ as s a u, (openMachine g).Runs .init as s → openStep g s a = some u → ¬ InTime s a →
        ∃ bs w, (openMachine g).Runs u bs w ∧ ¬ GaveUpEmpty w) ∧
    ((∀ as s, (openMachine g).RunsWith Undisturbed .init as s →
        GaveUpEmpty s ∧ RemovesReceived s) ∧
      ∀ as s a u, (openMachine g).Runs .init as s → openStep g s a = some u →
        ¬ Undisturbed s a → ∃ bs w, (openMachine g).Runs u bs w ∧ ¬ RemovesReceived w) := by
  refine ⟨⟨fun as s h => (runs_noneUnread h).gaveUpEmpty, ?_⟩,
    ⟨fun as s h => ⟨(runs_kept h).gaveUpEmpty, (runs_kept h).removesReceived⟩, ?_⟩⟩
  · intro as s a u _ hstep hC
    exact unread_of_late hstep hC
  · intro as s a u _ hstep hC
    exact unread_of_disturbed hstep hC

def onePoll : Gsgp2cosim := { csb_adaptor with shm_timeout := 0 }

def putRead : List OpenAction :=
  [.call ⟨.rd, 0, 0⟩ 0, .bridge, .bridge, .bridge]

/-- The first read is answered after its timeout, which it has reported and is about to leave. -/
theorem response_kept_exactly_timeout :
    (∃ s, (openMachine onePoll).RunsWith Undisturbed .init (putRead ++ [.bridge, .bridge]) s ∧
      s.base.pc = .delUp ⟨⟨.rd, 0, 0⟩, ⟨0, onePoll.address ⟨.rd, 0, 0⟩⟩, 0⟩ false 0 ∧
      s.base.reports = ["Read timeout\n"] ∧ GaveUpEmpty s) ∧
    ∃ s, (openMachine onePoll).RunsWith Undisturbed .init
      (putRead ++ [.bridge, .bridge, .bridge, .takeDn .rd, .respond .rd 0 ⟨5, 0⟩] ++
        [.call ⟨.rd, 4, 0⟩ 0, .bridge, .bridge, .bridge, .bridge, .respond .rd 1 ⟨7, 4⟩,
          .bridge]) s ∧
      s.base.returned = [⟨0, false, 0⟩] ∧ s.received = some ⟨⟨7, 4⟩, 1⟩ ∧ RemovesReceived s := by
  constructor
  · obtain ⟨s, hrun, hpc, hreports⟩ := Machine.runsWith_of_eval (openMachine onePoll) Undisturbed
      (putRead ++ [.bridge, .bridge])
      (fun s => s.base.pc = .delUp ⟨⟨.rd, 0, 0⟩, ⟨0, onePoll.address ⟨.rd, 0, 0⟩⟩, 0⟩ false 0 ∧
        s.base.reports = ["Read timeout\n"]) (by decide)
    exact ⟨s, hrun, hpc, hreports, ((response_kept_exactly onePoll).2.1 _ s hrun).1⟩
  · obtain ⟨s, hrun, hret, hreceived⟩ := Machine.runsWith_of_eval (openMachine onePoll) Undisturbed
      (putRead ++ [.bridge, .bridge, .bridge, .takeDn .rd, .respond .rd 0 ⟨5, 0⟩] ++
        [.call ⟨.rd, 4, 0⟩ 0, .bridge, .bridge, .bridge, .bridge, .respond .rd 1 ⟨7, 4⟩, .bridge])
      (fun s => s.base.returned = [⟨0, false, 0⟩] ∧ s.received = some ⟨⟨7, 4⟩, 1⟩) (by decide)
    exact ⟨s, hrun, hret, hreceived, ((response_kept_exactly onePoll).2.1 _ s hrun).2⟩

theorem arrived_response_removed :
    ¬ ∀ as s, (openMachine onePoll).Runs .init as s → GaveUpEmpty s := by
  intro hall
  obtain ⟨s, hrun, hpc, hup⟩ := Machine.runsWith_of_eval (openMachine onePoll) (fun _ _ => True)
    (putRead ++ [.bridge, .respond .rd 0 ⟨7, 0⟩, .bridge])
    (fun s => s.base.pc = .delUp ⟨⟨.rd, 0, 0⟩, ⟨0, onePoll.address ⟨.rd, 0, 0⟩⟩, 0⟩ false 0 ∧
      s.base.store.get (.up .rd) = some ⟨⟨7, 0⟩, 0⟩) (by decide)
  exact hall _ s hrun _ _ hpc _ hup rfl

end NvdlaVp.CosimBridge
