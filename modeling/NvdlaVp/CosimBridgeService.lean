import NvdlaVp.CosimBridgeTickets
import NvdlaVp.SerialService

set_option autoImplicit false

namespace NvdlaVp.CosimBridge
open MachineRuns KeyValueStore

def Request.answer (r : Request) (w : BitVec 32) : BitVec 32 :=
  match r.mCmd with
  | .wr => r.mData
  | .rd => w

def Call.message (c : Call) : Message := ⟨c.tp, c.ticket⟩

def Call.response (c : Call) (w : BitVec 32) : Message := ⟨⟨w, c.tp.addr⟩, c.ticket⟩

structure Quiet (s : State) (ch : Channel) : Prop where
  dn : s.store.get (.dn ch) = none
  peer : s.peer ch = .idle
  up : s.store.get (.up ch) = none

inductive Requested (s : State) (c : Call) : Prop where
  | waiting (dn : s.store.get (.dn c.channel) = some c.message) (peer : s.peer c.channel = .idle)
      (up : s.store.get (.up c.channel) = none)
  | got (dn : s.store.get (.dn c.channel) = some c.message)
      (peer : s.peer c.channel = .got c.message) (up : s.store.get (.up c.channel) = none)
  | taken (dn : s.store.get (.dn c.channel) = none)
      (peer : s.peer c.channel = .taken c.message) (up : s.store.get (.up c.channel) = none)

inductive Answered (s : State) (c : Call) (w : BitVec 32) : Prop where
  | held (dn : s.store.get (.dn c.channel) = none)
      (peer : s.peer c.channel = .answered c.message w) (up : s.store.get (.up c.channel) = none)
  | sent (dn : s.store.get (.dn c.channel) = none) (peer : s.peer c.channel = .idle)
      (up : s.store.get (.up c.channel) = some (c.response w))

theorem Requested.up_none {s : State} {c : Call} (h : Requested s c) :
    s.store.get (.up c.channel) = none := by
  cases h <;> assumption

theorem Answered.of_up {s : State} {c : Call} {w : BitVec 32} {m : Message}
    (h : Answered s c w) (hm : s.store.get (.up c.channel) = some m) :
    m = c.response w ∧ s.store.get (.dn c.channel) = none ∧ s.peer c.channel = .idle := by
  cases h with
  | held dn peer up => rw [up] at hm; contradiction
  | sent dn peer up => exact ⟨Option.some.inj (hm.symm.trans up), dn, peer⟩

theorem Quiet.setPc {s : State} {ch : Channel} (h : Quiet s ch) (pc : BridgePc) :
    Quiet { s with pc := pc } ch := ⟨h.dn, h.peer, h.up⟩

theorem Requested.setPc {s : State} {c : Call} (h : Requested s c) (pc : BridgePc) :
    Requested { s with pc := pc } c := by
  cases h with
  | waiting dn peer up => exact .waiting dn peer up
  | got dn peer up => exact .got dn peer up
  | taken dn peer up => exact .taken dn peer up

theorem Answered.setPc {s : State} {c : Call} {w : BitVec 32} (h : Answered s c w)
    (pc : BridgePc) : Answered { s with pc := pc } c w := by
  cases h with
  | held dn peer up => exact .held dn peer up
  | sent dn peer up => exact .sent dn peer up

theorem peerStep_of_quiet {s : State} {ch : Channel} (w : BitVec 32) (h : Quiet s ch) :
    peerStep s ch w = s := by
  simp only [peerStep, h.peer, h.dn]

theorem Quiet.peerStep_other {s : State} {ch d : Channel} (w : BitVec 32) (hd : d ≠ ch)
    (h : Quiet s d) : Quiet (peerStep s ch w) d := by
  obtain ⟨hp, hdn, hup⟩ := CosimBridge.peerStep_other s w hd
  exact ⟨hdn.trans h.dn, hp.trans h.peer, hup.trans h.up⟩

theorem Requested.peerStep {s : State} {c : Call} (w : BitVec 32) (h : Requested s c) :
    (Requested (peerStep s c.channel w) c ∧
      (CosimBridge.peerStep s c.channel w).performed = s.performed) ∨
    (Answered (CosimBridge.peerStep s c.channel w) c w ∧
      (CosimBridge.peerStep s c.channel w).performed =
        s.performed ++ [⟨c.tp.access c.channel, c.ticket, w⟩]) := by
  cases h with
  | waiting dn peer up =>
    simp only [CosimBridge.peerStep, peer, dn]
    exact .inl ⟨.got dn (setPeer_peer _ _ _) up, rfl⟩
  | got dn peer up =>
    simp only [CosimBridge.peerStep, peer]
    exact .inl ⟨.taken (Store.get_del _ _) (setPeer_peer _ _ _) (by simpa using up), rfl⟩
  | taken dn peer up =>
    simp only [CosimBridge.peerStep, peer]
    exact .inr ⟨.held dn (setPeer_peer _ _ _) up, rfl⟩

theorem Answered.peerStep {s : State} {c : Call} {v : BitVec 32} (w : BitVec 32)
    (h : Answered s c v) : Answered (peerStep s c.channel w) c v ∧
      (CosimBridge.peerStep s c.channel w).performed = s.performed := by
  cases h with
  | held dn peer up =>
    simp only [CosimBridge.peerStep, peer]
    exact ⟨.sent (by simpa using dn) (setPeer_peer _ _ _) (Store.get_put _ _ _), rfl⟩
  | sent dn peer up =>
    simp only [CosimBridge.peerStep, peer, dn]
    exact ⟨.sent dn peer up, trivial⟩

/-- The program point of the bridge and the channels, against the phase of the service. -/
inductive Matches (g : Gsgp2cosim) (s : State) :
    BridgePc → SerialService.Phase Request (BitVec 32) → Prop where
  | idle (quiet : ∀ ch, Quiet s ch) : Matches g s .idle .idle
  | getDn (c : Call) (quiet : ∀ ch, Quiet s ch) (tp : c.tp.access c.channel = g.access c.req) :
      Matches g s (.getDn c) (.calling c.req)
  | getUp (c : Call) (quiet : ∀ ch, Quiet s ch) (tp : c.tp.access c.channel = g.access c.req) :
      Matches g s (.getUp c false) (.calling c.req)
  | putDn (c : Call) (quiet : ∀ ch, Quiet s ch) (tp : c.tp.access c.channel = g.access c.req) :
      Matches g s (.putDn c) (.calling c.req)
  | pollRequested (c : Call) (k : BitVec 32) (other : Quiet s c.channel.other)
      (req : Requested s c) (tp : c.tp.access c.channel = g.access c.req) :
      Matches g s (.poll c k) (.calling c.req)
  | pollAnswered (c : Call) (k w : BitVec 32) (other : Quiet s c.channel.other)
      (ans : Answered s c w) : Matches g s (.poll c k) (.answered c.req w)
  | waitRequested (c : Call) (k : BitVec 32) (other : Quiet s c.channel.other)
      (req : Requested s c) (tp : c.tp.access c.channel = g.access c.req) :
      Matches g s (.waiting c k) (.calling c.req)
  | waitAnswered (c : Call) (k w : BitVec 32) (other : Quiet s c.channel.other)
      (ans : Answered s c w) : Matches g s (.waiting c k) (.answered c.req w)
  | delUp (c : Call) (w : BitVec 32) (other : Quiet s c.channel.other)
      (dn : s.store.get (.dn c.channel) = none) (peer : s.peer c.channel = .idle) :
      Matches g s (.delUp c true (c.req.answer w)) (.answered c.req w)

structure Serves (g : Gsgp2cosim) (s : State) (t : SerialService.State Request (BitVec 32)) :
    Prop where
  called : t.called = s.calls
  served : s.performed.map (fun p => (p.access, p.response)) =
    t.served.map fun x => (g.access x.1, x.2)
  returned : s.returned.map (fun o => (o.acked, o.mData)) =
    t.returned.map fun x => (true, x.1.answer x.2)
  reports : s.reports = []
  pc : Matches g s s.pc t.phase

theorem quiet_init (ch : Channel) : Quiet .init ch := ⟨rfl, rfl, rfl⟩

theorem serves_init (g : Gsgp2cosim) :
    Serves g .init (SerialService.machine Request (BitVec 32)).init :=
  ⟨rfl, rfl, rfl, rfl, .idle quiet_init⟩

section Simulation

variable {g : Gsgp2cosim} {s : State} {t : SerialService.State Request (BitVec 32)}

theorem service_serve {r : Request} (w : BitVec 32) (h : t.phase = .calling r) :
    (SerialService.machine Request (BitVec 32)).Runs t [.serve w]
      { t with phase := .answered r w, served := t.served ++ [(r, w)] } :=
  .one trivial (by simp [SerialService.machine, SerialService.step, h])

theorem Serves.peerStep_still {ch : Channel} {w : BitVec 32} (h : Serves g s t)
    (hperf : (peerStep s ch w).performed = s.performed)
    (hm : Matches g (peerStep s ch w) (peerStep s ch w).pc t.phase) :
    Serves g (peerStep s ch w) t := by
  obtain ⟨-, hcalls, hret, hrep⟩ := peerStep_frame s ch w
  refine ⟨?_, ?_, ?_, ?_, hm⟩
  · rw [hcalls, h.called]
  · rw [hperf, h.served]
  · rw [hret, h.returned]
  · rw [hrep, h.reports]

theorem serves_requested {c : Call} (ch : Channel) (w : BitVec 32) (h : Serves g s t)
    (hph : t.phase = .calling c.req) (other : Quiet s c.channel.other) (req : Requested s c)
    (tp : c.tp.access c.channel = g.access c.req)
    (hcalling : ∀ u, u.pc = s.pc → Quiet u c.channel.other → Requested u c →
      Matches g u u.pc (.calling c.req))
    (hanswered : ∀ u, u.pc = s.pc → Quiet u c.channel.other → Answered u c w →
      Matches g u u.pc (.answered c.req w)) :
    ∃ bs v, (SerialService.machine Request (BitVec 32)).Runs t bs v ∧
      Serves g (peerStep s ch w) v := by
  obtain ⟨hpc, hcalls, hret, hrep⟩ := peerStep_frame s ch w
  rcases eq_or_other c.channel ch with rfl | rfl
  · have hother := other.peerStep_other w (other_ne c.channel)
    rcases req.peerStep w with ⟨hreq, hperf⟩ | ⟨hans, hperf⟩
    · refine ⟨[], t, .refl t, h.peerStep_still hperf ?_⟩
      rw [hph]
      exact hcalling _ hpc hother hreq
    · refine ⟨_, _, service_serve w hph, ⟨?_, ?_, ?_, ?_, ?_⟩⟩
      · rw [hcalls, h.called]
      · rw [hperf, List.map_append, List.map_append, h.served, List.map_singleton,
          List.map_singleton, tp]
      · rw [hret, h.returned]
      · rw [hrep, h.reports]
      · exact hanswered _ hpc hother hans
  · rw [peerStep_of_quiet w other]
    exact ⟨[], t, .refl t, h⟩

theorem serves_answered {c : Call} {v : BitVec 32} (ch : Channel) (w : BitVec 32)
    (h : Serves g s t) (hph : t.phase = .answered c.req v) (other : Quiet s c.channel.other)
    (ans : Answered s c v)
    (hanswered : ∀ u, u.pc = s.pc → Quiet u c.channel.other → Answered u c v →
      Matches g u u.pc (.answered c.req v)) :
    ∃ bs x, (SerialService.machine Request (BitVec 32)).Runs t bs x ∧
      Serves g (peerStep s ch w) x := by
  have hpc := (peerStep_frame s ch w).1
  refine ⟨[], t, .refl t, ?_⟩
  rcases eq_or_other c.channel ch with rfl | rfl
  · obtain ⟨hans, hperf⟩ := ans.peerStep w
    refine h.peerStep_still hperf ?_
    rw [hph]
    exact hanswered _ hpc (other.peerStep_other w (other_ne c.channel)) hans
  · rwa [peerStep_of_quiet w other]

theorem serves_peer (ch : Channel) (w : BitVec 32) (h : Serves g s t) :
    ∃ bs v, (SerialService.machine Request (BitVec 32)).Runs t bs v ∧
      Serves g (peerStep s ch w) v := by
  have hm := h.pc
  generalize hq : s.pc = q at hm
  generalize hph : t.phase = ph at hm
  have quietCase : (∀ ch, Quiet s ch) → ∃ bs v,
      (SerialService.machine Request (BitVec 32)).Runs t bs v ∧ Serves g (peerStep s ch w) v := by
    intro quiet
    rw [peerStep_of_quiet w (quiet ch)]
    exact ⟨[], t, .refl t, h⟩
  cases hm with
  | idle quiet | getDn c quiet tp | getUp c quiet tp | putDn c quiet tp => exact quietCase quiet
  | pollRequested c k other req tp =>
    exact serves_requested ch w h hph other req tp
      (fun u hu ho hr => by rw [hu, hq]; exact .pollRequested c k ho hr tp)
      (fun u hu ho ha => by rw [hu, hq]; exact .pollAnswered c k w ho ha)
  | waitRequested c k other req tp =>
    exact serves_requested ch w h hph other req tp
      (fun u hu ho hr => by rw [hu, hq]; exact .waitRequested c k ho hr tp)
      (fun u hu ho ha => by rw [hu, hq]; exact .waitAnswered c k w ho ha)
  | pollAnswered c k v other ans =>
    exact serves_answered ch w h hph other ans
      (fun u hu ho ha => by rw [hu, hq]; exact .pollAnswered c k v ho ha)
  | waitAnswered c k v other ans =>
    exact serves_answered ch w h hph other ans
      (fun u hu ho ha => by rw [hu, hq]; exact .waitAnswered c k v ho ha)
  | delUp c v other dn peer =>
    have hstay : peerStep s ch w = s := by
      rcases eq_or_other c.channel ch with rfl | rfl
      · simp only [peerStep, peer, dn]
      · exact peerStep_of_quiet w other
    rw [hstay]
    exact ⟨[], t, .refl t, h⟩

theorem serves_bridge {u : State} (h : Serves g s t) (hC : NoTimeout s .bridge)
    (hmove : Move g s .bridge u) :
    ∃ bs v, (SerialService.machine Request (BitVec 32)).Runs t bs v ∧ Serves g u v := by
  obtain ⟨called, served, returned, reports, hm⟩ := h
  cases hmove with
  | getDn c hpc =>
    rw [hpc] at hm
    generalize hph : t.phase = ph at hm
    cases hm with
    | getDn _ quiet tp =>
      refine ⟨[], t, .refl t, ⟨called, served, returned, reports, ?_⟩⟩
      simp only [(quiet c.channel).dn, hph, Option.isSome_none]
      exact .getUp c (fun ch => (quiet ch).setPc _) tp
  | getUpFull c b m hpc hup =>
    rw [hpc] at hm
    generalize t.phase = ph at hm
    cases hm with
    | getUp _ quiet tp => rw [(quiet c.channel).up] at hup; contradiction
  | getUpEmpty c b hpc hup =>
    rw [hpc] at hm
    generalize hph : t.phase = ph at hm
    cases hm with
    | getUp _ quiet tp =>
      refine ⟨[], t, .refl t, ⟨called, served, returned, reports, ?_⟩⟩
      rw [hph]
      exact .putDn c (fun ch => (quiet ch).setPc _) tp
  | delStaleUp c b hpc =>
    rw [hpc] at hm
    generalize t.phase = ph at hm
    cases hm
  | delStaleDn c hpc =>
    rw [hpc] at hm
    generalize t.phase = ph at hm
    cases hm
  | putDn c hpc =>
    rw [hpc] at hm
    generalize hph : t.phase = ph at hm
    cases hm with
    | putDn _ quiet tp =>
      refine ⟨[], t, .refl t, ⟨called, served, returned, reports, ?_⟩⟩
      rw [hph]
      refine .pollRequested c _ ⟨?_, (quiet _).peer, ?_⟩
        (.waiting (Store.get_put _ _ _) (quiet _).peer ?_) tp
      · exact (Store.get_put_of_ne _ _ (by simp)).trans (quiet _).dn
      · exact (Store.get_put_of_ne _ _ (by simp)).trans (quiet _).up
      · exact (Store.get_put_of_ne _ _ (by simp)).trans (quiet _).up
  | pollFull c k m hpc hup =>
    rw [hpc] at hm
    generalize hph : t.phase = ph at hm
    cases hm with
    | pollRequested _ _ other req tp => rw [req.up_none] at hup; contradiction
    | pollAnswered _ _ w other ans =>
      obtain ⟨rfl, dn, peer⟩ := ans.of_up hup
      refine ⟨[], t, .refl t, ⟨called, served, returned, reports, ?_⟩⟩
      rw [hph]
      exact .delUp c w (other.setPc _) dn peer
  | pollEmpty c k hpc hup =>
    rw [hpc] at hm
    generalize hph : t.phase = ph at hm
    refine ⟨[], t, .refl t, ⟨called, served, returned, reports, ?_⟩⟩
    rw [hph]
    cases hm with
    | pollRequested _ _ other req tp =>
      exact .waitRequested c k (other.setPc _) (req.setPc _) tp
    | pollAnswered _ _ w other ans =>
      exact .waitAnswered c k w (other.setPc _) (ans.setPc _)
  | runOut c hpc => exact absurd (hC rfl) (by simp [hpc, BridgePc.expired])
  | countDown c k hpc hk =>
    rw [hpc] at hm
    generalize hph : t.phase = ph at hm
    refine ⟨[], t, .refl t, ⟨called, served, returned, reports, ?_⟩⟩
    rw [hph]
    cases hm with
    | waitRequested _ _ other req tp =>
      exact .pollRequested c _ (other.setPc _) (req.setPc _) tp
    | waitAnswered _ _ w other ans =>
      exact .pollAnswered c _ w (other.setPc _) (ans.setPc _)
  | delUp c acked mData hpc =>
    rw [hpc] at hm
    generalize hph : t.phase = ph at hm
    cases hm with
    | delUp _ w other dn peer =>
      refine ⟨[.ret], { t with phase := .idle, returned := t.returned ++ [(c.req, w)] },
        .one trivial (by simp [SerialService.machine, SerialService.step, hph]),
        ⟨called, served, ?_, reports, .idle ?_⟩⟩
      · simp only [List.map_append, returned, List.map_singleton]
      · intro ch
        rcases eq_or_other c.channel ch with rfl | rfl
        · exact ⟨by simpa using dn, peer, Store.get_del _ _⟩
        · exact ⟨by simpa using other.dn, other.peer, by simpa using other.up⟩

/-- The bridge and the peer refine the serial service while no wait loop runs out. -/
theorem bridge_refines (g : Gsgp2cosim) : (machine g).Refines NoTimeout
    (SerialService.machine Request (BitVec 32)) (Serves g) where
  start := serves_init g
  simulate := by
    intro s t a u h hC hstep
    cases a with
    | call r stack =>
      have hmove : Move g s (.call r stack) u := step_move hstep
      cases hmove with
      | call _ _ hpc =>
        have hm := h.pc
        rw [hpc] at hm
        generalize hph : t.phase = ph at hm
        cases hm with
        | idle quiet =>
          refine ⟨[.call r], { t with phase := .calling r, called := t.called ++ [r] },
            .one trivial (by simp [SerialService.machine, SerialService.step, hph]),
            ⟨?_, h.served, h.returned, h.reports, ?_⟩⟩
          · simp only [h.called]
          · exact .getDn ⟨r, g.fill r stack, s.calls.length⟩
              (fun ch => ⟨(quiet ch).dn, (quiet ch).peer, (quiet ch).up⟩) (fill_access g r stack)
    | bridge => exact serves_bridge h hC (step_move hstep)
    | peer ch w =>
      obtain rfl : peerStep s ch w = u := Option.some.inj hstep
      exact serves_peer ch w h

end Simulation

theorem Serves.performed_prefix {g : Gsgp2cosim} {s : State}
    {t : SerialService.State Request (BitVec 32)} (h : Serves g s t)
    (hb : SerialService.Balanced t) :
    s.performed.map Performed.access <+: s.calls.map g.access := by
  have hacc : s.performed.map Performed.access = (t.served.map Prod.fst).map g.access := by
    have hmap := congrArg (List.map Prod.fst) h.served
    simpa only [List.map_map, Function.comp_def] using hmap
  rw [hacc, ← h.called]
  exact hb.served_prefix.map g.access

theorem Serves.returned_get {g : Gsgp2cosim} {s : State}
    {t : SerialService.State Request (BitVec 32)} (h : Serves g s t)
    (hb : SerialService.Balanced t) {i : ℕ} {o : Returned} (ho : s.returned[i]? = some o) :
    ∃ r p, s.calls[i]? = some r ∧ s.performed[i]? = some p ∧ p.access = g.access r ∧
      o.acked = true ∧ o.mData = r.answer p.response := by
  have hret := congrArg (fun l => l[i]?) h.returned
  simp only [List.getElem?_map, ho, Option.map_some] at hret
  obtain ⟨⟨r, w⟩, hx, he⟩ := Option.map_eq_some_iff.mp hret.symm
  have hserved : t.served[i]? = some (r, w) := getElem?_of_prefix hb.returned_prefix hx
  have hperf := congrArg (fun l => l[i]?) h.served
  simp only [List.getElem?_map, hserved, Option.map_some] at hperf
  obtain ⟨p, hp, hpe⟩ := Option.map_eq_some_iff.mp hperf
  have hcalled : t.called[i]? = some r :=
    getElem?_of_prefix hb.served_prefix (by rw [List.getElem?_map, hserved]; rfl)
  refine ⟨r, p, h.called ▸ hcalled, hp, (Prod.mk.inj hpe).1, (Prod.mk.inj he).1.symm, ?_⟩
  rw [(Prod.mk.inj hpe).2]
  exact (Prod.mk.inj he).2.symm

/-- In every interleaving in which no wait loop runs out, the peer performs exactly the
    accesses of the calls, in their order; a call returns with the response to it, with
    all keys empty and without an error report. -/
theorem served_exactly_once (g : Gsgp2cosim) {as : List Action} {s : State}
    (h : (machine g).RunsWith NoTimeout .init as s) :
    s.performed.map Performed.access <+: s.calls.map g.access ∧
    (∀ (i : ℕ) (o : Returned), s.returned[i]? = some o → ∃ r p, s.calls[i]? = some r ∧
      s.performed[i]? = some p ∧ p.access = g.access r ∧ o.acked = true ∧
      (r.mCmd = .rd → o.mData = p.response)) ∧
    (s.pc = .idle → s.performed.map Performed.access = s.calls.map g.access ∧
      s.returned.length = s.calls.length ∧ ∀ k, s.store.get k = none) ∧
    s.reports = [] := by
  obtain ⟨bs, t, ht, hs⟩ := (bridge_refines g).reaches h
  have hb := SerialService.runs_balanced ht
  refine ⟨hs.performed_prefix hb, ?_, ?_, hs.reports⟩
  · intro i o ho
    obtain ⟨r, p, hr, hp, ha, hack, hdata⟩ := hs.returned_get hb ho
    refine ⟨r, p, hr, hp, ha, hack, fun hrd => ?_⟩
    simpa only [Request.answer, hrd] using hdata
  · intro hidle
    have hm := hs.pc
    rw [hidle] at hm
    generalize hph : t.phase = ph at hm
    cases hm with
    | idle quiet =>
      obtain ⟨hcalled, hreturned⟩ := hb.idle hph
      have hlen : s.performed.length = s.calls.length := by
        have hl := congrArg List.length hs.served
        simpa only [List.length_map, ← hs.called, hcalled] using hl
      have hret : s.returned.length = s.calls.length := by
        have hl := congrArg List.length hs.returned
        simpa only [List.length_map, ← hs.called, hcalled, hreturned] using hl
      refine ⟨(hs.performed_prefix hb).eq_of_length (by simpa using hlen), hret, ?_⟩
      rintro (ch | ch)
      · exact (quiet ch).dn
      · exact (quiet ch).up

theorem served_exactly_once_write_read : ∃ s,
    (machine csb_adaptor).RunsWith NoTimeout .init
      (servedRound ⟨.wr, 0x10200010, 7⟩ 0 ++ servedRound ⟨.rd, 0x10200010, 0⟩ 42) s ∧
    s.performed.map Performed.access = [.write 0x10 7, .read 0x10] ∧
    s.returned.map Returned.mData = [7, 42] ∧ s.reports = [] := by
  obtain ⟨s, hrun, hpc, hcalls, hret⟩ := Machine.runsWith_of_eval (machine csb_adaptor) NoTimeout
    (servedRound ⟨.wr, 0x10200010, 7⟩ 0 ++ servedRound ⟨.rd, 0x10200010, 0⟩ 42)
    (fun s => s.pc = .idle ∧ s.calls = [⟨.wr, 0x10200010, 7⟩, ⟨.rd, 0x10200010, 0⟩] ∧
      s.returned.map Returned.mData = [7, 42]) (by decide)
  obtain ⟨_, _, hidle, hreports⟩ := served_exactly_once csb_adaptor hrun
  refine ⟨s, hrun, ?_, hret, hreports⟩
  rw [(hidle hpc).1, hcalls]
  decide

end NvdlaVp.CosimBridge
