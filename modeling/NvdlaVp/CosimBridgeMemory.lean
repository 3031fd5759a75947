import NvdlaVp.CosimBridge
import NvdlaVp.SimdbInterface

set_option autoImplicit false

namespace NvdlaVp.CosimBridge
open MachineRuns KeyValueStore StoreQueries ByteMemory BlockBytes Simdb

section Payload

/-- `trans_payload` as it lies in memory, with the padding behind `data`. -/
structure Image where
  payload : TransPayload
  padding : BitVec 32
  deriving DecidableEq, Repr

def Image.bytes (x : Image) : Str :=
  wordBytes x.payload.data ++ (wordBytes x.padding ++
    (wordBytes (x.payload.addr.setWidth 32) ++ wordBytes ((x.payload.addr >>> 32).setWidth 32)))

def Image.ofBytes (b : Buffer) : Image where
  payload := ⟨b.word, (b.drop 12).word ++ (b.drop 8).word⟩
  padding := (b.drop 4).word

theorem Image.ofBytes_bytes (x : Image) : ofBytes (bytesOf x.bytes) = x := by
  have hdrop8 : (bytesOf x.bytes).drop 8 = ((bytesOf x.bytes).drop 4).drop 4 :=
    (drop_drop _ 4 4).symm
  have hdrop12 : (bytesOf x.bytes).drop 12 = ((bytesOf x.bytes).drop 8).drop 4 :=
    (drop_drop _ 8 4).symm
  have hlast := word_wordBytes ((x.payload.addr >>> 32).setWidth 32) []
  rw [List.append_nil] at hlast
  have haddr : (x.payload.addr >>> 32).setWidth 32 ++ x.payload.addr.setWidth 32 =
      x.payload.addr := lo32_append_hi32 x.payload.addr
  rw [ofBytes, hdrop12, hdrop8, bytes, drop_wordBytes, drop_wordBytes, drop_wordBytes,
    word_wordBytes, word_wordBytes, word_wordBytes, hlast, haddr]

def imagePod : Pod Image where
  sizeOf := 16
  image := Image.bytes
  ofBytes := Image.ofBytes
  size_pos := by decide
  length_image x := by
    rw [Image.bytes, List.length_append, List.length_append, List.length_append, length_wordBytes,
      length_wordBytes, length_wordBytes, length_wordBytes]
  ofBytes_congr b b' h := by
    have hword : ∀ k, k + 4 ≤ 16 → (b.drop k).word = (b'.drop k).word :=
      fun k hk => word_congr fun i hi => h (k + i) (by omega)
    rw [Image.ofBytes, Image.ofBytes, word_congr fun i hi => h i (by omega), hword 4 (by omega),
      hword 8 (by omega), hword 12 (by omega)]
  ofBytes_image := Image.ofBytes_bytes

end Payload

/-- The state without the store. `tickets` is history: the tickets of the messages in it. -/
structure Local where
  pc : BridgePc
  peer : Channel → PeerPc
  reports : List String
  calls : List Request
  performed : List Performed
  returned : List Returned
  tickets : Key → ℕ

def Local.init : Local where
  pc := .idle
  peer := fun _ => .idle
  reports := []
  calls := []
  performed := []
  returned := []
  tickets := fun _ => 0

def Local.setPeer (r : Local) (ch : Channel) (p : PeerPc) : Local :=
  { r with peer := Function.update r.peer ch p }

def Local.setTicket (r : Local) (k : Key) (ticket : ℕ) : Local :=
  { r with tickets := Function.update r.tickets k ticket }

/-- What the step of the bridge asks of the store; `padding` is put with the payload. -/
def bridgeQuery (g : Gsgp2cosim) (r : Local) (padding : BitVec 32) :
    Option (Query Key Image Local) :=
  match r.pc with
  | .idle => none
  | .getDn c => some (.get (.dn c.channel) fun v => { r with pc := .getUp c v.isSome })
  | .getUp c tpv_dn => some (.get (.up c.channel) fun v => { r with
      pc := if v.isSome then .delStaleUp c tpv_dn else afterUp c tpv_dn })
  | .delStaleUp c tpv_dn => some (.del (.up c.channel) { r with
      pc := afterUp c tpv_dn
      reports := r.reports ++ [c.channel.upNotEmpty] })
  | .delStaleDn c => some (.del (.dn c.channel) { r with
      pc := .putDn c
      reports := r.reports ++ [c.channel.dnNotDone] })
  | .putDn c => some (.put (.dn c.channel) ⟨c.tp, padding⟩
      { r.setTicket (.dn c.channel) c.ticket with pc := .poll c g.shm_timeout })
  | .poll c timeout => some (.get (.up c.channel) fun v =>
      match v with
      | some x => { r with pc := .delUp c true (c.req.onResponse x.payload) }
      | none => { r with pc := .waiting c timeout })
  | .waiting c timeout =>
    if timeout = 0 then
      some (.quiet { r with
        pc := .delUp c false c.req.mData
        reports := r.reports ++ [c.channel.timeoutReport] })
    else some (.quiet { r with pc := .poll c (timeout - 1) })
  | .delUp c acked mData => some (.del (.up c.channel) { r with
      pc := .idle
      returned := r.returned ++ [⟨c.ticket, acked, mData⟩] })

def peerQuery (r : Local) (ch : Channel) (response padding : BitVec 32) :
    Query Key Image Local :=
  match r.peer ch with
  | .idle => .get (.dn ch) fun v =>
      match v with
      | none => r
      | some x => r.setPeer ch (.got ⟨x.payload, r.tickets (.dn ch)⟩)
  | .got m => .del (.dn ch) (r.setPeer ch (.taken m))
  | .taken m => .quiet { r.setPeer ch (.answered m response) with
      performed := r.performed ++ [⟨m.payload.access ch, m.ticket, response⟩] }
  | .answered m response => .put (.up ch) ⟨⟨response, m.payload.addr⟩, padding⟩
      ((r.setPeer ch .idle).setTicket (.up ch) m.ticket)

def client (g : Gsgp2cosim) : Client Key Image Local (Action × BitVec 32)
  | r, (.call req stack, _) =>
    match r.pc with
    | .idle => some (.quiet { r with
        pc := .getDn ⟨req, g.fill req stack, r.calls.length⟩
        calls := r.calls ++ [req] })
    | _ => none
  | r, (.bridge, padding) => bridgeQuery g r padding
  | r, (.peer ch response, padding) => some (peerQuery r ch response padding)

def messages (tickets : Key → ℕ) (m : Store Key Image) : Store Key Message :=
  fun k => (m.get k).map fun x => ⟨x.payload, tickets k⟩

def toState (x : Local × Store Key Image) : State where
  store := messages x.1.tickets x.2
  pc := x.1.pc
  peer := x.1.peer
  reports := x.1.reports
  calls := x.1.calls
  performed := x.1.performed
  returned := x.1.returned

section Map
variable {g : Gsgp2cosim} {r : Local} {m : Store Key Image} {tickets : Key → ℕ} {k : Key}

theorem get_messages : (messages tickets m).get k = (m.get k).map fun x => ⟨x.payload, tickets k⟩ :=
  rfl

theorem messages_del : messages tickets (m.del k) = (messages tickets m).del k := by
  funext j
  by_cases hj : j = k
  · subst hj
    simp [messages, Store.get, Store.del]
  · simp [messages, Store.get, Store.del, hj]

theorem messages_put (x : Image) (ticket : ℕ) :
    messages (Function.update tickets k ticket) (m.put k x) =
      (messages tickets m).put k ⟨x.payload, ticket⟩ := by
  funext j
  by_cases hj : j = k
  · subst hj
    simp [messages, Store.get, Store.put]
  · simp [messages, Store.get, Store.put, hj]

theorem bridge_toState (g : Gsgp2cosim) (r : Local) (m : Store Key Image) (padding : BitVec 32) :
    ((bridgeQuery g r padding).bind fun q => q.serve (.map Key Image) m).map toState =
      bridgeStep g (toState (r, m)) := by
  rw [bridgeStep, bridgeQuery, show (toState (r, m)).pc = r.pc from rfl]
  cases hpc : r.pc with
  | idle => rfl
  | getDn c => simp [Query.serve, Interface.map, toState, get_messages]
  | getUp c tpv_dn => simp [Query.serve, Interface.map, toState, get_messages]
  | delStaleUp c tpv_dn => simp [Query.serve, Interface.map, toState, messages_del]
  | delStaleDn c => simp [Query.serve, Interface.map, toState, messages_del]
  | putDn c => simp [Query.serve, Interface.map, toState, Local.setTicket, messages_put]
  | poll c timeout =>
    cases hup : m.get (.up c.channel) with
    | none => simp [Query.serve, Interface.map, toState, get_messages, hup]
    | some x => simp [Query.serve, Interface.map, toState, get_messages, hup]
  | waiting c timeout =>
    by_cases ht : timeout = 0
    · simp only [if_pos ht]
      rfl
    · simp only [if_neg ht]
      rfl
  | delUp c acked mData => simp [Query.serve, Interface.map, toState, messages_del]

theorem peer_toState (r : Local) (m : Store Key Image) (ch : Channel)
    (response padding : BitVec 32) :
    ((peerQuery r ch response padding).serve (.map Key Image) m).map toState =
      some (peerStep (toState (r, m)) ch response) := by
  rw [peerStep, peerQuery, show (toState (r, m)).peer = r.peer from rfl]
  cases hp : r.peer ch with
  | idle =>
    cases hdn : m.get (.dn ch) with
    | none => simp [Query.serve, Interface.map, toState, get_messages, hdn]
    | some x =>
      simp [Query.serve, Interface.map, toState, get_messages, hdn, Local.setPeer,
        State.setPeer]
  | got msg =>
    simp [Query.serve, Interface.map, toState, Local.setPeer, State.setPeer, messages_del]
  | taken msg => simp [Query.serve, toState, Local.setPeer, State.setPeer]
  | answered msg w =>
    simp [Query.serve, Interface.map, toState, Local.setPeer, Local.setTicket, State.setPeer,
      messages_put]

theorem step_toState (x : Local × Store Key Image) (init : Local × Store Key Image)
    (a : Action × BitVec 32) :
    (((client g).over (.map Key Image) init).step x a).map toState =
      step g (toState x) a.1 := by
  obtain ⟨r, m⟩ := x
  obtain ⟨action, padding⟩ := a
  cases action with
  | call req stack =>
    simp only [Client.over, client, step, enter, show (toState (r, m)).pc = r.pc from rfl]
    cases hpc : r.pc <;> simp [Query.serve, toState]
  | bridge => exact bridge_toState g r m padding
  | peer ch response => exact peer_toState r m ch response padding

end Map

section Memory

def Key.suffix : Key → String
  | .dn .wr => "_wr_dn"
  | .up .wr => "_wr_up"
  | .dn .rd => "_rd_dn"
  | .up .rd => "_rd_up"

def keyName (shm_name_str : Str) (k : Key) : Str := shm_name_str ++ ascii k.suffix

def keyNames (shm_name_str : Str) : List Str :=
  [.dn .wr, .up .wr, .dn .rd, .up .rd].map (keyName shm_name_str)

def memoryMachine (g : Gsgp2cosim) (shm_name_str : Str) (bytes : Buffer)
    (memory : ℕ → BitVec 64) : Machine (Local × CncrHsh) (Action × BitVec 32) :=
  (client g).over (vectors imagePod (keyName shm_name_str)) (.init, shm_db bytes memory)

/-- The memory is where the state has its store, and everything else is the same. -/
structure Shows (shm_name_str : Str) (x : Local × CncrHsh) (s : State) : Prop where
  pc : x.1.pc = s.pc
  peer : x.1.peer = s.peer
  reports : x.1.reports = s.reports
  calls : x.1.calls = s.calls
  performed : x.1.performed = s.performed
  returned : x.1.returned = s.returned
  reads : ∀ k, (x.2.getVec imagePod (keyName shm_name_str k)).map
    (fun r => r.1.head?.map Image.payload) = some ((s.store.get k).map Message.payload)

variable {shm_name_str : Str}

theorem length_suffix (k : Key) : (ascii k.suffix).length = 6 := by
  rcases k with (_ | _) | (_ | _) <;> rfl

theorem suffix_inj {j k : Key} (h : ascii j.suffix = ascii k.suffix) : j = k := by
  rcases j with (_ | _) | (_ | _) <;> rcases k with (_ | _) | (_ | _) <;>
    first
      | rfl
      | exact absurd h (by decide)

theorem named (hlength : shm_name_str.length ≤ 1002)
    (hspread : Spread SIMDB_BLOCK_COUNT (keyNames shm_name_str)) :
    Named imagePod (keyName shm_name_str) (keyNames shm_name_str) SIMDB_BLOCK_SIZE
      SIMDB_BLOCK_COUNT where
  geometry := ⟨by decide, by decide, by decide⟩
  many := show 4 < 1024 by decide
  two := by decide
  mem k := by rcases k with (_ | _) | (_ | _) <;> simp [keyNames]
  inj j k h := suffix_inj (List.append_cancel_left h)
  spread := hspread
  pos k := by
    rw [keyName, List.length_append, length_suffix]
    omega
  small k := by
    rw [keyName, List.length_append, length_suffix, show imagePod.sizeOf = 16 from rfl,
      SIMDB_BLOCK_SIZE]
    omega

theorem shows_of_related (hnamed : Named imagePod (keyName shm_name_str) (keyNames shm_name_str)
      SIMDB_BLOCK_SIZE SIMDB_BLOCK_COUNT) {r : Local} {h : CncrHsh} {m : Store Key Image} {n : ℕ}
    (hR : Related imagePod (keyName shm_name_str) (keyNames shm_name_str) SIMDB_BLOCK_SIZE
      SIMDB_BLOCK_COUNT n h m) : Shows shm_name_str (r, h) (toState (r, m)) := by
  refine ⟨rfl, rfl, rfl, rfl, rfl, rfl, fun k => ?_⟩
  have hread := related_get hnamed hR k
  obtain ⟨v, hv, heq⟩ := Option.map_eq_some_iff.mp hread
  rw [show (toState (r, m)).store = messages r.tickets m from rfl, get_messages, hv,
    Option.map_some, (Prod.mk.inj heq).1, Option.map_map]
  rfl

/-- Over the memory the bridge and its peer take the steps that they take over a map, and each
    key reads as the map has it. -/
theorem bridge_over_simdb (g : Gsgp2cosim) (shm_name_str : Str)
    (hlength : shm_name_str.length ≤ 1002)
    (hspread : Spread SIMDB_BLOCK_COUNT (keyNames shm_name_str)) (bytes : Buffer)
    (memory : ℕ → BitVec 64) (as : List (Action × BitVec 32))
    (hputs : (client g).puts (Local.init, .empty) as ≤ 2 ^ 32 - 2) :
    (∀ x, (memoryMachine g shm_name_str bytes memory).Runs
        (memoryMachine g shm_name_str bytes memory).init as x →
      ∃ s, (machine g).Runs (machine g).init (as.map Prod.fst) s ∧ Shows shm_name_str x s) ∧
    ∀ s, (machine g).Runs (machine g).init (as.map Prod.fst) s →
      ∃ x, (memoryMachine g shm_name_str bytes memory).Runs
        (memoryMachine g shm_name_str bytes memory).init as x ∧ Shows shm_name_str x s := by
  have hnamed := named hlength hspread
  have hrealize := vectors_realize hnamed
  have hnew := related_new hnamed bytes memory
  rw [← Nat.zero_add ((client g).puts _ as)] at hputs
  constructor
  · rintro ⟨r, h⟩ hrun
    obtain ⟨m, hmap, hR⟩ : ∃ m,
        ((client g).over (.map Key Image) (Local.init, .empty)).Runs (Local.init, .empty) as
          (r, m) ∧
        Related imagePod (keyName shm_name_str) (keyNames shm_name_str) SIMDB_BLOCK_SIZE
          SIMDB_BLOCK_COUNT _ h m := hrealize.run_back hnew hputs hrun
    have himage : (machine g).Runs _ (as.map Prod.fst) _ :=
      hmap.image fun x a => step_toState x _ a
    exact ⟨toState (r, m), himage, shows_of_related hnamed hR⟩
  · intro s hrun
    obtain ⟨⟨r, m⟩, hmap, rfl⟩ : ∃ y,
        ((client g).over (.map Key Image) (Local.init, .empty)).Runs (Local.init, .empty) as y ∧
        toState y = s := Machine.runs_of_image (fun x a => step_toState x _ a) hrun
    obtain ⟨h, hmem, hR⟩ := hrealize.run_over hnew hputs hmap
    exact ⟨(r, h), hmem, shows_of_related hnamed hR⟩

theorem bridge_over_simdb_write : ∃ x,
    (memoryMachine csb_adaptor (ascii "apb_ipc_db_4242") (fun _ => 0) fun _ => 0).Runs
      (memoryMachine csb_adaptor (ascii "apb_ipc_db_4242") (fun _ => 0) fun _ => 0).init
      ((servedRound ⟨.wr, 0x10200004, 7⟩ 0).map fun a => (a, 0)) x ∧
    x.1.returned = [⟨0, true, 7⟩] := by
  obtain ⟨s, hrun, hreturned⟩ := Machine.runsWith_of_eval (machine csb_adaptor) (fun _ _ => True)
    (servedRound ⟨.wr, 0x10200004, 7⟩ 0) (fun s => s.returned = [⟨0, true, 7⟩]) (by decide)
  obtain ⟨x, hx, hshows⟩ := (bridge_over_simdb csb_adaptor (ascii "apb_ipc_db_4242") (by decide)
    (by decide +kernel) (fun _ => 0) (fun _ => 0)
    ((servedRound ⟨.wr, 0x10200004, 7⟩ 0).map fun a => (a, 0)) (by decide)).2 s hrun
  exact ⟨x, hx, hshows.returned.trans hreturned⟩

end Memory

end NvdlaVp.CosimBridge
