import NvdlaVp.MachineRuns
import NvdlaVp.KeyValueStore
import NvdlaVp.Gsgp

set_option autoImplicit false

/-!
# `Gsgp2cosim::b_transact` and the RTL peer

One `b_transact` at a time turns a four-byte access into messages of a shared
store. Each step makes at most one store operation, so every interleaving with
the two channel servers of the peer is a run of `machine`.

Message tickets and the lists `calls`, `performed` and `returned` are history, on which
no step branches.
-/
namespace NvdlaVp.CosimBridge
open MachineRuns KeyValueStore Gsgp

inductive Channel where
  | wr
  | rd
  deriving DecidableEq, Repr

def Channel.other : Channel → Channel
  | .wr => .rd
  | .rd => .wr

/-- The keys `<shm_name>_wr_dn`, `_wr_up`, `_rd_dn` and `_rd_up`. -/
inductive Key where
  | dn (ch : Channel)
  | up (ch : Channel)
  deriving DecidableEq, Repr

structure TransPayload where
  data : BitVec 32
  addr : BitVec 64
  deriving DecidableEq, Repr

/-- The access handle; `mData` is the word that the bridge reads and writes in place of
    the four bytes of MData, whose size it asserts. -/
structure Request where
  mCmd : MCmd
  mAddr : BitVec 64
  mData : BitVec 32
  deriving DecidableEq, Repr

def Request.channel (r : Request) : Channel :=
  match r.mCmd with
  | .wr => .wr
  | .rd => .rd

structure Gsgp2cosim where
  base_addr : BitVec 64
  addr_offset : BitVec 64
  shm_timeout : BitVec 32

/-- The adaptor of `nvdla_cosim_sc_wrapper` under the shipped configuration, with the
    timeout that it has when `COSIM_SHM_TIMEOUT_IN_NS` is not set. -/
def csb_adaptor : Gsgp2cosim where
  base_addr := 0x10200000
  addr_offset := 0
  shm_timeout := 0xFFFFFFFF

def Gsgp2cosim.address (g : Gsgp2cosim) (r : Request) : BitVec 64 :=
  r.mAddr - g.base_addr + g.addr_offset

/-- The one-element vector of a key, with the number of the call it belongs to. -/
structure Message where
  payload : TransPayload
  ticket : ℕ
  deriving DecidableEq, Repr

structure Call where
  req : Request
  tp : TransPayload
  ticket : ℕ
  deriving DecidableEq, Repr

def Call.channel (c : Call) : Channel := c.req.channel

/-- The next operation of the bridge, with the locals that are still live. -/
inductive BridgePc where
  | idle
  | getDn (c : Call)
  | getUp (c : Call) (tpv_dn : Bool)
  | delStaleUp (c : Call) (tpv_dn : Bool)
  | delStaleDn (c : Call)
  | putDn (c : Call)
  | poll (c : Call) (timeout : BitVec 32)
  | waiting (c : Call) (timeout : BitVec 32)
  | delUp (c : Call) (acked : Bool) (mData : BitVec 32)
  deriving DecidableEq, Repr

/-- What a channel's server of the peer holds: nothing, a message it has read but not yet
    deleted, one it has taken, or one it has performed but not yet answered. -/
inductive PeerPc where
  | idle
  | got (m : Message)
  | taken (m : Message)
  | answered (m : Message) (response : BitVec 32)
  deriving DecidableEq, Repr

inductive PeerAccess where
  | write (addr : BitVec 64) (data : BitVec 32)
  | read (addr : BitVec 64)
  deriving DecidableEq, Repr

def TransPayload.access (tp : TransPayload) : Channel → PeerAccess
  | .wr => .write tp.addr tp.data
  | .rd => .read tp.addr

def Gsgp2cosim.access (g : Gsgp2cosim) (r : Request) : PeerAccess :=
  match r.mCmd with
  | .wr => .write (g.address r) r.mData
  | .rd => .read (g.address r)

structure Performed where
  access : PeerAccess
  ticket : ℕ
  response : BitVec 32
  deriving DecidableEq, Repr

structure Returned where
  ticket : ℕ
  acked : Bool
  mData : BitVec 32
  deriving DecidableEq, Repr

structure State where
  store : Store Key Message
  pc : BridgePc
  peer : Channel → PeerPc
  reports : List String
  calls : List Request
  performed : List Performed
  returned : List Returned

def State.init : State where
  store := .empty
  pc := .idle
  peer := fun _ => .idle
  reports := []
  calls := []
  performed := []
  returned := []

def Channel.upNotEmpty : Channel → String
  | .wr => "ERROR: The last write up stream FIFO is not empty!\n"
  | .rd => "ERROR: The last read up stream FIFO is not empty!\n"

def Channel.dnNotDone : Channel → String
  | .wr => "ERROR: The last write down stream is not done yet!\n"
  | .rd => "ERROR: The last read down stream is not done yet!\n"

def Channel.timeoutReport : Channel → String
  | .wr => "Write timeout\n"
  | .rd => "Read timeout\n"

def afterUp (c : Call) (tpv_dn : Bool) : BridgePc :=
  if tpv_dn then .delStaleDn c else .putDn c

/-- The word of MData after a response: only the read path stores it. -/
def Request.onResponse (r : Request) (tpv_up : TransPayload) : BitVec 32 :=
  match r.mCmd with
  | .wr => r.mData
  | .rd => tpv_up.data

/-- `tp` when it is put: the read path leaves `tp.data` as it was on the stack. -/
def Gsgp2cosim.fill (g : Gsgp2cosim) (r : Request) (stack : BitVec 32) : TransPayload where
  addr := g.address r
  data := match r.mCmd with
    | .wr => r.mData
    | .rd => stack

def enter (g : Gsgp2cosim) (s : State) (r : Request) (stack : BitVec 32) : Option State :=
  match s.pc with
  | .idle => some { s with
      pc := .getDn ⟨r, g.fill r stack, s.calls.length⟩
      calls := s.calls ++ [r] }
  | _ => none

def bridgeStep (g : Gsgp2cosim) (s : State) : Option State :=
  match s.pc with
  | .idle => none
  | .getDn c => some { s with pc := .getUp c (s.store.get (.dn c.channel)).isSome }
  | .getUp c tpv_dn => some { s with
      pc := if (s.store.get (.up c.channel)).isSome then .delStaleUp c tpv_dn
        else afterUp c tpv_dn }
  | .delStaleUp c tpv_dn => some { s with
      pc := afterUp c tpv_dn
      reports := s.reports ++ [c.channel.upNotEmpty]
      store := s.store.del (.up c.channel) }
  | .delStaleDn c => some { s with
      pc := .putDn c
      reports := s.reports ++ [c.channel.dnNotDone]
      store := s.store.del (.dn c.channel) }
  | .putDn c => some { s with
      pc := .poll c g.shm_timeout
      store := s.store.put (.dn c.channel) ⟨c.tp, c.ticket⟩ }
  | .poll c timeout =>
    match s.store.get (.up c.channel) with
    | some m => some { s with pc := .delUp c true (c.req.onResponse m.payload) }
    | none => some { s with pc := .waiting c timeout }
  | .waiting c timeout =>
    if timeout = 0 then
      some { s with
        pc := .delUp c false c.req.mData
        reports := s.reports ++ [c.channel.timeoutReport] }
    else some { s with pc := .poll c (timeout - 1) }
  | .delUp c acked mData => some { s with
      pc := .idle
      store := s.store.del (.up c.channel)
      returned := s.returned ++ [⟨c.ticket, acked, mData⟩] }

def State.setPeer (s : State) (ch : Channel) (p : PeerPc) : State :=
  { s with peer := Function.update s.peer ch p }

/-- One operation of the server of `ch`; `response` is what an access performed now yields. -/
def peerStep (s : State) (ch : Channel) (response : BitVec 32) : State :=
  match s.peer ch with
  | .idle =>
    match s.store.get (.dn ch) with
    | none => s
    | some m => s.setPeer ch (.got m)
  | .got m => { s.setPeer ch (.taken m) with store := s.store.del (.dn ch) }
  | .taken m => { s.setPeer ch (.answered m response) with
      performed := s.performed ++ [⟨m.payload.access ch, m.ticket, response⟩] }
  | .answered m response => { s.setPeer ch .idle with
      store := s.store.put (.up ch) ⟨⟨response, m.payload.addr⟩, m.ticket⟩ }

inductive Action where
  | call (r : Request) (stack : BitVec 32)
  | bridge
  | peer (ch : Channel) (response : BitVec 32)
  deriving DecidableEq, Repr

def step (g : Gsgp2cosim) (s : State) : Action → Option State
  | .call r stack => enter g s r stack
  | .bridge => bridgeStep g s
  | .peer ch response => some (peerStep s ch response)

def machine (g : Gsgp2cosim) : Machine State Action := ⟨.init, step g⟩

/-- The wait loop is over: the next step reports the timeout. -/
def BridgePc.expired : BridgePc → Bool
  | .waiting _ timeout => timeout = 0
  | _ => false

def NoTimeout (s : State) (a : Action) : Prop := a = .bridge → s.pc.expired = false

instance (s : State) (a : Action) : Decidable (NoTimeout s a) :=
  inferInstanceAs (Decidable (_ → _))

def servedRound (r : Request) (w : BitVec 32) : List Action :=
  [.call r 0, .bridge, .bridge, .bridge, .peer r.channel 0, .peer r.channel 0,
    .peer r.channel w, .peer r.channel 0, .bridge, .bridge]

inductive Move (g : Gsgp2cosim) (s : State) : Action → State → Prop where
  | call (r : Request) (stack : BitVec 32) (hpc : s.pc = .idle) : Move g s (.call r stack)
      { s with pc := .getDn ⟨r, g.fill r stack, s.calls.length⟩, calls := s.calls ++ [r] }
  | getDn (c : Call) (hpc : s.pc = .getDn c) : Move g s .bridge
      { s with pc := .getUp c (s.store.get (.dn c.channel)).isSome }
  | getUpFull (c : Call) (tpv_dn : Bool) (m : Message) (hpc : s.pc = .getUp c tpv_dn)
      (hup : s.store.get (.up c.channel) = some m) : Move g s .bridge
      { s with pc := .delStaleUp c tpv_dn }
  | getUpEmpty (c : Call) (tpv_dn : Bool) (hpc : s.pc = .getUp c tpv_dn)
      (hup : s.store.get (.up c.channel) = none) : Move g s .bridge
      { s with pc := afterUp c tpv_dn }
  | delStaleUp (c : Call) (tpv_dn : Bool) (hpc : s.pc = .delStaleUp c tpv_dn) :
      Move g s .bridge { s with
        pc := afterUp c tpv_dn
        reports := s.reports ++ [c.channel.upNotEmpty]
        store := s.store.del (.up c.channel) }
  | delStaleDn (c : Call) (hpc : s.pc = .delStaleDn c) : Move g s .bridge
      { s with
        pc := .putDn c
        reports := s.reports ++ [c.channel.dnNotDone]
        store := s.store.del (.dn c.channel) }
  | putDn (c : Call) (hpc : s.pc = .putDn c) : Move g s .bridge
      { s with
        pc := .poll c g.shm_timeout
        store := s.store.put (.dn c.channel) ⟨c.tp, c.ticket⟩ }
  | pollFull (c : Call) (timeout : BitVec 32) (m : Message) (hpc : s.pc = .poll c timeout)
      (hup : s.store.get (.up c.channel) = some m) : Move g s .bridge
      { s with pc := .delUp c true (c.req.onResponse m.payload) }
  | pollEmpty (c : Call) (timeout : BitVec 32) (hpc : s.pc = .poll c timeout)
      (hup : s.store.get (.up c.channel) = none) : Move g s .bridge
      { s with pc := .waiting c timeout }
  | runOut (c : Call) (hpc : s.pc = .waiting c 0) : Move g s .bridge
      { s with
        pc := .delUp c false c.req.mData
        reports := s.reports ++ [c.channel.timeoutReport] }
  | countDown (c : Call) (timeout : BitVec 32) (hpc : s.pc = .waiting c timeout)
      (ht : timeout ≠ 0) : Move g s .bridge { s with pc := .poll c (timeout - 1) }
  | delUp (c : Call) (acked : Bool) (mData : BitVec 32) (hpc : s.pc = .delUp c acked mData) :
      Move g s .bridge { s with
        pc := .idle
        store := s.store.del (.up c.channel)
        returned := s.returned ++ [⟨c.ticket, acked, mData⟩] }
  | peerEmpty (ch : Channel) (w : BitVec 32) (hp : s.peer ch = .idle)
      (hdn : s.store.get (.dn ch) = none) : Move g s (.peer ch w) s
  | peerGet (ch : Channel) (w : BitVec 32) (m : Message) (hp : s.peer ch = .idle)
      (hdn : s.store.get (.dn ch) = some m) : Move g s (.peer ch w) (s.setPeer ch (.got m))
  | peerDel (ch : Channel) (w : BitVec 32) (m : Message) (hp : s.peer ch = .got m) :
      Move g s (.peer ch w) { s.setPeer ch (.taken m) with store := s.store.del (.dn ch) }
  | perform (ch : Channel) (w : BitVec 32) (m : Message) (hp : s.peer ch = .taken m) :
      Move g s (.peer ch w) { s.setPeer ch (.answered m w) with
        performed := s.performed ++ [⟨m.payload.access ch, m.ticket, w⟩] }
  | answer (ch : Channel) (v w : BitVec 32) (m : Message) (hp : s.peer ch = .answered m w) :
      Move g s (.peer ch v) { s.setPeer ch .idle with
        store := s.store.put (.up ch) ⟨⟨w, m.payload.addr⟩, m.ticket⟩ }

theorem bridgeStep_move {g : Gsgp2cosim} {s u : State} (h : bridgeStep g s = some u) :
    Move g s .bridge u := by
  unfold bridgeStep at h
  cases hpc : s.pc <;> simp only [hpc, Option.some.injEq, reduceCtorEq] at h
  case getDn c => exact h ▸ .getDn c hpc
  case getUp c tpv_dn =>
    cases hup : s.store.get (.up c.channel) with
    | none =>
      simp only [hup, Option.isSome_none, Bool.false_eq_true, if_false] at h
      exact h ▸ .getUpEmpty c tpv_dn hpc hup
    | some m =>
      simp only [hup, Option.isSome_some, if_true] at h
      exact h ▸ .getUpFull c tpv_dn m hpc hup
  case delStaleUp c tpv_dn => exact h ▸ .delStaleUp c tpv_dn hpc
  case delStaleDn c => exact h ▸ .delStaleDn c hpc
  case putDn c => exact h ▸ .putDn c hpc
  case poll c timeout =>
    cases hup : s.store.get (.up c.channel) with
    | none =>
      simp only [hup, Option.some.injEq] at h
      exact h ▸ .pollEmpty c timeout hpc hup
    | some m =>
      simp only [hup, Option.some.injEq] at h
      exact h ▸ .pollFull c timeout m hpc hup
  case waiting c timeout =>
    split at h
    · rename_i ht
      subst ht
      exact Option.some.inj h ▸ .runOut c hpc
    · rename_i ht
      exact Option.some.inj h ▸ .countDown c timeout hpc ht
  case delUp c acked mData => exact h ▸ .delUp c acked mData hpc

theorem peerStep_move (g : Gsgp2cosim) (s : State) (ch : Channel) (w : BitVec 32) :
    Move g s (.peer ch w) (peerStep s ch w) := by
  unfold peerStep
  cases hp : s.peer ch with
  | idle =>
    cases hdn : s.store.get (.dn ch) with
    | none => exact .peerEmpty ch w hp hdn
    | some m => exact .peerGet ch w m hp hdn
  | got m => exact .peerDel ch w m hp
  | taken m => exact .perform ch w m hp
  | answered m w' => exact .answer ch w w' m hp

theorem step_move {g : Gsgp2cosim} {s u : State} {a : Action} (h : step g s a = some u) :
    Move g s a u := by
  cases a with
  | call r stack =>
    simp only [step, enter] at h
    cases hpc : s.pc <;> simp only [hpc, Option.some.injEq, reduceCtorEq] at h
    exact h ▸ .call r stack hpc
  | bridge => exact bridgeStep_move h
  | peer ch w => exact Option.some.inj h ▸ peerStep_move g s ch w

end NvdlaVp.CosimBridge
