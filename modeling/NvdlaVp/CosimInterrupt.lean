import NvdlaVp.MachineRuns
import NvdlaVp.KeyValueStore

set_option autoImplicit false

/-!
# `irq2gss::transport` and a peer that keeps the handshake

The peer posts a status in the up key and waits for the acknowledgement in the down
key; the bridge acknowledges a status before it transmits it.
-/
namespace NvdlaVp.CosimInterrupt
open MachineRuns KeyValueStore

inductive Key where
  | dn
  | up
  deriving DecidableEq, Repr

structure IrqTransPayload where
  value : BitVec 32
  deriving DecidableEq, Repr

inductive Pc where
  | waitMs
  | getUp
  | getDn (v : Option IrqTransPayload)
  | delStaleDn (v : IrqTransPayload)
  | delUp (v : IrqTransPayload)
  | putDn (v : IrqTransPayload)
  | waitNs
  | pollDn
  | transmit
  | transmitting
  deriving DecidableEq, Repr

/-- `data.value` for a status: its bit 0. -/
def irqValue (status : BitVec 32) : BitVec 32 := status &&& (0x1 <<< 0x0)

/-- The store, the process, the member `data.value`, the values handed to
    `m_socket->b_transport`, and the errors printed. -/
structure Bridge where
  store : Store Key IrqTransPayload
  pc : Pc
  value : BitVec 32
  delivered : List (BitVec 32)
  errors : List String

def Bridge.init : Bridge where
  store := .empty
  pc := .waitMs
  value := 0
  delivered := []
  errors := []

def dnNotEmpty : String := " ERROR: The last INT down stream FIFO is not empty!\n"

def Bridge.status (b : Bridge) (v : IrqTransPayload) : Bridge :=
  { b with pc := .delUp v, value := irqValue v.value }

def bridgeStep (b : Bridge) : Bridge :=
  match b.pc with
  | .waitMs => { b with pc := .getUp }
  | .getUp => { b with pc := .getDn (b.store.get .up) }
  | .getDn none => { b with pc := .waitMs }
  | .getDn (some v) =>
    if (b.store.get .dn).isSome then
      { b with pc := .delStaleDn v, errors := b.errors ++ [dnNotEmpty] }
    else b.status v
  | .delStaleDn v => { b.status v with store := b.store.del .dn }
  | .delUp v => { b with pc := .putDn v, store := b.store.del .up }
  | .putDn v => { b with pc := .waitNs, store := b.store.put .dn v }
  | .waitNs => { b with pc := .pollDn }
  | .pollDn => if (b.store.get .dn).isSome then { b with pc := .waitNs }
    else { b with pc := .transmit }
  | .transmit => { b with pc := .transmitting, delivered := b.delivered ++ [b.value] }
  | .transmitting => { b with pc := .waitMs }

/-- The peer: free to post, waiting for the acknowledgement, or about to delete it. -/
inductive PeerPc where
  | ready
  | waitDn
  | delDn
  deriving DecidableEq, Repr

/-- `posted` and `removed` are history: the statuses, and the acknowledgements deleted. -/
structure State where
  bridge : Bridge
  peer : PeerPc
  posted : List (BitVec 32)
  removed : ℕ

def State.init : State := ⟨.init, .ready, [], 0⟩

inductive Action where
  | bridge
  | post (status : BitVec 32)
  | peer
  deriving DecidableEq, Repr

def State.setStore (s : State) (m : Store Key IrqTransPayload) : State :=
  { s with bridge := { s.bridge with store := m } }

def peerStep (s : State) : Option State :=
  match s.peer with
  | .ready => none
  | .waitDn =>
    if (s.bridge.store.get .dn).isSome then some { s with peer := .delDn } else some s
  | .delDn => some { s.setStore (s.bridge.store.del .dn) with
      peer := .ready
      removed := s.removed + 1 }

def step (s : State) : Action → Option State
  | .bridge => some { s with bridge := bridgeStep s.bridge }
  | .post status => match s.peer with
    | .ready => some { s.setStore (s.bridge.store.put .up ⟨status⟩) with
        peer := .waitDn
        posted := s.posted ++ [status] }
    | _ => none
  | .peer => peerStep s

def machine : Machine State Action := ⟨.init, step⟩

def State.values (s : State) : List (BitVec 32) := s.posted.map irqValue

end NvdlaVp.CosimInterrupt
