import NvdlaVp.CosimInterrupt
import NvdlaVp.SimdbInterface

set_option autoImplicit false

namespace NvdlaVp.CosimInterrupt
open MachineRuns KeyValueStore StoreQueries ByteMemory BlockBytes Simdb

structure Local where
  pc : Pc
  value : BitVec 32
  delivered : List (BitVec 32)
  errors : List String
  peer : PeerPc
  posted : List (BitVec 32)
  removed : ℕ

def Local.init : Local := ⟨.waitMs, 0, [], [], .ready, [], 0⟩

def Local.status (r : Local) (v : IrqTransPayload) : Local :=
  { r with pc := .delUp v, value := irqValue v.value }

def bridgeQuery (r : Local) : Query Key IrqTransPayload Local :=
  match r.pc with
  | .waitMs => .quiet { r with pc := .getUp }
  | .getUp => .get .up fun v => { r with pc := .getDn v }
  | .getDn none => .get .dn fun _ => { r with pc := .waitMs }
  | .getDn (some v) => .get .dn fun d =>
      if d.isSome then { r with pc := .delStaleDn v, errors := r.errors ++ [dnNotEmpty] }
      else r.status v
  | .delStaleDn v => .del .dn (r.status v)
  | .delUp v => .del .up { r with pc := .putDn v }
  | .putDn v => .put .dn v { r with pc := .waitNs }
  | .waitNs => .quiet { r with pc := .pollDn }
  | .pollDn => .get .dn fun d => { r with pc := if d.isSome then .waitNs else .transmit }
  | .transmit => .quiet { r with pc := .transmitting, delivered := r.delivered ++ [r.value] }
  | .transmitting => .quiet { r with pc := .waitMs }

def peerQuery (r : Local) : Option (Query Key IrqTransPayload Local) :=
  match r.peer with
  | .ready => none
  | .waitDn => some (.get .dn fun d => if d.isSome then { r with peer := .delDn } else r)
  | .delDn => some (.del .dn { r with peer := .ready, removed := r.removed + 1 })

def client : Client Key IrqTransPayload Local Action
  | r, .bridge => some (bridgeQuery r)
  | r, .post status =>
    match r.peer with
    | .ready => some (.put .up ⟨status⟩ { r with
        peer := .waitDn
        posted := r.posted ++ [status] })
    | _ => none
  | r, .peer => peerQuery r

def toState (x : Local × Store Key IrqTransPayload) : State where
  bridge := ⟨x.2, x.1.pc, x.1.value, x.1.delivered, x.1.errors⟩
  peer := x.1.peer
  posted := x.1.posted
  removed := x.1.removed

theorem bridge_toState (r : Local) (m : Store Key IrqTransPayload) :
    ((bridgeQuery r).serve (.map Key IrqTransPayload) m).map toState =
      some { toState (r, m) with bridge := bridgeStep (toState (r, m)).bridge } := by
  rw [bridgeStep, bridgeQuery, show (toState (r, m)).bridge.pc = r.pc from rfl]
  cases r.pc with
  | waitMs => rfl
  | getUp => rfl
  | getDn v =>
    cases v with
    | none => rfl
    | some v =>
      cases hdn : m.get .dn with
      | none => simp [Query.serve, Interface.map, toState, Local.status, Bridge.status, hdn]
      | some d => simp [Query.serve, Interface.map, toState, hdn]
  | delStaleDn v => rfl
  | delUp v => rfl
  | putDn v => rfl
  | waitNs => rfl
  | pollDn =>
    cases hdn : m.get .dn with
    | none => simp [Query.serve, Interface.map, toState, hdn]
    | some d => simp [Query.serve, Interface.map, toState, hdn]
  | transmit => rfl
  | transmitting => rfl

theorem peer_toState (r : Local) (m : Store Key IrqTransPayload) :
    ((peerQuery r).bind fun q => q.serve (.map Key IrqTransPayload) m).map toState =
      peerStep (toState (r, m)) := by
  rw [peerStep, peerQuery, show (toState (r, m)).peer = r.peer from rfl]
  cases hp : r.peer with
  | ready => rfl
  | waitDn =>
    cases hdn : m.get .dn with
    | none => simp [Query.serve, Interface.map, toState, hdn, hp]
    | some d => simp [Query.serve, Interface.map, toState, hdn]
  | delDn => rfl

theorem step_toState (x init : Local × Store Key IrqTransPayload) (a : Action) :
    ((client.over (.map Key IrqTransPayload) init).step x a).map toState =
      step (toState x) a := by
  obtain ⟨r, m⟩ := x
  cases a with
  | bridge => exact bridge_toState r m
  | post status =>
    simp only [Client.over, client, step, show (toState (r, m)).peer = r.peer from rfl]
    cases r.peer with
    | ready => rfl
    | waitDn => rfl
    | delDn => rfl
  | peer => exact peer_toState r m

def irqPod : Pod IrqTransPayload where
  sizeOf := 4
  image v := wordBytes v.value
  ofBytes b := ⟨b.word⟩
  size_pos := by decide
  length_image v := length_wordBytes v.value
  ofBytes_congr b b' h := congrArg IrqTransPayload.mk (word_congr h)
  ofBytes_image v := by
    have hword := word_wordBytes v.value []
    rw [List.append_nil] at hword
    rw [hword]

def keyName : Key → Str
  | .up => ascii "irq_ipc_db_up"
  | .dn => ascii "irq_ipc_db_dn"

def keyNames : List Str := [keyName .up, keyName .dn]

def memoryMachine (bytes : Buffer) (memory : ℕ → BitVec 64) : Machine (Local × CncrHsh) Action :=
  client.over (vectors irqPod keyName) (.init, shm_db bytes memory)

/-- The memory is where the state has its store, and everything else is the same. -/
structure Shows (x : Local × CncrHsh) (s : State) : Prop where
  pc : x.1.pc = s.bridge.pc
  value : x.1.value = s.bridge.value
  delivered : x.1.delivered = s.bridge.delivered
  errors : x.1.errors = s.bridge.errors
  peer : x.1.peer = s.peer
  posted : x.1.posted = s.posted
  removed : x.1.removed = s.removed
  reads : ∀ k, (x.2.getVec irqPod (keyName k)).map (fun r => r.1.head?) =
    some (s.bridge.store.get k)

theorem named : Named irqPod keyName keyNames SIMDB_BLOCK_SIZE SIMDB_BLOCK_COUNT where
  geometry := ⟨by decide, by decide, by decide⟩
  many := by decide
  two := by decide
  mem k := by cases k <;> simp [keyNames]
  inj j k h := by
    cases j <;> cases k <;> first
      | rfl
      | exact absurd h (by decide)
  spread := by decide +kernel
  pos k := by cases k <;> decide
  small k := by cases k <;> decide

theorem shows_of_related {r : Local} {h : CncrHsh} {m : Store Key IrqTransPayload} {n : ℕ}
    (hR : Related irqPod keyName keyNames SIMDB_BLOCK_SIZE SIMDB_BLOCK_COUNT n h m) :
    Shows (r, h) (toState (r, m)) := by
  refine ⟨rfl, rfl, rfl, rfl, rfl, rfl, rfl, fun k => ?_⟩
  have hread := related_get named hR k
  obtain ⟨v, hv, heq⟩ := Option.map_eq_some_iff.mp hread
  rw [hv, Option.map_some, (Prod.mk.inj heq).1]
  rfl

/-- Over the memory the interrupt bridge and its peer take the steps that they take over a map,
    and each key reads as the map has it. -/
theorem interrupts_over_simdb (bytes : Buffer) (memory : ℕ → BitVec 64) (as : List Action)
    (hputs : client.puts (Local.init, .empty) as ≤ 2 ^ 32 - 2) :
    (∀ x, (memoryMachine bytes memory).Runs (memoryMachine bytes memory).init as x →
      ∃ s, machine.Runs machine.init as s ∧ Shows x s) ∧
    ∀ s, machine.Runs machine.init as s →
      ∃ x, (memoryMachine bytes memory).Runs (memoryMachine bytes memory).init as x ∧
        Shows x s := by
  have hrealize := vectors_realize named
  have hnew := related_new named bytes memory
  rw [← Nat.zero_add (client.puts _ as)] at hputs
  have hid : as.map id = as := List.map_id as
  constructor
  · rintro ⟨r, h⟩ hrun
    obtain ⟨m, hmap, hR⟩ : ∃ m,
        (client.over (.map Key IrqTransPayload) (Local.init, .empty)).Runs (Local.init, .empty) as
          (r, m) ∧
        Related irqPod keyName keyNames SIMDB_BLOCK_SIZE SIMDB_BLOCK_COUNT _ h m :=
      hrealize.run_back hnew hputs hrun
    have himage : machine.Runs _ (as.map id) _ := hmap.image fun x a => step_toState x _ a
    rw [hid] at himage
    exact ⟨toState (r, m), himage, shows_of_related hR⟩
  · intro s hrun
    rw [← hid] at hrun
    obtain ⟨⟨r, m⟩, hmap, rfl⟩ : ∃ y,
        (client.over (.map Key IrqTransPayload) (Local.init, .empty)).Runs (Local.init, .empty) as
          y ∧ toState y = s :=
      Machine.runs_of_image (fun x a => step_toState x _ a) hrun
    obtain ⟨h, hmem, hR⟩ := hrealize.run_over hnew hputs hmap
    exact ⟨(r, h), hmem, shows_of_related hR⟩

theorem interrupts_over_simdb_one : ∃ x,
    (memoryMachine (fun _ => 0) fun _ => 0).Runs (memoryMachine (fun _ => 0) fun _ => 0).init
      [.post 3, .bridge, .bridge, .bridge, .bridge, .bridge, .peer, .peer, .bridge, .bridge,
        .bridge] x ∧ x.1.delivered = [1] := by
  obtain ⟨s, hrun, hdelivered⟩ := Machine.runsWith_of_eval machine (fun _ _ => True)
    [.post 3, .bridge, .bridge, .bridge, .bridge, .bridge, .peer, .peer, .bridge, .bridge,
      .bridge] (fun s => s.bridge.delivered = [1]) (by decide)
  obtain ⟨x, hx, hshows⟩ := (interrupts_over_simdb (fun _ => 0) (fun _ => 0) _ (by decide)).2 s hrun
  exact ⟨x, hx, hshows.delivered.trans hdelivered⟩

end NvdlaVp.CosimInterrupt
