import NvdlaVp.ByteMemory

set_option autoImplicit false

/-!
# Payloads of the two transaction layers

A TLM generic payload, and the generic protocol's transaction, which carries the
attributes of a payload of its own. A data pointer is the name of a buffer; a byte
enable pointer stands for the array that it points to.
-/
namespace NvdlaVp.Gsgp
open ByteMemory

inductive MCmd where
  | wr
  | rd
  deriving DecidableEq, Repr

inductive Command where
  | read
  | write
  | ignore
  deriving DecidableEq, Repr

inductive ResponseStatus where
  | ok
  | incomplete
  | genericError
  | addressError
  | commandError
  | burstError
  | byteEnableError
  deriving DecidableEq, Repr

structure GenericPayload where
  command : Command
  address : BitVec 64
  data_ptr : ℕ
  data_length : BitVec 32
  byte_enable_ptr : Option Buffer
  byte_enable_length : BitVec 32
  response_status : ResponseStatus

structure GSDataType where
  data : ℕ
  size : BitVec 32
  deriving DecidableEq, Repr

/-- The last three fields are those of `get_tlm_transaction()`. -/
structure Transaction where
  mCmd : MCmd
  mAddr : BitVec 64
  mData : GSDataType
  mBurstLength : BitVec 64
  byte_enable_ptr : Option Buffer
  byte_enable_length : BitVec 32
  response_status : ResponseStatus

/-- Byte `i` is enabled: `TLM_BYTE_ENABLED` is 0xff, and the array repeats. -/
def GenericPayload.enabled (p : GenericPayload) (i : ℕ) : Bool :=
  match p.byte_enable_ptr with
  | none => true
  | some be => be (i % p.byte_enable_length.toNat) = 0xff

def GenericPayload.AllEnabled (p : GenericPayload) : Prop :=
  ∀ i < p.data_length.toNat, p.enabled i = true

abbrev Heap := ℕ → Buffer

/-- The effect of a payload on a byte-addressed memory. -/
def GenericPayload.apply (p : GenericPayload) (m : Memory 64) (heap : Heap) : Memory 64 × Heap :=
  match p.command with
  | .write =>
    (fun a =>
      let i := (a - p.address).toNat
      if i < p.data_length.toNat ∧ p.enabled i = true then heap p.data_ptr i else m a, heap)
  | .read =>
    (m, fun ptr i =>
      if ptr = p.data_ptr ∧ i < p.data_length.toNat ∧ p.enabled i = true then
        m (p.address + BitVec.ofNat 64 i)
      else heap ptr i)
  | .ignore => (m, heap)

structure GenericPayload.SameAccess (p q : GenericPayload) : Prop where
  command : p.command = q.command
  address : p.address = q.address
  data_ptr : p.data_ptr = q.data_ptr
  data_length : p.data_length = q.data_length
  enabled : ∀ i < q.data_length.toNat, p.enabled i = q.enabled i

theorem GenericPayload.SameAccess.apply {p q : GenericPayload} (h : p.SameAccess q)
    (m : Memory 64) (heap : Heap) : p.apply m heap = q.apply m heap := by
  have hin (i : ℕ) : (i < q.data_length.toNat ∧ p.enabled i = true) ↔
      (i < q.data_length.toNat ∧ q.enabled i = true) :=
    and_congr_right fun hi => by rw [h.enabled i hi]
  unfold GenericPayload.apply
  rw [h.command, h.address, h.data_ptr, h.data_length]
  simp only [hin]

end NvdlaVp.Gsgp
