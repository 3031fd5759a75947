import NvdlaVp.Gsgp

set_option autoImplicit false

/-!
# `Tlm2gsgp` and `Gsgp2tlm`

One call of each, run to its end. The target of a call and the layer between the two
adaptors are parameters; `dmi_mtx` is the subject of `DmiMutex`.
-/
namespace NvdlaVp.Adaptors
open ByteMemory Gsgp
variable {ω : Type*}

structure Report where
  name : String
  payload : GenericPayload

/-- `SC_REPORT_ERROR` throws under the default actions, and goes on where they are changed. -/
def SC_REPORT_ERROR (throws : Bool) (r : Report) : Except Report Unit :=
  if throws then .error r else .ok ()

def checkResponse (throws : Bool) (name : String) (gp : GenericPayload) : Except Report Unit :=
  if gp.response_status ≠ .ok then SC_REPORT_ERROR throws ⟨name, gp⟩ else .ok ()

abbrev Target (ω : Type*) := GenericPayload → ω → ResponseStatus × ω

namespace Tlm2gsgp

def fill (tlm_gp : GenericPayload) (transaction : Transaction) : Transaction :=
  { transaction with
    mBurstLength := tlm_gp.data_length.setWidth 64
    mAddr := tlm_gp.address
    mData := ⟨tlm_gp.data_ptr, tlm_gp.data_length⟩
    mCmd := if tlm_gp.command = .write then .wr else .rd
    byte_enable_ptr := tlm_gp.byte_enable_ptr
    byte_enable_length := tlm_gp.byte_enable_length }

structure Transported (ω : Type*) where
  exit : Except Report Unit
  tlm_gp : GenericPayload
  transaction : Transaction
  world : ω

def b_transport (name : String) (throws : Bool)
    (Transact : Transaction → ω → Except Report Unit × Transaction × ω)
    (transaction : Transaction) (tlm_gp : GenericPayload) (w : ω) : Transported ω :=
  match Transact (fill tlm_gp transaction) w with
  | (.error r, transaction, w) => ⟨.error r, tlm_gp, transaction, w⟩
  | (.ok _, transaction, w) =>
    let tlm_gp := { tlm_gp with response_status := transaction.response_status }
    ⟨checkResponse throws name tlm_gp, tlm_gp, transaction, w⟩

theorem b_transport_world (name : String) (throws : Bool)
    (Transact : Transaction → ω → Except Report Unit × Transaction × ω)
    (transaction : Transaction) (tlm_gp : GenericPayload) (w : ω) :
    (b_transport name throws Transact transaction tlm_gp w).world =
      (Transact (fill tlm_gp transaction) w).2.2 := by
  unfold b_transport
  split <;> rename_i heq <;> rw [heq]

end Tlm2gsgp

/-- The members of `Gsgp2tlm`. Nothing sets the byte enable pointer of `m_tlm_gp`. -/
structure Gsgp2tlm where
  name : String
  base_addr : BitVec 64
  m_tlm_gp : GenericPayload
  byte_enable_ptr : m_tlm_gp.byte_enable_ptr = none

namespace Gsgp2tlm

def fill (base_addr : BitVec 64) (t : Transaction) (m_tlm_gp : GenericPayload) :
    GenericPayload :=
  { m_tlm_gp with
    command := if t.mCmd = .wr then .write else .read
    address := t.mAddr - base_addr
    data_ptr := t.mData.data
    data_length := t.mData.size
    byte_enable_length := 0
    response_status := .incomplete }

def issued (g : Gsgp2tlm) (t : Transaction) : GenericPayload := fill g.base_addr t g.m_tlm_gp

def b_transact (throws : Bool) (target : Target ω) (t : Transaction) (g : Gsgp2tlm) (w : ω) :
    Except Report Unit × Transaction × Gsgp2tlm × ω :=
  let (status, w) := target (g.issued t) w
  let m_tlm_gp := { g.issued t with response_status := status }
  (checkResponse throws g.name m_tlm_gp, { t with response_status := status },
    { g with m_tlm_gp := m_tlm_gp, byte_enable_ptr := g.byte_enable_ptr }, w)

end Gsgp2tlm

end NvdlaVp.Adaptors
