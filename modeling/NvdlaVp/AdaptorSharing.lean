import NvdlaVp.SharedCalls
import NvdlaVp.AdaptorPath

set_option autoImplicit false

namespace NvdlaVp.Adaptors
open MachineRuns SharedCalls Gsgp

structure Attributes where
  isWrite : Bool
  address : BitVec 64
  data_ptr : ℕ
  data_length : BitVec 32
  deriving DecidableEq, Repr

def Transaction.attributes (t : Transaction) : Attributes :=
  ⟨t.mCmd = .wr, t.mAddr, t.mData.data, t.mData.size⟩

def GenericPayload.attributes (p : GenericPayload) : Attributes :=
  ⟨p.command = .write, p.address, p.data_ptr, p.data_length⟩

def Tlm2gsgp.transaction : SharedObject GenericPayload Transaction Attributes ResponseStatus where
  fill := Tlm2gsgp.fill
  setStatus t r := { t with response_status := r }
  seen := Transaction.attributes
  own := GenericPayload.attributes
  status t := t.response_status
  reset := none
  seen_fill p t := by
    cases h : p.command <;> simp [Transaction.attributes, GenericPayload.attributes, fill, h]
  seen_setStatus _ _ := rfl
  status_fill _ _ := rfl
  status_setStatus _ _ := rfl

def Gsgp2tlm.payload (base_addr : BitVec 64) :
    SharedObject Transaction GenericPayload Attributes ResponseStatus where
  fill := Gsgp2tlm.fill base_addr
  setStatus p r := { p with response_status := r }
  seen := GenericPayload.attributes
  own t := { Transaction.attributes t with address := t.mAddr - base_addr }
  status p := p.response_status
  reset := some .incomplete
  seen_fill t p := by
    cases h : t.mCmd <;> simp [Transaction.attributes, GenericPayload.attributes, fill, h]
  seen_setStatus _ _ := rfl
  status_fill _ _ := rfl
  status_setStatus _ _ := rfl

section Single
variable {ω : Type*} (throws : Bool) (target : Target ω) (g : Gsgp2tlm) (w : ω)

theorem transact_run (t : Transaction) :
    ((Gsgp2tlm.payload g.base_addr).machine g.m_tlm_gp).Runs ⟨g.m_tlm_gp, [], none⟩
      [.enter t, .issue 0, .respond 0 (target (g.issued t) w).1, .ret 0, .writeBack 0]
      ⟨(Gsgp2tlm.b_transact throws target t g w).2.2.1.m_tlm_gp,
        [⟨t, .done, some (target (g.issued t) w).1,
          some (Gsgp2tlm.b_transact throws target t g w).2.1.response_status⟩], some 0⟩ :=
  .next trivial rfl (.next trivial rfl (.next trivial rfl (.next trivial rfl
    (.one trivial rfl))))

/-- The steps of a call of `Tlm2gsgp` over it: the slave's report of an error is the exception
    that ends it. -/
theorem transport_run (name : String) (transaction : Transaction) (tlm_gp : GenericPayload) :
    if throws = true ∧ (target (passed g transaction tlm_gp) w).1 ≠ .ok then
      (Tlm2gsgp.transaction.machine transaction).Runs ⟨transaction, [], none⟩
        [.enter tlm_gp, .issue 0, .respond 0 (target (passed g transaction tlm_gp) w).1, .raise 0]
        ⟨(path name throws target transaction g tlm_gp w).transaction,
          [⟨tlm_gp, .raised, some (target (passed g transaction tlm_gp) w).1, none⟩], some 0⟩
    else
      (Tlm2gsgp.transaction.machine transaction).Runs ⟨transaction, [], none⟩
        [.enter tlm_gp, .issue 0, .respond 0 (target (passed g transaction tlm_gp) w).1, .ret 0,
          .writeBack 0]
        ⟨(path name throws target transaction g tlm_gp w).transaction,
          [⟨tlm_gp, .done, some (target (passed g transaction tlm_gp) w).1,
            some (path name throws target transaction g tlm_gp w).tlm_gp.response_status⟩],
          some 0⟩ := by
  have hends := @path_ends ω g transaction tlm_gp name throws target w
  have hobject : (path name throws target transaction g tlm_gp w).transaction =
      { Tlm2gsgp.fill tlm_gp transaction with
        response_status := (target (passed g transaction tlm_gp) w).1 } := by
    unfold path Tlm2gsgp.b_transport Gsgp2tlm.b_transact passed
    split <;> rename_i heq <;> exact (congrArg (fun r => r.2.1) heq).symm
  rw [Ends] at hends
  rw [hobject]
  split
  · exact .next trivial rfl (.next trivial rfl (.next trivial rfl (.one trivial rfl)))
  · rename_i hok
    rw [if_neg hok] at hends
    rw [hends.2]
    exact .next trivial rfl (.next trivial rfl (.next trivial rfl (.next trivial rfl
      (.one trivial rfl))))

end Single

/-- On either adaptor a call has the object to itself until another one enters, and calls
    that do not overlap are isolated. -/
theorem calls_handed (transaction : Transaction) (base_addr : BitVec 64)
    (m_tlm_gp : GenericPayload) : Handed Tlm2gsgp.transaction transaction ∧
      Handed (Gsgp2tlm.payload base_addr) m_tlm_gp :=
  ⟨handed _ transaction, handed _ m_tlm_gp⟩

def read (address : BitVec 64) : GenericPayload := ⟨.read, address, 0, 4, none, 0, .incomplete⟩

def busRead (address : BitVec 64) : Transaction :=
  ⟨.rd, address, ⟨0, 4⟩, 4, none, 0, .incomplete⟩

/-- Of two reads at different addresses the one that is suspended in its target is seen with
    the address of the other. -/
theorem overlapping_not_isolated :
    (¬ ∀ transaction as s, (Tlm2gsgp.transaction.machine transaction).Runs ⟨transaction, [], none⟩
      as s → Isolated Tlm2gsgp.transaction s) ∧
    ¬ ∀ base_addr m_tlm_gp as s, ((Gsgp2tlm.payload base_addr).machine m_tlm_gp).Runs
      ⟨m_tlm_gp, [], none⟩ as s → Isolated (Gsgp2tlm.payload base_addr) s := by
  constructor
  · intro hall
    have hne : Tlm2gsgp.transaction.own (read 0) ≠ Tlm2gsgp.transaction.own (read 4) := by decide
    exact not_isolated Tlm2gsgp.transaction (busRead 0) hne (hall _)
  · intro hall
    have hne : (Gsgp2tlm.payload 0).own (busRead 0) ≠ (Gsgp2tlm.payload 0).own (busRead 4) := by
      decide
    exact not_isolated (Gsgp2tlm.payload 0) (read 0) hne (hall 0 _)

end NvdlaVp.Adaptors
