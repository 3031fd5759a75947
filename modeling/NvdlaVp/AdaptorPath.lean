import NvdlaVp.Adaptors

set_option autoImplicit false

namespace NvdlaVp.Adaptors
open ByteMemory Gsgp
variable {ω : Type*}

def path (name : String) (throws : Bool) (target : Target ω) (transaction : Transaction)
    (g : Gsgp2tlm) (tlm_gp : GenericPayload) (w : ω) :
    Tlm2gsgp.Transported (Gsgp2tlm × ω) :=
  Tlm2gsgp.b_transport name throws (fun t gw => Gsgp2tlm.b_transact throws target t gw.1 gw.2)
    transaction tlm_gp (g, w)

def passed (g : Gsgp2tlm) (transaction : Transaction) (tlm_gp : GenericPayload) :
    GenericPayload :=
  g.issued (Tlm2gsgp.fill tlm_gp transaction)

def rebased (g : Gsgp2tlm) (tlm_gp : GenericPayload) : GenericPayload :=
  { tlm_gp with address := tlm_gp.address - g.base_addr }

def memory (status : GenericPayload → ResponseStatus) : Target (Memory 64 × Heap) :=
  fun p w => (status p, p.apply w.1 w.2)

variable {g : Gsgp2tlm} {transaction : Transaction} {tlm_gp : GenericPayload}

theorem passed_enabled (i : ℕ) : (passed g transaction tlm_gp).enabled i = true := by
  have hptr : (passed g transaction tlm_gp).byte_enable_ptr = none := g.byte_enable_ptr
  rw [GenericPayload.enabled, hptr]

structure SameRequest (p q : GenericPayload) : Prop where
  command : p.command = q.command
  address : p.address = q.address
  data_ptr : p.data_ptr = q.data_ptr
  data_length : p.data_length = q.data_length

theorem passed_rebased (hc : tlm_gp.command ≠ .ignore) :
    SameRequest (passed g transaction tlm_gp) (rebased g tlm_gp) := by
  refine ⟨?_, rfl, rfl, rfl⟩
  cases h : tlm_gp.command <;>
    simp_all [passed, rebased, Gsgp2tlm.issued, Gsgp2tlm.fill, Tlm2gsgp.fill]

theorem SameRequest.sameAccess (h : SameRequest (passed g transaction tlm_gp) (rebased g tlm_gp))
    (he : tlm_gp.AllEnabled) :
    (passed g transaction tlm_gp).SameAccess (rebased g tlm_gp) := by
  refine ⟨h.command, h.address, h.data_ptr, h.data_length, fun i hi => ?_⟩
  rw [passed_enabled]
  exact (he i hi).symm

/-- How the path ends for its caller once the target has answered with `status`: with the
    report of the slave, or with the status written into the payload. -/
def Ends (throws : Bool) (g : Gsgp2tlm) (issued tlm_gp : GenericPayload)
    (status : ResponseStatus) (e : Tlm2gsgp.Transported ω) : Prop :=
  if throws = true ∧ status ≠ .ok then
    e.exit = .error ⟨g.name, { issued with response_status := status }⟩ ∧ e.tlm_gp = tlm_gp
  else e.exit = .ok () ∧ e.tlm_gp = { tlm_gp with response_status := status }

theorem path_world (name : String) (throws : Bool) (target : Target ω) (w : ω) :
    (path name throws target transaction g tlm_gp w).world.2 =
      (target (passed g transaction tlm_gp) w).2 := by
  rw [path, Tlm2gsgp.b_transport_world]
  rfl

theorem path_ends (name : String) (throws : Bool) (target : Target ω) (w : ω) :
    Ends throws g (passed g transaction tlm_gp) tlm_gp
      (target (passed g transaction tlm_gp) w).1
      (path name throws target transaction g tlm_gp w) := by
  have hpassed : passed g transaction tlm_gp = g.issued (Tlm2gsgp.fill tlm_gp transaction) := rfl
  unfold Ends path Tlm2gsgp.b_transport Gsgp2tlm.b_transact
  rw [hpassed]
  by_cases hok : (target (g.issued (Tlm2gsgp.fill tlm_gp transaction)) w).1 = .ok
  · simp [hok, checkResponse]
  · cases throws <;> simp [hok, checkResponse, SC_REPORT_ERROR]

/-- A read or write passes with its command, its rebased address, its buffer and its
    length, and its caller gets the status of the target unless the report of an error
    throws. With all its bytes enabled it has on a memory the effect of the original. -/
theorem path_transparent (name : String) (throws : Bool) (transaction : Transaction)
    (g : Gsgp2tlm) (tlm_gp : GenericPayload) (hc : tlm_gp.command ≠ .ignore) :
    SameRequest (passed g transaction tlm_gp) (rebased g tlm_gp) ∧
    (∀ (target : Target ω) w, Ends throws g (passed g transaction tlm_gp) tlm_gp
      (target (passed g transaction tlm_gp) w).1
      (path name throws target transaction g tlm_gp w)) ∧
    (tlm_gp.AllEnabled → ∀ status m heap,
      (path name throws (memory status) transaction g tlm_gp (m, heap)).world.2 =
        (rebased g tlm_gp).apply m heap) := by
  have hsame : SameRequest (passed g transaction tlm_gp) (rebased g tlm_gp) := passed_rebased hc
  refine ⟨hsame, fun target w => path_ends name throws target w, fun he status m heap => ?_⟩
  rw [path_world]
  exact (hsame.sameAccess he).apply m heap

def csb_adaptor : Gsgp2tlm where
  name := "csb_adaptor"
  base_addr := 0x10200000
  m_tlm_gp := ⟨.ignore, 0, 0, 0, none, 0, .incomplete⟩
  byte_enable_ptr := rfl

def created : Transaction := ⟨.rd, 0, ⟨0, 0⟩, 0, none, 0, .incomplete⟩

def writeTwo (be : Buffer) : GenericPayload :=
  ⟨.write, 0x10200010, 0, 2, some be, 2, .incomplete⟩

theorem path_transparent_write :
    SameRequest (passed csb_adaptor created (writeTwo fun _ => 0xff))
      (rebased csb_adaptor (writeTwo fun _ => 0xff)) ∧
    (path "dbb_adaptor" true (memory fun _ => .ok) created csb_adaptor (writeTwo fun _ => 0xff)
      (fun _ => 0, fun _ _ => 7)).world.2 =
      (rebased csb_adaptor (writeTwo fun _ => 0xff)).apply (fun _ => 0) fun _ _ => 7 := by
  obtain ⟨hsame, _, hmemory⟩ := @path_transparent Unit "dbb_adaptor" true created csb_adaptor
    (writeTwo fun _ => 0xff) (by decide)
  exact ⟨hsame, hmemory (fun _ _ => rfl) (fun _ => .ok) (fun _ => 0) fun _ _ => 7⟩

theorem disabled_byte_written : ¬ ∀ (name : String) (throws : Bool) (transaction : Transaction)
    (g : Gsgp2tlm) (tlm_gp : GenericPayload), tlm_gp.command ≠ .ignore →
    ∀ status m heap,
      (path name throws (memory status) transaction g tlm_gp (m, heap)).world.2 =
        (rebased g tlm_gp).apply m heap := by
  intro hall
  have h := hall "dbb_adaptor" true created csb_adaptor
    (writeTwo fun i => if i = 0 then 0xff else 0) (by decide) (fun _ => .ok) (fun _ => 0)
    fun _ _ => 7
  rw [path_world] at h
  exact absurd (congrFun (congrArg Prod.fst h) 0x11) (by decide)

end NvdlaVp.Adaptors
