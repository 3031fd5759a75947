import NvdlaVp.FpgaBridgeMemory

set_option autoImplicit false

namespace NvdlaVp.FpgaBridge
open ByteMemory Gsgp
variable {δ : Type*}

/-- The BAR whose access number `k`, counted in the state, answers `codes k`. -/
def scripted (codes : ℕ → ℤ) (bar : PciBar δ) : PciBar (ℕ × δ) where
  fpga_pci_poke d offset value :=
    (codes d.1, d.1 + 1, (bar.fpga_pci_poke d.2 offset value).2)
  fpga_pci_poke8 d offset value :=
    (codes d.1, d.1 + 1, (bar.fpga_pci_poke8 d.2 offset value).2)
  fpga_pci_peek d offset old :=
    let (_, value, rest) := bar.fpga_pci_peek d.2 offset old
    (codes d.1, value, d.1 + 1, rest)
  fpga_pci_peek8 d offset old :=
    let (_, value, rest) := bar.fpga_pci_peek8 d.2 offset old
    (codes d.1, value, d.1 + 1, rest)

def Unsupported (addr : BitVec 64) (n : ℕ) : Prop :=
  n = 2 ∨ n = 3 ∨ 4 < n ∧ n % 4 ≠ 0 ∨ 4 ≤ n ∧ addr &&& 0x3 ≠ 0

instance (addr : BitVec 64) (n : ℕ) : Decidable (Unsupported addr n) :=
  inferInstanceAs (Decidable (_ ∨ _ ∨ _ ∨ _))

/-- The accesses of a supported transaction of `n` bytes: one byte, or words. -/
def accessCount (n : ℕ) : ℕ := if n = 1 then 1 else n / 4

def allFailed (codes : ℕ → ℤ) : ℕ → ℕ → Bool
  | _, 0 => true
  | k, m + 1 => failed (codes k) && allFailed codes (k + 1) m

theorem allFailed_iff (codes : ℕ → ℤ) (k m : ℕ) :
    allFailed codes k m = true ↔ ∀ i, k ≤ i → i < k + m → codes i ≠ 0 := by
  induction m generalizing k with
  | zero =>
    simp only [allFailed, true_iff]
    intro i hlo hhi
    omega
  | succ m ih =>
    simp only [allFailed, Bool.and_eq_true, ih, failed, decide_eq_true_eq]
    constructor
    · rintro ⟨hk, hrest⟩ i hlo hhi
      rcases Nat.eq_or_lt_of_le hlo with rfl | hlt
      · exact hk
      · exact hrest i hlt (by omega)
    · intro hall
      exact ⟨hall k le_rfl (by omega), fun i hlo hhi => hall i (by omega) (by omega)⟩

variable (bar : PciBar δ) (codes : ℕ → ℤ) {addr : BitVec 64}

theorem writeLoop_scripted (addr : BitVec 64) (p_data : Buffer) (m index k : ℕ) (ret : Bool)
    (d : δ) :
    ∃ d', writeLoop (scripted codes bar) addr p_data (4 * m) index ret (k, d) =
      (ret && allFailed codes k m, k + m, d') := by
  induction m generalizing index k ret d with
  | zero => exact ⟨d, by simp [writeLoop, allFailed]⟩
  | succ m ih =>
    obtain ⟨d', hrest⟩ := ih (index + 4) (k + 1) (ret && failed (codes k))
      (bar.fpga_pci_poke d (addr + BitVec.ofNat 64 index) (p_data.drop index).word).2
    refine ⟨d', ?_⟩
    rw [show 4 * (m + 1) = 4 * m + 4 by omega]
    simp only [writeLoop]
    rw [show k + (m + 1) = k + 1 + m by omega, allFailed, ← Bool.and_assoc]
    exact hrest

theorem readLoop_scripted (addr : BitVec 64) (p_data : Buffer) (m index k : ℕ) (ret : Bool)
    (d : δ) :
    ∃ p_data' d', readLoop (scripted codes bar) addr (4 * m) index ret p_data (k, d) =
      (ret && allFailed codes k m, p_data', k + m, d') := by
  induction m generalizing index k ret p_data d with
  | zero => exact ⟨p_data, d, by simp [readLoop, allFailed]⟩
  | succ m ih =>
    obtain ⟨p_data', d', hrest⟩ := ih _ (index + 4) (k + 1) (ret && failed (codes k)) _
    refine ⟨p_data', d', ?_⟩
    rw [show 4 * (m + 1) = 4 * m + 4 by omega]
    simp only [readLoop]
    rw [show k + (m + 1) = k + 1 + m by omega, allFailed, ← Bool.and_assoc]
    exact hrest

theorem shape_of_supported {n : ℕ} (hn : 1 ≤ n) (h : ¬ Unsupported addr n) :
    ¬ Misshapen addr n ∧ (n = 1 ∨ n = 4 * accessCount n) := by
  unfold Unsupported at h
  push Not at h
  obtain ⟨h2, h3, hmod, halign⟩ := h
  refine ⟨?_, ?_⟩
  · rintro ⟨hlen, hbad⟩
    rcases hbad with hbad | hbad
    · have := hmod (by omega)
      omega
    · exact hbad (halign (by omega))
  · unfold accessCount
    split <;> omega

theorem data_write_scripted {n : ℕ} (hn : 1 ≤ n) (h : ¬ Unsupported addr n) (p_data : Buffer)
    (d : δ) : ∃ d', data_write (scripted codes bar) addr p_data n (0, d) =
      (.ok (allFailed codes 0 (accessCount n)), accessCount n, d') := by
  obtain ⟨hshape, hone | hwords⟩ := shape_of_supported hn h
  · subst hone
    exact ⟨_, by simp [data_write, writeLoop, scripted, accessCount, allFailed]; rfl⟩
  · obtain ⟨d', hloop⟩ := writeLoop_scripted bar codes addr p_data (accessCount n) 0 0 true d
    refine ⟨d', ?_⟩
    rw [← hwords, Bool.true_and, Nat.zero_add] at hloop
    simp [data_write, hshape, hloop]

theorem data_read_scripted {n : ℕ} (hn : 1 ≤ n) (h : ¬ Unsupported addr n) (p_data : Buffer)
    (d : δ) : ∃ p_data' d', data_read (scripted codes bar) addr p_data n (0, d) =
      (.ok (allFailed codes 0 (accessCount n)), p_data', accessCount n, d') := by
  obtain ⟨hshape, hone | hwords⟩ := shape_of_supported hn h
  · subst hone
    exact ⟨_, _, by simp [data_read, readLoop, scripted, accessCount, allFailed]; rfl⟩
  · obtain ⟨p_data', d', hloop⟩ :=
      readLoop_scripted bar codes addr p_data (accessCount n) 0 0 true d
    refine ⟨p_data', d', ?_⟩
    rw [← hwords, Bool.true_and, Nat.zero_add] at hloop
    simp [data_read, hshape, hloop]

theorem short_of_unsupported {n : ℕ} (h : Unsupported addr n) (hshape : ¬ Misshapen addr n) :
    n = 2 ∨ n = 3 := by
  rcases h with rfl | rfl | ⟨hlt, hmod⟩ | ⟨hle, halign⟩
  · exact .inl rfl
  · exact .inr rfl
  · exact absurd ⟨by omega, .inl (by omega)⟩ hshape
  · exact absurd ⟨by omega, .inr halign⟩ hshape

/-- `SC_REPORT_ERROR` is called, by the loops' caller or already by their function. -/
def Failure (ret : Except String Bool) : Prop := ret = .ok true ∨ ∃ e, ret = .error e

theorem data_write_unsupported {n : ℕ} (h : Unsupported addr n) (p_data : Buffer) (d : δ) :
    ∃ ret, data_write bar addr p_data n d = (ret, d) ∧ Failure ret := by
  by_cases hshape : Misshapen addr n
  · exact ⟨_, by rw [data_write, if_pos hshape], .inr ⟨_, rfl⟩⟩
  · rw [data_write, if_neg hshape]
    rcases short_of_unsupported h hshape with rfl | rfl <;> exact ⟨_, rfl, .inl rfl⟩

theorem data_read_unsupported {n : ℕ} (h : Unsupported addr n) (p_data : Buffer) (d : δ) :
    ∃ ret, data_read bar addr p_data n d = (ret, p_data, d) ∧ Failure ret := by
  by_cases hshape : Misshapen addr n
  · exact ⟨_, by rw [data_read, if_pos hshape], .inr ⟨_, rfl⟩⟩
  · rw [data_read, if_neg hshape]
    rcases short_of_unsupported h hshape with rfl | rfl <;> exact ⟨_, rfl, .inl rfl⟩

structure Attempt (δ : Type*) where
  bridge : Gsgp2fpga
  bar : PciBar δ
  codes : ℕ → ℤ
  mCmd : MCmd
  mAddr : BitVec 64
  mData : Buffer
  size : BitVec 32
  device : δ

namespace Attempt
variable (t : Attempt δ)

def address : BitVec 64 := t.mAddr - t.bridge.base_addr + t.bridge.addr_offset

def run : Except String Unit × Buffer × ℕ × δ :=
  b_transact t.bridge (scripted t.codes t.bar) t.mCmd t.mAddr t.mData t.size (0, t.device)

def accesses : ℕ := t.run.2.2.1

def Raises : Prop := ∃ e, t.run.1 = .error e

/-- An error is raised exactly if an access made fails or the shape is unsupported, and no
    access is made for an unsupported shape. -/
def ErrorsExact : Prop :=
  (t.Raises ↔ (∃ k < t.accesses, t.codes k ≠ 0) ∨ Unsupported t.address t.size.toNat) ∧
  (Unsupported t.address t.size.toNat → t.accesses = 0)

/-- The accesses, if there are any, all succeed or all fail. -/
def Uniform : Prop :=
  Unsupported t.address t.size.toNat ∨
  (∀ k < accessCount t.size.toNat, t.codes k = 0) ∨
  (∀ k < accessCount t.size.toNat, t.codes k ≠ 0)

variable {t}

theorem size_positive (hlo : 1 ≤ t.size.toNat) (hhi : t.size.toNat < 2 ^ 31) :
    t.size.toInt = (t.size.toNat : ℤ) ∧ t.size ≠ 0 := by
  refine ⟨BitVec.toInt_eq_toNat_of_lt (by omega), ?_⟩
  intro hzero
  rw [hzero] at hlo
  exact absurd hlo (by decide)

theorem run_supported (hlo : 1 ≤ t.size.toNat) (hhi : t.size.toNat < 2 ^ 31)
    (h : ¬ Unsupported t.address t.size.toNat) :
    t.accesses = accessCount t.size.toNat ∧
      (t.Raises ↔ ∀ k < accessCount t.size.toNat, t.codes k ≠ 0) := by
  obtain ⟨hint, hsize⟩ := size_positive hlo hhi
  have hall : allFailed t.codes 0 (accessCount t.size.toNat) = true ↔
      ∀ k < accessCount t.size.toNat, t.codes k ≠ 0 := by
    simp [allFailed_iff]
  rw [← hall]
  cases hcmd : t.mCmd with
  | wr =>
    obtain ⟨d', hwrite⟩ := data_write_scripted t.bar t.codes hlo h t.mData t.device
    rw [address] at hwrite
    simp only [accesses, Raises, run, b_transact, hcmd, hsize, hint, hwrite, if_false]
    split <;> simp_all
  | rd =>
    obtain ⟨p_data', d', hread⟩ := data_read_scripted t.bar t.codes hlo h t.mData t.device
    rw [address] at hread
    simp only [accesses, Raises, run, b_transact, hcmd, hsize, hint, hread, if_false]
    split <;> simp_all

theorem run_unsupported (hlo : 1 ≤ t.size.toNat) (hhi : t.size.toNat < 2 ^ 31)
    (h : Unsupported t.address t.size.toNat) : t.accesses = 0 ∧ t.Raises := by
  obtain ⟨hint, hsize⟩ := size_positive hlo hhi
  cases hcmd : t.mCmd with
  | wr =>
    obtain ⟨ret, hwrite, hret⟩ :=
      data_write_unsupported (scripted t.codes t.bar) h t.mData (0, t.device)
    rw [address] at hwrite
    simp only [accesses, Raises, run, b_transact, hcmd, hsize, hint, hwrite, if_false]
    rcases hret with rfl | ⟨e, rfl⟩ <;> simp
  | rd =>
    obtain ⟨ret, hread, hret⟩ :=
      data_read_unsupported (scripted t.codes t.bar) h t.mData (0, t.device)
    rw [address] at hread
    simp only [accesses, Raises, run, b_transact, hcmd, hsize, hint, hread, if_false]
    rcases hret with rfl | ⟨e, rfl⟩ <;> simp

theorem accessCount_pos {n : ℕ} {addr : BitVec 64} (hn : 1 ≤ n) (h : ¬ Unsupported addr n) :
    0 < accessCount n := by
  obtain ⟨_, rfl | hwords⟩ := shape_of_supported hn h
  · decide
  · omega

/-- Errors are reported exactly if and only if no accesses of a supported transaction fail
    beside others that succeed. -/
theorem errors_exactly (t : Attempt δ) (hlo : 1 ≤ t.size.toNat) (hhi : t.size.toNat < 2 ^ 31) :
    t.ErrorsExact ↔ t.Uniform := by
  by_cases h : Unsupported t.address t.size.toNat
  · obtain ⟨hnone, hraises⟩ := run_unsupported hlo hhi h
    exact ⟨fun _ => .inl h, fun _ => ⟨⟨fun _ => .inr h, fun _ => hraises⟩, fun _ => hnone⟩⟩
  · obtain ⟨hcount, hraises⟩ := run_supported hlo hhi h
    have hpos := accessCount_pos hlo h
    unfold ErrorsExact Uniform
    rw [hcount, hraises]
    simp only [h, or_false, false_or, false_implies, and_true]
    constructor
    · rintro ⟨_, hany⟩
      by_cases hex : ∃ k < accessCount t.size.toNat, t.codes k ≠ 0
      · exact .inr (hany hex)
      · exact .inl fun k hk => by_contra fun hne => hex ⟨k, hk, hne⟩
    · rintro (hzero | hall)
      · refine ⟨fun hall => absurd (hzero 0 hpos) (hall 0 hpos), ?_⟩
        rintro ⟨k, hk, hne⟩
        exact absurd (hzero k hk) hne
      · exact ⟨fun _ => ⟨0, hpos, hall 0 hpos⟩, fun _ => hall⟩

def twoWords (codes : ℕ → ℤ) : Attempt (Memory 64) where
  bridge := ⟨0, 0⟩
  bar := flat
  codes := codes
  mCmd := .wr
  mAddr := 0
  mData := fun _ => 0
  size := 8
  device := fun _ => 0

theorem errors_exactly_twoWords : (twoWords fun _ => -1).ErrorsExact :=
  (errors_exactly _ (by decide) (by decide)).mpr (.inr (.inr fun _ _ => (by decide : (-1 : ℤ) ≠ 0)))

theorem failed_word_unreported : ¬ ∀ t : Attempt (Memory 64), 1 ≤ t.size.toNat →
    t.size.toNat < 2 ^ 31 → t.ErrorsExact := by
  intro hall
  obtain ⟨⟨_, hraises⟩, _⟩ := hall (twoWords fun k => if k = 1 then -1 else 0) (by decide)
    (by decide)
  obtain ⟨hcount, hiff⟩ := run_supported (t := twoWords fun k => if k = 1 then -1 else 0)
    (by decide) (by decide) (by decide)
  have hfail := hraises (.inl ⟨1, by rw [hcount]; decide, by decide⟩)
  exact absurd (hiff.mp hfail 0 (by decide)) (by decide)

end Attempt
end NvdlaVp.FpgaBridge
