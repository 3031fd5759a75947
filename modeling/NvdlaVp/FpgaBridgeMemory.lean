import NvdlaVp.FpgaBridge

set_option autoImplicit false

namespace NvdlaVp.FpgaBridge
open ByteMemory Gsgp

def flat : PciBar (Memory 64) where
  fpga_pci_poke m offset value := (0, m.store offset (byteOf value) 4)
  fpga_pci_poke8 m offset value := (0, m.store offset (fun _ => value) 1)
  fpga_pci_peek m offset _ := (0, (m.load offset).word, m)
  fpga_pci_peek8 m offset _ := (0, m offset, m)

structure Access where
  mCmd : MCmd
  addr : BitVec 64
  len : ℤ
  supported : len = 1 ∨ 0 < len ∧ len % 4 = 0 ∧ addr &&& 0x3 = 0
  int : len < 2 ^ 31
  inRange : addr.toNat + len ≤ 2 ^ 64

structure Call where
  access : Access
  p_data : Buffer

abbrev Answer := Except String Bool × Buffer

def Call.issue (c : Call) (m : Memory 64) : Answer × Memory 64 :=
  match c.access.mCmd with
  | .wr =>
    let (ret, m) := data_write flat c.access.addr c.p_data c.access.len m
    ((ret, c.p_data), m)
  | .rd =>
    let (ret, p_data, m) := data_read flat c.access.addr c.p_data c.access.len m
    ((ret, p_data), m)

def Call.expected (c : Call) (m : Memory 64) : Answer × Memory 64 :=
  match c.access.mCmd with
  | .wr => ((.ok false, c.p_data), m.store c.access.addr c.p_data c.access.len.toNat)
  | .rd => ((.ok false, c.p_data.put 0 (m.load c.access.addr) c.access.len.toNat), m)

def answers (f : Call → Memory 64 → Answer × Memory 64) :
    List Call → Memory 64 → List Answer × Memory 64
  | [], m => ([], m)
  | c :: cs, m => ((f c m).1 :: (answers f cs (f c m).2).1, (answers f cs (f c m).2).2)

theorem Access.shape (a : Access) : a.len = 1 ∨
    ∃ n : ℕ, 0 < n ∧ a.len = (4 * n : ℕ) ∧ 4 * n ≤ 2 ^ 64 ∧ a.addr &&& 0x3 = 0 := by
  rcases a.supported with h1 | ⟨hpos, hmod, halign⟩
  · exact Or.inl h1
  · have hrange := a.inRange
    refine Or.inr ⟨(a.len / 4).toNat, ?_, ?_, ?_, halign⟩ <;> omega

theorem Access.wellShaped (a : Access) : ¬ Misshapen a.addr a.len := by
  rintro ⟨hlen, hbad⟩
  rcases a.supported with h1 | ⟨_, hmod, halign⟩
  · omega
  · exact hbad.elim (fun h => h hmod) (fun h => h halign)

theorem writeLoop_words (addr : BitVec 64) (p_data : Buffer) (n index : ℕ) (ret : Bool)
    (m : Memory 64) (hn : 4 * n ≤ 2 ^ 64) :
    writeLoop flat addr p_data (4 * n) index ret m = (ret && decide (n = 0),
      m.store (addr + BitVec.ofNat 64 index) (p_data.drop index) (4 * n)) := by
  induction n generalizing index ret m with
  | zero => simp [writeLoop]
  | succ n ih =>
    have hword : m.store (addr + BitVec.ofNat 64 index) (byteOf (p_data.drop index).word) 4 =
        m.store (addr + BitVec.ofNat 64 index) (p_data.drop index) 4 :=
      store_congr m _ fun i hi => byteOf_word _ hi
    have hnext : addr + BitVec.ofNat 64 (index + 4) =
        addr + BitVec.ofNat 64 index + BitVec.ofNat 64 4 := by
      rw [BitVec.ofNat_add, BitVec.add_assoc]
    rw [show 4 * (n + 1) = 4 * n + 4 by omega]
    simp only [writeLoop, flat]
    have hrest := ih (index + 4) (ret && failed 0) (m.store (addr + BitVec.ofNat 64 index)
      (byteOf (p_data.drop index).word) 4) (by omega)
    simp only [flat] at hrest
    rw [hrest, hword, hnext, ← drop_drop, store_append m _ _ (by omega), Nat.add_comm 4]
    simp [failed]

theorem writeLoop_byte (addr : BitVec 64) (p_data : Buffer) (m : Memory 64) :
    writeLoop flat addr p_data 1 0 true m = (false, m.store addr p_data 1) := by
  have hbyte : m.store addr (fun _ => p_data 0) 1 = m.store addr p_data 1 :=
    store_congr m addr fun i hi => by rw [Nat.lt_one_iff.mp hi]
  simp [writeLoop, flat, failed, hbyte]

theorem issue_write (c : Call) (m : Memory 64) (hw : c.access.mCmd = .wr) :
    c.issue m = c.expected m := by
  simp only [Call.issue, Call.expected, hw, data_write, if_neg c.access.wellShaped]
  rcases c.access.shape with h1 | ⟨n, hpos, hlen, hn, _⟩
  · rw [h1]
    simp only [Int.toNat_one, writeLoop_byte]
  · simp only [hlen, Int.toNat_natCast, writeLoop_words _ _ n 0 true m hn, drop_zero,
      BitVec.add_zero, decide_eq_false (Nat.pos_iff_ne_zero.mp hpos), Bool.and_false]

def peeked (m : Memory 64) (addr : BitVec 64) : Buffer :=
  fun i => m (peekOffset addr (i - i % 4) + BitVec.ofNat 64 (i % 4))

theorem readLoop_words (addr : BitVec 64) (n index : ℕ) (ret : Bool) (p_data : Buffer)
    (m : Memory 64) (hi : index % 4 = 0) :
    readLoop flat addr (4 * n) index ret p_data m = (ret && decide (n = 0),
      p_data.put index ((peeked m addr).drop index) (4 * n), m) := by
  induction n generalizing index ret p_data with
  | zero => simp [readLoop]
  | succ n ih =>
    have hword : p_data.put index (byteOf (m.load (peekOffset addr index)).word) 4 =
        p_data.put index ((peeked m addr).drop index) 4 := by
      refine put_congr p_data index fun i hi => ?_
      rw [byteOf_word _ hi, Buffer.drop, peeked, show (index + i) % 4 = i by omega,
        Nat.add_sub_cancel]
      rfl
    rw [show 4 * (n + 1) = 4 * n + 4 by omega]
    simp only [readLoop, flat]
    have hrest := ih (index + 4) (ret && failed 0)
      (p_data.put index (byteOf (m.load (peekOffset addr index)).word) 4) (by omega)
    simp only [flat] at hrest
    rw [hrest, hword, ← drop_drop, put_append, Nat.add_comm 4]
    simp [failed]

theorem readLoop_byte (addr : BitVec 64) (p_data : Buffer) (m : Memory 64) :
    readLoop flat addr 1 0 true p_data m = (false, p_data.put 0 (m.load addr) 1, m) := by
  have hbyte : p_data.put 0 (fun _ => m addr) 1 = p_data.put 0 (m.load addr) 1 :=
    put_congr p_data 0 fun i hi => by simp [Nat.lt_one_iff.mp hi, Memory.load]
  simp [readLoop, flat, failed, hbyte]

theorem issue_read_words (c : Call) (m : Memory 64) (hr : c.access.mCmd = .rd) {n : ℕ}
    (hpos : 0 < n) (hlen : c.access.len = (4 * n : ℕ)) :
    c.issue m = ((.ok false, c.p_data.put 0 (peeked m c.access.addr) (4 * n)), m) := by
  simp only [Call.issue, hr, data_read, if_neg c.access.wellShaped]
  simp only [hlen, Int.toNat_natCast, readLoop_words _ n 0 true c.p_data m rfl, drop_zero,
    decide_eq_false (Nat.pos_iff_ne_zero.mp hpos), Bool.and_false]

theorem toNat_mod_of_aligned {x : BitVec 64} (h : x &&& 0x3 = 0) : x.toNat % 4 = 0 := by
  have hx := congrArg BitVec.toNat h
  rw [BitVec.toNat_and] at hx
  rwa [← Nat.and_two_pow_sub_one_eq_mod x.toNat 2]

theorem testBit_mask (i : ℕ) : (0xfffffffc : ℕ).testBit i = decide (2 ≤ i ∧ i < 32) := by
  by_cases hi : i < 32
  · have hall : ∀ i < 32, (0xfffffffc : ℕ).testBit i = decide (2 ≤ i ∧ i < 32) := by decide
    exact hall i hi
  · have hpow : 2 ^ 32 ≤ 2 ^ i := Nat.pow_le_pow_right (by decide) (not_lt.mp hi)
    rw [Nat.testBit_lt_two_pow (by omega), decide_eq_false (by omega)]

theorem and_mask_self {x : BitVec 64} (hmod : x.toNat % 4 = 0) (hlow : x.toNat < 2 ^ 32) :
    x &&& 0xfffffffc = x := by
  refine BitVec.eq_of_toNat_eq (Nat.eq_of_testBit_eq fun i => ?_)
  have hmask : (0xfffffffc : BitVec 64).toNat = 0xfffffffc := rfl
  rw [BitVec.toNat_and, Nat.testBit_and, hmask, testBit_mask]
  by_cases hi : i < 32
  · by_cases h2 : 2 ≤ i
    · rw [decide_eq_true ⟨h2, hi⟩, Bool.and_true]
    · have hbit := Nat.testBit_mod_two_pow x.toNat 2 i
      rw [show x.toNat % 2 ^ 2 = 0 from hmod, Nat.zero_testBit, decide_eq_true (by omega),
        Bool.true_and] at hbit
      rw [← hbit, Bool.false_and]
  · have hpow : 2 ^ 32 ≤ 2 ^ i := Nat.pow_le_pow_right (by decide) (not_lt.mp hi)
    rw [Nat.testBit_lt_two_pow (by omega), Bool.false_and]

theorem and_mask_lt (x : BitVec 64) : (x &&& 0xfffffffc).toNat < 2 ^ 32 := by
  rw [BitVec.toNat_and]
  exact lt_of_le_of_lt Nat.and_le_right (by decide)

def Access.Low (a : Access) : Prop := a.mCmd = .rd → 4 ≤ a.len → a.addr.toNat + a.len ≤ 2 ^ 32

theorem toNat_add_of_lt {x : BitVec 64} {i : ℕ} (h : x.toNat + i < 2 ^ 64) :
    (x + BitVec.ofNat 64 i).toNat = x.toNat + i := by
  rw [BitVec.toNat_add, BitVec.toNat_ofNat, Nat.add_mod_mod, Nat.mod_eq_of_lt h]

theorem peeked_of_low (m : Memory 64) {addr : BitVec 64} {n i : ℕ} (halign : addr &&& 0x3 = 0)
    (hlow : addr.toNat + 4 * n ≤ 2 ^ 32) (hi : i < 4 * n) :
    peeked m addr i = m.load addr i := by
  have hmod := toNat_mod_of_aligned halign
  have hnat : (addr + BitVec.ofNat 64 (i - i % 4)).toNat = addr.toNat + (i - i % 4) :=
    toNat_add_of_lt (by omega)
  rw [peeked, peekOffset, and_mask_self (by omega) (by omega), BitVec.add_assoc,
    ← BitVec.ofNat_add, Nat.sub_add_cancel (Nat.mod_le i 4)]
  rfl

theorem issue_of_low (c : Call) (m : Memory 64) (hlow : c.access.Low) :
    c.issue m = c.expected m := by
  cases hcmd : c.access.mCmd with
  | wr => exact issue_write c m hcmd
  | rd =>
    rcases c.access.shape with h1 | ⟨n, hpos, hlen, hn, halign⟩
    · simp only [Call.issue, Call.expected, hcmd, data_read, if_neg c.access.wellShaped]
      simp only [h1, Int.toNat_one, readLoop_byte]
    · have hle := hlow hcmd (by omega)
      have hput : c.p_data.put 0 (peeked m c.access.addr) (4 * n) =
          c.p_data.put 0 (m.load c.access.addr) (4 * n) :=
        put_congr _ _ fun i hi => peeked_of_low m halign (by omega) hi
      rw [issue_read_words c m hcmd hpos hlen, hput, Call.expected]
      simp only [hcmd, hlen, Int.toNat_natCast]

theorem answers_of_low (calls : List Call) (m : Memory 64)
    (hlow : ∀ c ∈ calls, c.access.Low) :
    answers Call.issue calls m = answers Call.expected calls m := by
  induction calls generalizing m with
  | nil => rfl
  | cons c cs ih =>
    have hc := issue_of_low c m (hlow c List.mem_cons_self)
    rw [answers, answers, hc, ih _ fun d hd => hlow d (List.mem_cons_of_mem c hd)]

def Access.still (m : Memory 64) (a : Access) : Call := ⟨a, m.load a.addr⟩

theorem expected_still (m : Memory 64) (a : Access) : ((a.still m).expected m).2 = m := by
  cases hcmd : a.mCmd <;> simp [Call.expected, Access.still, hcmd, store_self]

theorem issue_memory (c : Call) (m : Memory 64) : (c.issue m).2 = (c.expected m).2 := by
  cases hcmd : c.access.mCmd with
  | wr => rw [issue_write c m hcmd]
  | rd =>
    rcases c.access.shape with h1 | ⟨n, hpos, hlen, _⟩
    · rw [issue_of_low c m fun _ hlen => by omega]
    · simp only [issue_read_words c m hcmd hpos hlen, Call.expected, hcmd]

theorem issue_still_of_answers {m : Memory 64} {accesses : List Access}
    (h : answers Call.issue (accesses.map (Access.still m)) m =
      answers Call.expected (accesses.map (Access.still m)) m) :
    ∀ a ∈ accesses, (a.still m).issue m = (a.still m).expected m := by
  induction accesses with
  | nil => simp
  | cons b bs ih =>
    simp only [List.map_cons, answers, issue_memory, expected_still, Prod.mk.injEq,
      List.cons.injEq] at h
    obtain ⟨⟨hb, hbs⟩, hm⟩ := h
    intro a ha
    rcases List.mem_cons.mp ha with rfl | ha
    · exact Prod.ext hb (issue_memory _ m)
    · exact ih (Prod.ext hbs hm) a ha

def marked (mark : BitVec 64) : Memory 64 := fun a => if a = mark then 1 else 0

/-- A read of words that passes four gigabytes reads its last word at a low offset. -/
theorem issue_ne_of_high (a : Access) (hhigh : ¬ a.Low) :
    ∃ m, (a.still m).issue m ≠ (a.still m).expected m := by
  simp only [Access.Low, not_forall, not_le] at hhigh
  obtain ⟨hr, h4, hhigh⟩ := hhigh
  rcases a.shape with h1 | ⟨n, hpos, hlen, hn, halign⟩
  · omega
  have hrange := a.inRange
  have hmod := toNat_mod_of_aligned halign
  have hlast : (a.addr + BitVec.ofNat 64 (4 * n - 4)).toNat = a.addr.toNat + (4 * n - 4) :=
    toNat_add_of_lt (by omega)
  refine ⟨marked (a.addr + BitVec.ofNat 64 (4 * n - 4)), fun heq => ?_⟩
  rw [issue_read_words (a.still _) _ hr hpos hlen, Call.expected] at heq
  simp only [Access.still, hr, hlen, Int.toNat_natCast, Prod.mk.injEq, and_true, true_and] at heq
  have hbyte := congrFun heq (4 * n - 4)
  have hin : 0 ≤ 4 * n - 4 ∧ 4 * n - 4 < 0 + 4 * n := by omega
  have hoff : (4 * n - 4) % 4 = 0 := by omega
  simp only [Buffer.put, if_pos hin, peeked, peekOffset, Nat.sub_zero, hoff, Memory.load, marked,
    if_true, BitVec.add_zero] at hbyte
  have hne : (a.addr + BitVec.ofNat 64 (4 * n - 4)) &&& 0xfffffffc ≠
      a.addr + BitVec.ofNat 64 (4 * n - 4) := by
    intro h
    have hlt := and_mask_lt (a.addr + BitVec.ofNat 64 (4 * n - 4))
    rw [h, hlast] at hlt
    omega
  rw [if_neg hne] at hbyte
  exact absurd hbyte (by decide)

/-- The bridge answers every sequence of calls with given accesses as a flat byte memory
    does, whatever the data, exactly when each read of words stays below four gigabytes. -/
theorem flatMemory_exactly (accesses : List Access) :
    (∀ m calls, calls.map Call.access = accesses →
      answers Call.issue calls m = answers Call.expected calls m) ↔
    ∀ a ∈ accesses, a.Low := by
  constructor
  · intro hall a ha
    by_contra hhigh
    obtain ⟨m, hne⟩ := issue_ne_of_high a hhigh
    have haccess : (accesses.map (Access.still m)).map Call.access = accesses := by
      simp [Function.comp_def, Access.still]
    exact hne (issue_still_of_answers (hall m _ haccess) a ha)
  · rintro hlow m calls rfl
    refine answers_of_low calls m fun c hc => hlow c.access ?_
    exact List.mem_map_of_mem hc

def highWord (mCmd : MCmd) : Access where
  mCmd := mCmd
  addr := 0x100000000
  len := 4
  supported := by decide
  int := by decide
  inRange := by decide

theorem highWord_misread : ¬ ∀ calls m,
    answers Call.issue calls m = answers Call.expected calls m := by
  intro hall
  have h := hall [⟨highWord .wr, fun _ => 1⟩, ⟨highWord .rd, fun _ => 0⟩] fun _ => 0
  have hread := congrArg (fun r => r.1.map fun answer => answer.2 0) h
  exact absurd hread (by decide)

end NvdlaVp.FpgaBridge
