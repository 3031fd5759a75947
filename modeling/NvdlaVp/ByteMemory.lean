import Mathlib.Tactic.IntervalCases

set_option autoImplicit false

namespace NvdlaVp.ByteMemory
variable {w : ℕ}

abbrev Memory (w : ℕ) := BitVec w → BitVec 8

abbrev Buffer := ℕ → BitVec 8

def Memory.store (m : Memory w) (addr : BitVec w) (data : Buffer) (len : ℕ) : Memory w :=
  fun a => if (a - addr).toNat < len then data (a - addr).toNat else m a

def Memory.load (m : Memory w) (addr : BitVec w) : Buffer :=
  fun i => m (addr + BitVec.ofNat w i)

def Buffer.put (b : Buffer) (index : ℕ) (data : Buffer) (len : ℕ) : Buffer :=
  fun i => if index ≤ i ∧ i < index + len then data (i - index) else b i

def Buffer.drop (b : Buffer) (index : ℕ) : Buffer := fun i => b (index + i)

def byteOf (value : BitVec 32) : Buffer := fun i => value.extractLsb' (8 * i) 8

def Buffer.word (b : Buffer) : BitVec 32 := b 3 ++ b 2 ++ b 1 ++ b 0

theorem getLsbD_word (b : Buffer) (k : ℕ) : b.word.getLsbD k =
    if k < 8 then (b 0).getLsbD k
    else if k - 8 < 8 then (b 1).getLsbD (k - 8)
    else if k - 8 - 8 < 8 then (b 2).getLsbD (k - 8 - 8)
    else (b 3).getLsbD (k - 8 - 8 - 8) := by
  simp only [Buffer.word, BitVec.getLsbD_append]

theorem byteOf_word (b : Buffer) {i : ℕ} (hi : i < 4) : byteOf b.word i = b i := by
  refine BitVec.eq_of_getLsbD_eq fun j hj => ?_
  rw [byteOf, BitVec.getLsbD_extractLsb', getLsbD_word, decide_eq_true hj, Bool.true_and]
  interval_cases i
  · rw [if_pos (by omega), Nat.mul_zero, Nat.zero_add]
  · rw [if_neg (by omega), if_pos (by omega), show 8 * 1 + j - 8 = j by omega]
  · rw [if_neg (by omega), if_neg (by omega), if_pos (by omega),
      show 8 * 2 + j - 8 - 8 = j by omega]
  · rw [if_neg (by omega), if_neg (by omega), if_neg (by omega),
      show 8 * 3 + j - 8 - 8 - 8 = j by omega]

theorem store_congr (m : Memory w) (addr : BitVec w) {data data' : Buffer} {len : ℕ}
    (h : ∀ i < len, data i = data' i) : m.store addr data len = m.store addr data' len := by
  funext a
  simp only [Memory.store]
  split
  · rename_i ha
    exact h _ ha
  · rfl

theorem store_self (m : Memory w) (addr : BitVec w) (len : ℕ) :
    m.store addr (m.load addr) len = m := by
  funext a
  have ha : addr + BitVec.ofNat w (a - addr).toNat = a := by
    rw [BitVec.ofNat_toNat, BitVec.setWidth_eq, BitVec.add_comm, BitVec.sub_add_cancel]
  simp only [Memory.store, Memory.load, ha, ite_self]

@[simp] theorem store_zero (m : Memory w) (addr : BitVec w) (data : Buffer) :
    m.store addr data 0 = m := by
  funext a
  simp [Memory.store]

theorem toNat_sub_add (a addr : BitVec w) {k : ℕ} (hk : k < 2 ^ w) :
    (a - (addr + BitVec.ofNat w k)).toNat =
      if k ≤ (a - addr).toNat then (a - addr).toNat - k
      else (a - addr).toNat + 2 ^ w - k := by
  have hlt := (a - addr).isLt
  rw [← BitVec.sub_sub, BitVec.toNat_sub, BitVec.toNat_ofNat, Nat.mod_eq_of_lt hk]
  split
  · rename_i hle
    rw [show 2 ^ w - k + (a - addr).toNat = (a - addr).toNat - k + 2 ^ w by omega,
      Nat.add_mod_right, Nat.mod_eq_of_lt (by omega)]
  · rw [Nat.mod_eq_of_lt (by omega)]
    omega

theorem store_append (m : Memory w) (addr : BitVec w) (data : Buffer) {k l : ℕ}
    (h : k + l ≤ 2 ^ w) :
    (m.store addr data k).store (addr + BitVec.ofNat w k) (data.drop k) l =
      m.store addr data (k + l) := by
  rcases Nat.eq_zero_or_pos l with rfl | hl
  · simp
  funext a
  have hd := toNat_sub_add a addr (k := k) (by omega)
  simp only [Memory.store, hd, Buffer.drop]
  have hlt := (a - addr).isLt
  by_cases hk : k ≤ (a - addr).toNat
  · simp only [hk, if_true]
    by_cases hkl : (a - addr).toNat < k + l
    · rw [if_pos (by omega), if_pos hkl, Nat.add_sub_cancel' hk]
    · rw [if_neg (by omega), if_neg (by omega), if_neg hkl]
  · simp only [hk, if_false]
    rw [if_neg (by omega), if_pos (by omega), if_pos (by omega)]

@[simp] theorem drop_zero (b : Buffer) : b.drop 0 = b := by
  funext i
  rw [Buffer.drop, Nat.zero_add]

theorem drop_drop (b : Buffer) (i j : ℕ) : (b.drop i).drop j = b.drop (i + j) := by
  funext k
  simp [Buffer.drop, Nat.add_assoc]

theorem put_congr (b : Buffer) (index : ℕ) {data data' : Buffer} {len : ℕ}
    (h : ∀ i < len, data i = data' i) : b.put index data len = b.put index data' len := by
  funext i
  simp only [Buffer.put]
  split
  · rename_i hi
    exact h _ (by omega)
  · rfl

@[simp] theorem put_zero (b : Buffer) (index : ℕ) (data : Buffer) : b.put index data 0 = b := by
  funext i
  rw [Buffer.put, if_neg (by omega)]

theorem put_append (b : Buffer) (index : ℕ) (data : Buffer) (k l : ℕ) :
    (b.put index data k).put (index + k) (data.drop k) l = b.put index data (k + l) := by
  funext i
  simp only [Buffer.put, Buffer.drop]
  by_cases hk : index + k ≤ i ∧ i < index + k + l
  · rw [if_pos hk, if_pos (by omega), show k + (i - (index + k)) = i - index by omega]
  · rw [if_neg hk]
    by_cases hi : index ≤ i ∧ i < index + k
    · rw [if_pos hi, if_pos (by omega)]
    · rw [if_neg hi, if_neg (by omega)]

end NvdlaVp.ByteMemory
