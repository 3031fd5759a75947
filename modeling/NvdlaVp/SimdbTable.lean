import Mathlib.Data.Nat.ModEq
import NvdlaVp.ProbeTable
import NvdlaVp.SimdbHash
import NvdlaVp.SimdbStored

set_option autoImplicit false

namespace NvdlaVp.Simdb
open ByteMemory BlockBytes ProbeTable

section Words

@[simp] theorem hi32_append (a b : BitVec 32) : hi32 (a ++ b) = b := by
  rw [hi32, BitVec.setWidth_append]
  simp

@[simp] theorem lo32_append (a b : BitVec 32) : lo32 (a ++ b) = a := by
  refine BitVec.eq_of_getLsbD_eq fun i hi => ?_
  rw [lo32, BitVec.getLsbD_setWidth, BitVec.getLsbD_ushiftRight, BitVec.getLsbD_append,
    if_neg (by omega), Nat.add_sub_cancel_left, decide_eq_true hi, Bool.true_and]

theorem lo32_append_hi32 (n : BitVec 64) : lo32 n ++ hi32 n = n := by
  refine BitVec.eq_of_getLsbD_eq fun i hi => ?_
  rw [BitVec.getLsbD_append]
  split
  · rename_i hlow
    rw [hi32, BitVec.getLsbD_setWidth, decide_eq_true hlow, Bool.true_and]
  · rw [lo32, BitVec.getLsbD_setWidth, BitVec.getLsbD_ushiftRight,
      show 32 + (i - 32) = i by omega, decide_eq_true (by omega), Bool.true_and]

theorem swp32_append (a b : BitVec 32) : swp32 (a ++ b) = b ++ a := by
  rw [swp32, hi32_append, lo32_append]

theorem swp32_swp32 (n : BitVec 64) : swp32 (swp32 n) = n := by
  rw [swp32.eq_def n, swp32_append, lo32_append_hi32]

end Words

/-- A version and index as they lie in a slot. -/
def encode (i : ℕ) (vi : VerIdx) : BitVec 64 := if i % 2 = 1 then swp32 vi.asInt else vi.asInt

namespace CncrHsh
variable {h : CncrHsh} {i j : ℕ} {vi : VerIdx}

def setSlot (h : CncrHsh) (i : ℕ) (vi : VerIdx) : CncrHsh :=
  { h with s_vis := Function.update h.s_vis i (encode i vi) }

theorem load_of_encode (hi : h.s_vis i = encode i vi) : h.load i = vi := by
  rw [load, hi, encode]
  split
  · rw [swp32_swp32, VerIdx.asInt, hi32_append, lo32_append]
  · rw [VerIdx.asInt, swp32_append, hi32_append, lo32_append]

theorem encode_load : encode i (h.load i) = h.s_vis i := by
  rw [encode, load]
  split
  · rw [VerIdx.asInt, lo32_append_hi32, swp32_swp32]
  · rw [VerIdx.asInt, ← swp32.eq_def, swp32_swp32]

theorem load_setSlot : (h.setSlot i vi).load i = vi := load_of_encode (Function.update_self _ _ _)

theorem load_setSlot_of_ne (hij : j ≠ i) : (h.setSlot i vi).load j = h.load j := by
  rw [load, load, setSlot]
  simp only [Function.update_of_ne hij]

theorem cmpex_load : h.cmpex_vi i (h.load i) vi = (true, h.setSlot i vi) := by
  have hexp := encode_load (h := h) (i := i)
  rw [encode] at hexp
  rw [cmpex_vi]
  simp only [hexp, if_true]
  rfl

end CncrHsh

def walk (m : ℕ) : ℕ → ℕ → List ℕ
  | 0, _ => []
  | n + 1, i => i :: walk m n ((i + 1) % m)

def order (m : ℕ) (key : List (BitVec 8)) : List ℕ := walk m m ((HashBytes key).toNat % m)

section Walks
variable {m n i en : ℕ}

theorem walk_eq (hi : i < m) : walk m n i = (List.range n).map fun j => (i + j) % m := by
  induction n generalizing i with
  | zero => rfl
  | succ n ih =>
    have hm : (i + 1) % m < m := Nat.mod_lt _ (by omega)
    rw [walk, ih hm, List.range_succ_eq_map, List.map_cons, List.map_map,
      show (i + 0) % m = i from Nat.mod_eq_of_lt hi]
    congr 1
    refine List.map_congr_left fun j _ => ?_
    rw [Nat.mod_add_mod, Function.comp_apply, Nat.succ_eq_add_one, Nat.add_assoc, Nat.add_comm 1]

theorem nodup_walk (hi : i < m) (hn : n ≤ m) : (walk m n i).Nodup := by
  rw [walk_eq hi]
  refine List.Nodup.map_on (fun a ha b hb heq => ?_) List.nodup_range
  have ha' := List.mem_range.mp ha
  have hb' := List.mem_range.mp hb
  have hmod : Nat.ModEq m a b := Nat.ModEq.add_left_cancel' i heq
  exact Nat.ModEq.eq_of_lt_of_lt hmod (by omega) (by omega)

theorem mem_walk (hi : i < m) {j : ℕ} : j ∈ walk m m i ↔ j < m := by
  rw [walk_eq hi, List.mem_map]
  constructor
  · rintro ⟨k, _, rfl⟩
    exact Nat.mod_lt _ (by omega)
  · intro hj
    refine ⟨(j + m - i) % m, List.mem_range.mpr (Nat.mod_lt _ (by omega)), ?_⟩
    rw [Nat.add_mod_mod, show i + (j + m - i) = j + m by omega, Nat.add_mod_right,
      Nat.mod_eq_of_lt hj]

theorem mem_order {key : List (BitVec 8)} {j : ℕ} : j ∈ order m key ↔ j < m := by
  rcases Nat.eq_zero_or_pos m with rfl | hm
  · simp [order, walk]
  · exact mem_walk (Nat.mod_lt _ hm)

theorem nodup_order (key : List (BitVec 8)) : (order m key).Nodup := by
  rcases Nat.eq_zero_or_pos m with rfl | hm
  · exact List.nodup_nil
  · exact nodup_walk (Nat.mod_lt _ hm) (le_refl m)

theorem length_walk : (walk m n i).length = n := by
  induction n generalizing i with
  | zero => rfl
  | succ n ih => rw [walk, List.length_cons, ih]

theorem length_order (key : List (BitVec 8)) : (order m key).length = m := length_walk

/-- A search that has still to look at some slots, the last of which is `en`. -/
structure Ends (m n i en : ℕ) : Prop where
  last : (walk m n i).getLast? = some en
  nodup : (walk m n i).Nodup

theorem Ends.one (h : Ends m 1 i en) : i = en := Option.some.inj h.last

theorem Ends.next (h : Ends m (n + 2) i en) : i ≠ en ∧ Ends m (n + 1) ((i + 1) % m) en := by
  have hlast := h.last
  obtain ⟨hi, hnodup⟩ := List.nodup_cons.mp h.nodup
  have htail : (walk m (n + 1) ((i + 1) % m)).getLast? = some en := hlast
  refine ⟨?_, htail, hnodup⟩
  rintro rfl
  exact hi (List.mem_of_getLast? htail)

theorem Ends.mem_dropLast (h : Ends m n i en) {j : ℕ} :
    j ∈ (walk m n i).dropLast ↔ j ∈ walk m n i ∧ j ≠ en := by
  have hsplit := List.dropLast_append_getLast? en h.last
  have hnodup := h.nodup
  rw [← hsplit, List.nodup_append] at hnodup
  constructor
  · intro hj
    exact ⟨List.dropLast_subset _ hj, hnodup.2.2 j hj en (List.mem_singleton_self en)⟩
  · rintro ⟨hj, hne⟩
    rw [← hsplit, List.mem_append, List.mem_singleton] at hj
    exact hj.resolve_right hne

theorem ends_order {h : CncrHsh} (hm : h.m_sz = m) (hpos : 0 < m) (hmax : m < 2 ^ 32) (hi : i < m) :
    Ends m m i (h.prevIdx i) := by
  refine ⟨?_, nodup_walk hi (le_refl m)⟩
  obtain ⟨n, rfl⟩ : ∃ n, m = n + 1 := ⟨m - 1, by omega⟩
  rw [walk_eq hi, List.range_succ, List.map_append, List.map_singleton, List.getLast?_concat,
    CncrHsh.prevIdx, hm]
  rcases Nat.eq_zero_or_pos i with rfl | hipos
  · rw [Nat.zero_add, Nat.mod_eq_of_lt (by omega)]
    refine congrArg some ?_
    omega
  · rw [show i + n = i - 1 + (n + 1) by omega, Nat.add_mod_right, Nat.mod_eq_of_lt (by omega)]
    refine congrArg some ?_
    omega

end Walks

variable {size count : ℕ}

def Stands (h : CncrHsh) (held : BitVec 32 → Option (Entry size)) (i : ℕ) :
    Slot (Entry size) → Prop
  | .empty => h.load i = empty_vi
  | .deleted => h.load i = deleted_vi
  | .full e => held (h.load i).idx = some e ∧ (h.load i).version = e.ver ∧
    e.hash = HashBytes e.key

structure Slots (h : CncrHsh) (count : ℕ) (t : Table ℕ (Entry size))
    (held : BitVec 32 → Option (Entry size)) (free : List (BitVec 32)) : Prop where
  sz : h.m_sz = count
  stored : Stored h.m_csp count held free
  stands : ∀ i < count, Stands h held i (t i)

section Loops
variable {h : CncrHsh} {t : Table ℕ (Entry size)} {held : BitVec 32 → Option (Entry size)}
  {free : List (BitVec 32)} {key : List (BitVec 8)} {n i en : ℕ} {e : Entry size}

theorem Slots.idx_lt (g : Geometry size count) (h' : Slots h count t held free) (hi : i < count)
    (hfull : t i = .full e) : (h.load i).idx < DELETED := by
  have hstands := h'.stands i hi
  rw [hfull] at hstands
  have hlt := h'.stored.start_within hstands.1
  have hcount := g.count_lt
  have hdel : DELETED.toNat = 2 ^ 32 - 2 := rfl
  rw [BitVec.lt_def, hdel]
  omega

theorem Slots.free_le (h' : Slots h count t held free) (hi : i < count) (hfree : (t i).isFree) :
    DELETED ≤ (h.load i).idx := by
  have hstands := h'.stands i hi
  cases ht : t i with
  | empty =>
    rw [ht] at hstands
    rw [show h.load i = empty_vi from hstands]
    decide
  | deleted =>
    rw [ht] at hstands
    rw [show h.load i = deleted_vi from hstands]
    decide
  | full e =>
    rw [ht] at hfree
    exact absurd hfree nofun

theorem Slots.compare (h' : Slots h count t held free) (hi : i < count) (hfull : t i = .full e)
    (key : List (BitVec 8)) :
    h.m_csp.compare (h.load i).idx (h.load i).version (bytesOf key) key.length (HashBytes key) =
      some (if e.key = key then .MATCH_TRUE else .MATCH_FALSE, h.m_csp) := by
  have hstands := h'.stands i hi
  rw [hfull] at hstands
  obtain ⟨hheld, hver, hhash⟩ := hstands
  rw [hver, compare_held (h'.stored.holds _ e hheld), hhash]
  by_cases hkey : e.key = key
  · rw [if_pos ⟨by rw [hkey], hkey⟩, if_pos hkey]
  · rw [if_neg fun heq => hkey heq.2, if_neg hkey]

theorem putLoop_turn (g : Geometry size count) (h' : Slots h count t held free) (hi : i < count)
    (desired : VerIdx) : CncrHsh.putLoop (HashBytes key) desired key en (n + 1) h i =
      if (t i).isFree || (t i).holds Entry.key key then some (h.load i, h.setSlot i desired)
      else if i = en then some (empty_vi, h)
      else CncrHsh.putLoop (HashBytes key) desired key en n h (h.nxtIdx i) := by
  rw [CncrHsh.putLoop]
  by_cases hfree : (t i).isFree
  · simp only [hfree, Bool.true_or, if_pos (h'.free_le hi hfree), CncrHsh.cmpex_load, if_true]
  · obtain ⟨e, he⟩ := Slot.of_not_isFree hfree
    have hlt := h'.idx_lt g hi he
    simp only [if_neg (show ¬ DELETED ≤ (h.load i).idx by rwa [BitVec.not_le]),
      h'.compare hi he key, Option.bind_some]
    rw [Bool.eq_false_iff.mpr hfree, Bool.false_or, he, Slot.holds]
    by_cases hkey : e.key = key
    · simp only [hkey, if_true, ne_eq, not_true_eq_false, if_false, decide_true,
        CncrHsh.cmpex_load]
    · simp only [hkey, if_false, decide_false, Bool.false_eq_true, ne_eq, reduceCtorEq,
        not_false_eq_true, if_true]

theorem putLoop_spec (g : Geometry size count) (h' : Slots h count t held free) (hi : i < count)
    (hends : Ends count (n + 1) i en) (desired : VerIdx) :
    CncrHsh.putLoop (HashBytes key) desired key en (n + 1) h i = some
      (match (walk count (n + 1) i).find? fun i => (t i).isFree || (t i).holds Entry.key key with
      | none => (empty_vi, h)
      | some i => (h.load i, h.setSlot i desired)) := by
  induction n generalizing i with
  | zero =>
    rw [putLoop_turn g h' hi, walk, walk, List.find?_cons]
    by_cases hplace : (t i).isFree || (t i).holds Entry.key key
    · rw [if_pos hplace, hplace]
    · rw [if_neg hplace, if_pos hends.one, Bool.eq_false_iff.mpr hplace]
      rfl
  | succ n ih =>
    obtain ⟨hne, htail⟩ := hends.next
    have hnxt : (i + 1) % count < count := Nat.mod_lt _ (by omega)
    rw [putLoop_turn g h' hi, walk, List.find?_cons]
    by_cases hplace : (t i).isFree || (t i).holds Entry.key key
    · rw [if_pos hplace, hplace]
    · rw [if_neg hplace, if_neg hne, Bool.eq_false_iff.mpr hplace, CncrHsh.nxtIdx, h'.sz,
        ih hnxt htail]

theorem Slots.free_idx (h' : Slots h count t held free) (hi : i < count)
    (hfree : (t i).isFree) : ¬ ((h.load i).idx ≠ EMPTY ∧ (h.load i).idx ≠ DELETED) := by
  have hstands := h'.stands i hi
  cases ht : t i with
  | empty =>
    rw [ht] at hstands
    rw [show h.load i = empty_vi from hstands]
    exact fun hne => hne.1 rfl
  | deleted =>
    rw [ht] at hstands
    rw [show h.load i = deleted_vi from hstands]
    exact fun hne => hne.2 rfl
  | full e =>
    rw [ht] at hfree
    exact absurd hfree nofun

theorem Slots.full_idx (g : Geometry size count) (h' : Slots h count t held free) (hi : i < count)
    (hfull : t i = .full e) : (h.load i).idx ≠ EMPTY ∧ (h.load i).idx ≠ DELETED := by
  have hlt := h'.idx_lt g hi hfull
  constructor
  · intro heq
    rw [heq] at hlt
    exact absurd hlt (by decide)
  · intro heq
    rw [heq] at hlt
    exact absurd hlt (by decide)

theorem matchLoop_turn (g : Geometry size count) (h' : Slots h count t held free) (hi : i < count) :
    CncrHsh.matchLoop (HashBytes key) key en (n + 1) h i =
      if (t i).holds Entry.key key then some (some (h.load i), h)
      else if i = en then some (none, h)
      else CncrHsh.matchLoop (HashBytes key) key en n h (h.nxtIdx i) := by
  rw [CncrHsh.matchLoop]
  by_cases hfree : (t i).isFree
  · simp only [if_neg (h'.free_idx hi hfree)]
    rw [if_neg (Slot.not_holds_of_isFree hfree)]
  · obtain ⟨e, he⟩ := Slot.of_not_isFree hfree
    simp only [if_pos (h'.full_idx g hi he), h'.compare hi he key, Option.bind_some]
    rw [he, Slot.holds]
    by_cases hkey : e.key = key
    · simp only [hkey, if_true, decide_true]
    · simp only [hkey, if_false, decide_false, Bool.false_eq_true, reduceCtorEq]

theorem matchLoop_spec (g : Geometry size count) (h' : Slots h count t held free) (hi : i < count)
    (hends : Ends count (n + 1) i en) : CncrHsh.matchLoop (HashBytes key) key en (n + 1) h i =
      some (((walk count (n + 1) i).find? fun i => (t i).holds Entry.key key).map h.load, h) := by
  induction n generalizing i with
  | zero =>
    rw [matchLoop_turn g h' hi, walk, walk, List.find?_cons]
    by_cases hholds : (t i).holds Entry.key key
    · rw [if_pos hholds, hholds]
      rfl
    · rw [if_neg hholds, if_pos hends.one, Bool.eq_false_iff.mpr hholds]
      rfl
  | succ n ih =>
    obtain ⟨hne, htail⟩ := hends.next
    have hnxt : (i + 1) % count < count := Nat.mod_lt _ (by omega)
    rw [matchLoop_turn g h' hi, walk, List.find?_cons]
    by_cases hholds : (t i).holds Entry.key key
    · rw [if_pos hholds, hholds]
      rfl
    · rw [if_neg hholds, if_neg hne, Bool.eq_false_iff.mpr hholds, CncrHsh.nxtIdx, h'.sz,
        ih hnxt htail]

theorem delLoop_turn (g : Geometry size count) (h' : Slots h count t held free) (hi : i < count) :
    CncrHsh.delLoop (HashBytes key) key en (n + 1) h i =
      if i = en then some (empty_vi, h)
      else if (t i).holds Entry.key key then some (h.load i, h.setSlot i deleted_vi)
      else CncrHsh.delLoop (HashBytes key) key en n h (h.nxtIdx i) := by
  rw [CncrHsh.delLoop]
  by_cases hend : i = en
  · rw [if_pos hend, if_pos hend]
  rw [if_neg hend, if_neg hend]
  by_cases hfree : (t i).isFree
  · simp only [if_pos (h'.free_le hi hfree)]
    rw [if_neg (Slot.not_holds_of_isFree hfree)]
  · obtain ⟨e, he⟩ := Slot.of_not_isFree hfree
    have hlt := h'.idx_lt g hi he
    simp only [if_neg (show ¬ DELETED ≤ (h.load i).idx by rwa [BitVec.not_le]),
      h'.compare hi he key, Option.bind_some]
    rw [he, Slot.holds]
    by_cases hkey : e.key = key
    · simp only [hkey, if_true, decide_true, CncrHsh.cmpex_load]
    · simp only [hkey, hend, if_false, decide_false, Bool.false_eq_true, reduceCtorEq, or_self]

theorem delLoop_spec (g : Geometry size count) (h' : Slots h count t held free) (hi : i < count)
    (hends : Ends count (n + 1) i en) :
    CncrHsh.delLoop (HashBytes key) key en (n + 1) h i = some
      (match (walk count (n + 1) i).dropLast.find? fun i => (t i).holds Entry.key key with
      | none => (empty_vi, h)
      | some i => (h.load i, h.setSlot i deleted_vi)) := by
  induction n generalizing i with
  | zero =>
    rw [delLoop_turn g h' hi, if_pos hends.one]
    rfl
  | succ n ih =>
    obtain ⟨hne, htail⟩ := hends.next
    have hnxt : (i + 1) % count < count := Nat.mod_lt _ (by omega)
    have hdrop : (walk count (n + 2) i).dropLast =
        i :: (walk count (n + 1) ((i + 1) % count)).dropLast := by
      rw [walk, List.dropLast_cons_of_ne_nil]
      exact nofun
    rw [delLoop_turn g h' hi, if_neg hne, hdrop, List.find?_cons]
    by_cases hholds : (t i).holds Entry.key key
    · rw [if_pos hholds, hholds]
    · rw [if_neg hholds, Bool.eq_false_iff.mpr hholds, CncrHsh.nxtIdx, h'.sz, ih hnxt htail]

end Loops

end NvdlaVp.Simdb
