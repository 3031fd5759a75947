import NvdlaVp.SimdbKeys

set_option autoImplicit false

namespace NvdlaVp.Simdb
open ByteMemory BlockBytes ProbeTable KeyValueStore MachineRuns

section Words

def wordBytes (w : BitVec 32) : Str := (List.range 4).map (byteOf w)

theorem length_wordBytes (w : BitVec 32) : (wordBytes w).length = 4 := by
  rw [wordBytes, List.length_map, List.length_range]

theorem word_congr {b b' : Buffer} (h : ∀ i < 4, b i = b' i) : b.word = b'.word := by
  rw [Buffer.word, Buffer.word, h 0 (by omega), h 1 (by omega), h 2 (by omega), h 3 (by omega)]

theorem word_byteOf (w : BitVec 32) : (byteOf w).word = w := by
  refine BitVec.eq_of_getLsbD_eq fun i hi => ?_
  simp only [getLsbD_word, byteOf, BitVec.getLsbD_extractLsb']
  split
  · rename_i h
    rw [decide_eq_true h, Bool.true_and, show 8 * 0 + i = i by omega]
  split
  · rename_i h
    rw [decide_eq_true h, Bool.true_and, show 8 * 1 + (i - 8) = i by omega]
  split
  · rename_i h
    rw [decide_eq_true h, Bool.true_and, show 8 * 2 + (i - 8 - 8) = i by omega]
  · rw [decide_eq_true (show i - 8 - 8 - 8 < 8 by omega), Bool.true_and,
      show 8 * 3 + (i - 8 - 8 - 8) = i by omega]

theorem word_wordBytes (w : BitVec 32) (rest : Str) : (bytesOf (wordBytes w ++ rest)).word = w := by
  refine (word_congr fun i hi => ?_).trans (word_byteOf w)
  rw [bytesOf_append_lt (by rwa [length_wordBytes]), bytesOf,
    List.getD_eq_getElem _ _ (by rwa [length_wordBytes])]
  simp only [wordBytes, List.getElem_map, List.getElem_range]

theorem drop_wordBytes (w : BitVec 32) (rest : Str) :
    (bytesOf (wordBytes w ++ rest)).drop 4 = bytesOf rest := by
  rw [← length_wordBytes w]
  exact drop_bytesOf_append _ _

end Words

/-- A type of plain values: how one lies in memory, and what is read where it lies. -/
structure Pod (α : Type*) where
  sizeOf : ℕ
  image : α → Str
  ofBytes : Buffer → α
  size_pos : 0 < sizeOf
  length_image : ∀ a, (image a).length = sizeOf
  ofBytes_congr : ∀ b b' : Buffer, (∀ i < sizeOf, b i = b' i) → ofBytes b = ofBytes b'
  ofBytes_image : ∀ a, ofBytes (bytesOf (image a)) = a

namespace Pod
variable {α : Type*} (T : Pod α)

def images (xs : List α) : Str := xs.flatMap T.image

def vector (b : Buffer) (n : ℕ) : List α :=
  (List.range n).map fun j => T.ofBytes (b.drop (j * T.sizeOf))

def zero : α := T.ofBytes fun _ => 0

theorem length_images (xs : List α) : (T.images xs).length = xs.length * T.sizeOf := by
  induction xs with
  | nil => rw [images, List.flatMap_nil, List.length_nil, List.length_nil, Nat.zero_mul]
  | cons x xs ih =>
    rw [images, List.flatMap_cons, List.length_append, T.length_image, ← images, ih,
      List.length_cons, Nat.succ_mul]
    omega

theorem drop_images {xs : List α} {j : ℕ} (hj : j < xs.length) :
    T.ofBytes ((bytesOf (T.images xs)).drop (j * T.sizeOf)) = xs[j] := by
  induction xs generalizing j with
  | nil => exact absurd hj (Nat.not_lt_zero j)
  | cons x xs ih =>
    rw [images, List.flatMap_cons, ← images]
    cases j with
    | zero =>
      rw [Nat.zero_mul, drop_zero, List.getElem_cons_zero]
      refine (T.ofBytes_congr _ _ fun i hi => ?_).trans (T.ofBytes_image x)
      exact bytesOf_append_lt (by rwa [T.length_image])
    | succ j =>
      have hsplit : (j + 1) * T.sizeOf = (T.image x).length + j * T.sizeOf := by
        rw [T.length_image, Nat.succ_mul]
        omega
      rw [hsplit, ← drop_drop, drop_bytesOf_append, List.getElem_cons_succ]
      exact ih (by simpa using hj)

theorem drop_past {xs : List α} {j : ℕ} (hj : xs.length ≤ j) :
    T.ofBytes ((bytesOf (T.images xs)).drop (j * T.sizeOf)) = T.zero := by
  refine T.ofBytes_congr _ _ fun i _ => ?_
  have hlength := T.length_images xs
  have hmul : xs.length * T.sizeOf ≤ j * T.sizeOf := Nat.mul_le_mul_right T.sizeOf hj
  rw [Buffer.drop, bytesOf, List.getD_eq_default _ _ (by omega)]

theorem vector_images (xs : List α) :
    T.vector (bytesOf (T.images xs)) (T.images xs).length =
      xs ++ List.replicate (xs.length * T.sizeOf - xs.length) T.zero := by
  have hlength := T.length_images xs
  have hle : xs.length * 1 ≤ xs.length * T.sizeOf := Nat.mul_le_mul_left xs.length T.size_pos
  rw [Nat.mul_one] at hle
  refine List.ext_getElem ?_ fun j hj _ => ?_
  · rw [vector, List.length_map, List.length_range, List.length_append, List.length_replicate]
    omega
  · simp only [vector, List.getElem_map, List.getElem_range, List.getElem_append]
    split
    · rename_i hlt
      exact T.drop_images hlt
    · rename_i hge
      rw [List.getElem_replicate]
      exact T.drop_past (not_lt.mp hge)

end Pod

namespace CncrHsh
variable {α : Type*}

def putVec (T : Pod α) (h : CncrHsh) (key : Str) (val : List α) : Option (Bool × CncrHsh) :=
  h.put (str key) (str (T.images val))

/-- The vector is as long as the value in bytes. -/
def getVec (T : Pod α) (h : CncrHsh) (key : Str) : Option (List α × CncrHsh) :=
  (h.len (str key)).bind fun l =>
    let vlen := l.1.2.1.getD 0
    if vlen = 0 then some ([], l.2)
    else (l.2.get (str key) (fun _ => 0) vlen).map fun r => (T.vector r.1.2.1 vlen, r.2)

theorem putVec_eq (T : Pod α) (h : CncrHsh) (key : Str) (val : List α) :
    h.putVec T key val = h.putStr key (T.images val) := rfl

end CncrHsh

variable {size count : ℕ} {h : CncrHsh} {t : Table ℕ (Entry size)}
  {held : BitVec 32 → Option (Entry size)} {free : List (BitVec 32)} {key : Str} {α : Type*}

theorem put_zeros (bytes : Str) :
    Buffer.put (fun _ => 0) 0 (bytesOf bytes) bytes.length = bytesOf bytes := by
  funext i
  rw [Buffer.put]
  split
  · rfl
  · rename_i hi
    rw [bytesOf, List.getD_eq_default _ _ (by omega)]

theorem getVec_slots (g : Geometry size count) (h' : Slots h count t held free) (T : Pod α)
    (hkey : key.length < 2 ^ 32) : h.getVec T key =
      some ((ProbeTable.get Entry.key (order count) t key).elim []
        fun e => T.vector (bytesOf e.value) e.value.length, h) := by
  rw [CncrHsh.getVec, str_of_lt hkey]
  by_cases hnil : key = []
  · subst hnil
    have hnone : ProbeTable.get Entry.key (order count) t [] = none := by
      rw [Option.eq_none_iff_forall_ne_some]
      exact fun e he => e.key_ne (key_of_get he)
    rw [hnone]
    rfl
  · rw [len_slots g h' hnil]
    have hread : h.get key (fun _ => 0) _ = _ := get_slots g h' hnil
    cases hget : ProbeTable.get Entry.key (order count) t key with
    | none => rfl
    | some e =>
      have hpos := e.fits.value_pos
      rw [hget, Option.elim_some] at hread
      simp only [Option.bind_some, Option.getD_some, hread, Option.map_some, put_zeros,
        Option.elim_some]
      rw [if_neg (by omega)]

def wordPod : Pod (BitVec 32) where
  sizeOf := 4
  image := wordBytes
  ofBytes := Buffer.word
  size_pos := Nat.zero_lt_succ 3
  length_image := length_wordBytes
  ofBytes_congr _ _ h := word_congr h
  ofBytes_image w := by
    have hword := word_wordBytes w []
    rwa [List.append_nil] at hword

end NvdlaVp.Simdb
