import Mathlib.Data.List.GetD
import NvdlaVp.ByteMemory

set_option autoImplicit false

namespace NvdlaVp.BlockBytes
open ByteMemory
variable {ι : Type*}

def gather (mem : Buffer) (size : ℕ) (ptr : ι → ℕ) : List ι → Buffer
  | [] => fun _ => 0
  | x :: xs => fun i => if i < size then mem (ptr x + i) else gather mem size ptr xs (i - size)

def Inside (size : ℕ) (ptr : ι → ℕ) (x : ι) (a : ℕ) : Prop := ptr x ≤ a ∧ a < ptr x + size

def Apart (size : ℕ) (ptr : ι → ℕ) (x y : ι) : Prop :=
  ∀ a, Inside size ptr x a → ¬ Inside size ptr y a

def Frame (size : ℕ) (ptr : ι → ℕ) (xs : List ι) (mem mem' : Buffer) : Prop :=
  ∀ a, (∀ x ∈ xs, ¬ Inside size ptr x a) → mem' a = mem a

variable {mem mem' mem'' : Buffer} {size : ℕ} {ptr : ι → ℕ} {x y : ι} {xs ys : List ι}

def bytesOf (bytes : List (BitVec 8)) : Buffer := fun i => bytes.getD i 0

theorem put_append_zero (b data : Buffer) (k l : ℕ) :
    (b.put 0 data k).put k (data.drop k) l = b.put 0 data (k + l) := by
  have h := put_append b 0 data k l
  rwa [Nat.zero_add] at h

def agree (b b' : Buffer) (len : ℕ) : Bool := (List.range len).all fun i => b i = b' i

theorem agree_iff {b b' : Buffer} {len : ℕ} : agree b b' len ↔ ∀ i < len, b i = b' i := by
  simp [agree]

theorem agree_add (b b' : Buffer) (k l : ℕ) :
    agree b b' (k + l) = (agree b b' k && agree (b.drop k) (b'.drop k) l) := by
  rw [Bool.eq_iff_iff, Bool.and_eq_true, agree_iff, agree_iff, agree_iff]
  constructor
  · exact fun h => ⟨fun i hi => h i (by omega), fun i hi => h (k + i) (by omega)⟩
  · rintro ⟨hk, hl⟩ i hi
    by_cases hik : i < k
    · exact hk i hik
    · have hrest := hl (i - k) (by omega)
      rwa [Buffer.drop, Buffer.drop, show k + (i - k) = i by omega] at hrest

theorem agree_congr {b b' b'' : Buffer} {len : ℕ} (h : ∀ i < len, b' i = b'' i) :
    agree b b' len = agree b b'' len := by
  rw [Bool.eq_iff_iff, agree_iff, agree_iff]
  exact ⟨fun h' i hi => (h' i hi).trans (h i hi), fun h' i hi => (h' i hi).trans (h i hi).symm⟩

theorem agree_bytesOf {xs ys : List (BitVec 8)} (h : xs.length = ys.length) :
    agree (bytesOf xs) (bytesOf ys) xs.length ↔ xs = ys := by
  rw [agree_iff]
  constructor
  · intro heq
    refine List.ext_getElem h fun i hi hi' => ?_
    have hbyte := heq i hi
    rwa [bytesOf, bytesOf, List.getD_eq_getElem _ _ hi, List.getD_eq_getElem _ _ hi'] at hbyte
  · rintro rfl i hi
    rfl

theorem bytesOf_append_lt {xs ys : List (BitVec 8)} {i : ℕ} (h : i < xs.length) :
    bytesOf (xs ++ ys) i = bytesOf xs i :=
  List.getD_append _ _ _ _ h

theorem drop_bytesOf_append (xs ys : List (BitVec 8)) :
    (bytesOf (xs ++ ys)).drop xs.length = bytesOf ys := by
  funext i
  rw [Buffer.drop, bytesOf, List.getD_append_right _ _ _ _ (by omega), Nat.add_sub_cancel_left]
  rfl

theorem Apart.symm (h : Apart size ptr x y) : Apart size ptr y x :=
  fun a hy hx => h a hx hy

theorem Frame.refl (xs : List ι) (mem : Buffer) : Frame size ptr xs mem mem := fun _ _ => rfl

theorem Frame.mono (h : Frame size ptr xs mem mem') (hsub : ∀ x ∈ xs, x ∈ ys) :
    Frame size ptr ys mem mem' :=
  fun a ha => h a fun x hx => ha x (hsub x hx)

theorem Frame.trans (h : Frame size ptr xs mem mem') (h' : Frame size ptr xs mem' mem'') :
    Frame size ptr xs mem mem'' :=
  fun a ha => (h' a ha).trans (h a ha)

theorem frame_put {ofst len : ℕ} (data : Buffer) (h : ofst + len ≤ size) :
    Frame size ptr [x] mem (mem.put (ptr x + ofst) data len) := by
  intro a ha
  have hout := ha x List.mem_cons_self
  unfold Inside at hout
  exact if_neg (by omega)

theorem gather_cons (i : ℕ) : gather mem size ptr (x :: xs) i =
    if i < size then mem (ptr x + i) else gather mem size ptr xs (i - size) := rfl

theorem gather_cons_lt {i : ℕ} (h : i < size) :
    gather mem size ptr (x :: xs) i = mem (ptr x + i) := if_pos h

theorem gather_cons_add (i : ℕ) :
    gather mem size ptr (x :: xs) (size + i) = gather mem size ptr xs i := by
  rw [gather_cons, if_neg (by omega), Nat.add_sub_cancel_left]

theorem drop_gather_cons :
    (gather mem size ptr (x :: xs)).drop size = gather mem size ptr xs :=
  funext gather_cons_add

theorem drop_gather_append :
    (gather mem size ptr (xs ++ ys)).drop (xs.length * size) = gather mem size ptr ys := by
  induction xs with
  | nil => rw [List.nil_append, List.length_nil, Nat.zero_mul, drop_zero]
  | cons x xs ih =>
    rw [List.cons_append, List.length_cons, Nat.succ_mul, Nat.add_comm, ← drop_drop,
      drop_gather_cons, ih]

theorem put_gather_cons (out : Buffer) {b ofst n k : ℕ} (hn : ofst + n ≤ size)
    (hk : ofst + n = size ∨ k = 0) :
    (out.put b (mem.drop (ptr x + ofst)) n).put (b + n) (gather mem size ptr xs) k =
      out.put b ((gather mem size ptr (x :: xs)).drop ofst) (n + k) := by
  have hfirst : out.put b (mem.drop (ptr x + ofst)) n =
      out.put b ((gather mem size ptr (x :: xs)).drop ofst) n := by
    refine put_congr out b fun i hi => ?_
    rw [Buffer.drop, Buffer.drop, gather_cons_lt (by omega), Nat.add_assoc]
  rw [hfirst]
  rcases hk with hk | rfl
  · rw [← put_append, drop_drop, hk, drop_gather_cons]
  · rw [put_zero, Nat.add_zero]

theorem Frame.gather (h : Frame size ptr xs mem mem')
    (hapart : ∀ x ∈ xs, ∀ y ∈ ys, Apart size ptr x y) :
    gather mem' size ptr ys = gather mem size ptr ys := by
  induction ys with
  | nil => rfl
  | cons y ys ih =>
    funext i
    rw [gather_cons, gather_cons]
    split
    · rename_i hi
      refine h _ fun x hx hin => hapart x hx y List.mem_cons_self _ hin ?_
      exact ⟨by omega, by omega⟩
    · exact congrFun (ih fun x hx z hz => hapart x hx z (List.mem_cons_of_mem y hz)) _

theorem gather_put {ofst len : ℕ} (data : Buffer) (hlen : ofst + len ≤ size)
    (hapart : ∀ y ∈ xs, Apart size ptr x y) :
    gather (mem.put (ptr x + ofst) data len) size ptr (x :: xs) =
      (gather mem size ptr (x :: xs)).put ofst data len := by
  have hrest : gather (mem.put (ptr x + ofst) data len) size ptr xs = gather mem size ptr xs :=
    (frame_put data hlen).gather fun z hz y hy => List.mem_singleton.mp hz ▸ hapart y hy
  funext i
  rw [gather_cons, hrest]
  simp only [Buffer.put, gather_cons]
  by_cases hi : i < size
  · rw [if_pos hi, if_pos hi]
    by_cases hin : ofst ≤ i ∧ i < ofst + len
    · rw [if_pos hin, if_pos (by omega), show ptr x + i - (ptr x + ofst) = i - ofst by omega]
    · rw [if_neg hin, if_neg (by omega)]
  · rw [if_neg hi, if_neg hi, if_neg (by omega)]

theorem gather_cons_put {ofst len : ℕ} (data : Buffer)
    (hrest : gather mem' size ptr xs = (gather mem size ptr xs).put ofst data len)
    (hfirst : ∀ i < size, mem' (ptr x + i) = mem (ptr x + i)) :
    gather mem' size ptr (x :: xs) =
      (gather mem size ptr (x :: xs)).put (size + ofst) data len := by
  funext i
  rw [gather_cons, hrest]
  simp only [Buffer.put, gather_cons]
  by_cases hi : i < size
  · rw [if_pos hi, if_neg (by omega), if_pos hi, hfirst i hi]
  · rw [if_neg hi, if_neg hi]
    by_cases hin : ofst ≤ i - size ∧ i - size < ofst + len
    · rw [if_pos hin, if_pos (by omega), Nat.sub_sub]
    · rw [if_neg hin, if_neg (by omega)]

theorem gather_append_put {ofst len : ℕ} (data : Buffer)
    (hrest : gather mem' size ptr ys = (gather mem size ptr ys).put ofst data len)
    (hfirst : ∀ x ∈ xs, ∀ i < size, mem' (ptr x + i) = mem (ptr x + i)) :
    gather mem' size ptr (xs ++ ys) =
      (gather mem size ptr (xs ++ ys)).put (xs.length * size + ofst) data len := by
  induction xs with
  | nil => rw [List.nil_append, List.length_nil, Nat.zero_mul, Nat.zero_add, hrest]
  | cons x xs ih =>
    have htail := ih fun z hz => hfirst z (List.mem_cons_of_mem x hz)
    rw [List.cons_append, gather_cons_put data htail (hfirst x List.mem_cons_self),
      List.length_cons, Nat.succ_mul, Nat.add_comm _ size, Nat.add_assoc]

theorem Frame.keeps (h : Frame size ptr xs mem mem') (hapart : ∀ x ∈ xs, Apart size ptr x y)
    {i : ℕ} (hi : i < size) : mem' (ptr y + i) = mem (ptr y + i) :=
  h _ fun x hx hin => hapart x hx _ hin ⟨by omega, by omega⟩

theorem gather_put_at {ofst len : ℕ} (data : Buffer) (hlen : ofst + len ≤ size)
    (hapart : (xs ++ x :: ys).Pairwise (Apart size ptr)) :
    gather (mem.put (ptr x + ofst) data len) size ptr (xs ++ x :: ys) =
      (gather mem size ptr (xs ++ x :: ys)).put (xs.length * size + ofst) data len := by
  obtain ⟨_, hrest, hacross⟩ := List.pairwise_append.mp hapart
  refine gather_append_put data (gather_put data hlen (List.pairwise_cons.mp hrest).1) ?_
  intro z hz i hi
  refine (frame_put data hlen).keeps (fun w hw => ?_) hi
  exact List.mem_singleton.mp hw ▸ (hacross z hz x List.mem_cons_self).symm

end NvdlaVp.BlockBytes
