import Mathlib.Data.List.Nodup
import Mathlib.Logic.Function.Basic

set_option autoImplicit false

/-!
# Lists linked through an array of indices

`Chain link a xs b` follows `link` from `a` over the indices `xs` to `b`, which is not
among the steps taken. An update of the array outside of `xs` leaves it alone.
-/
namespace NvdlaVp.IndexChain
variable {ι : Type*}

def Chain (link : ι → ι) : ι → List ι → ι → Prop
  | a, [], b => a = b
  | a, x :: xs, b => a = x ∧ Chain link (link x) xs b

variable {link : ι → ι} {a b c x y : ι} {xs ys : List ι}

@[simp] theorem chain_nil : Chain link a [] b ↔ a = b := Iff.rfl

@[simp] theorem chain_cons : Chain link a (x :: xs) b ↔ a = x ∧ Chain link (link x) xs b :=
  Iff.rfl

def decidableChain [DecidableEq ι] (link : ι → ι) :
    (a : ι) → (xs : List ι) → (b : ι) → Decidable (Chain link a xs b)
  | a, [], b => inferInstanceAs (Decidable (a = b))
  | a, x :: xs, b =>
    have := decidableChain link (link x) xs b
    inferInstanceAs (Decidable (a = x ∧ Chain link (link x) xs b))

instance [DecidableEq ι] (link : ι → ι) (a : ι) (xs : List ι) (b : ι) :
    Decidable (Chain link a xs b) := decidableChain link a xs b

theorem chain_mem (h : Chain link a xs b) (hne : xs ≠ []) : a ∈ xs := by
  cases xs with
  | nil => exact absurd rfl hne
  | cons x xs => exact h.1 ▸ List.mem_cons_self

theorem chain_append :
    Chain link a (xs ++ ys) b ↔ ∃ c, Chain link a xs c ∧ Chain link c ys b := by
  induction xs generalizing a with
  | nil => simp
  | cons x xs ih =>
    simp only [List.cons_append, chain_cons, ih]
    constructor
    · rintro ⟨rfl, c, hxs, hys⟩
      exact ⟨c, ⟨rfl, hxs⟩, hys⟩
    · rintro ⟨c, ⟨rfl, hxs⟩, hys⟩
      exact ⟨rfl, c, hxs, hys⟩

theorem chain_concat : Chain link a (xs ++ [x]) b ↔ Chain link a xs x ∧ link x = b := by
  rw [chain_append]
  constructor
  · rintro ⟨c, hxs, rfl, hb⟩
    exact ⟨hxs, hb⟩
  · rintro ⟨hxs, hb⟩
    exact ⟨x, hxs, rfl, hb⟩

theorem chain_congr {link' : ι → ι} (h : ∀ x ∈ xs, link x = link' x) :
    Chain link a xs b ↔ Chain link' a xs b := by
  induction xs generalizing a with
  | nil => rfl
  | cons x xs ih =>
    rw [chain_cons, chain_cons, h x List.mem_cons_self,
      ih fun y hy => h y (List.mem_cons_of_mem x hy)]

section Updates
variable [DecidableEq ι]

theorem chain_update (hy : y ∉ xs) :
    Chain (Function.update link y c) a xs b ↔ Chain link a xs b :=
  chain_congr fun _ hx => Function.update_of_ne (ne_of_mem_of_not_mem hx hy) _ _

theorem chain_relink (hx : x ∉ xs) (h : Chain link a xs x) :
    Chain (Function.update link x b) a (xs ++ [x]) b :=
  chain_concat.mpr ⟨(chain_update hx).mpr h, Function.update_self x b link⟩

theorem chain_push (hx : x ∉ xs) (hys : x ∉ ys) (h : Chain link a xs x)
    (hrest : Chain link b ys c) :
    Chain (Function.update link x b) a (xs ++ [x] ++ ys) c :=
  chain_append.mpr ⟨b, chain_relink hx h, (chain_update hys).mpr hrest⟩

end Updates
end NvdlaVp.IndexChain
