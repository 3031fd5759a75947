import Mathlib.Data.List.Forall2
import Mathlib.Data.List.Basic

set_option autoImplicit false

namespace NvdlaVp.Delimited

section Related
variable {β : Type*} {S : β → β → Prop} {as bs cs : List β}

theorem forall₂_trans (hS : ∀ a b c, S a b → S b c → S a c)
    (h : List.Forall₂ S as bs) (h' : List.Forall₂ S bs cs) : List.Forall₂ S as cs := by
  induction h generalizing cs with
  | nil => exact h'
  | cons hab _ ih =>
    cases h' with
    | cons hbc htail => exact .cons (hS _ _ _ hab hbc) (ih htail)

theorem forall₂_middle {x y : β} (hrefl : ∀ x, S x x) (h : S x y) :
    List.Forall₂ S (as ++ x :: bs) (as ++ y :: bs) := by
  induction as with
  | nil => exact .cons h (List.forall₂_same.mpr fun z _ => hrefl z)
  | cons z as ih => exact .cons (hrefl z) ih

theorem concat_inj {x y : β} (h : as ++ [x] = bs ++ [y]) : as = bs ∧ x = y :=
  List.append_inj' h rfl |>.imp id List.singleton_inj.mp

end Related

variable {α : Type*} [BEq α] {sep : α} {a b m x y s : List α} {xs ys : List (List α)}

theorem exists_splitOn_concat (sep : α) (s : List α) : ∃ xs x, s.splitOn sep = xs ++ [x] := by
  obtain h | ⟨xs, x, h⟩ := List.eq_nil_or_concat' (s.splitOn sep)
  · exact absurd h (List.splitOn_ne_nil sep s)
  · exact ⟨xs, x, h⟩

theorem exists_splitOn_cons (sep : α) (s : List α) : ∃ y ys, s.splitOn sep = y :: ys :=
  List.exists_cons_of_ne_nil (List.splitOn_ne_nil sep s)

theorem mem_of_mem_splitOn {c : α} (hx : x ∈ s.splitOn sep) (hc : c ∈ x) : c ∈ s := by
  induction s generalizing x with
  | nil => simp_all
  | cons d s ih =>
    rw [List.splitOn_cons_eq_if_modifyHead] at hx
    split at hx
    · rcases List.mem_cons.mp hx with rfl | hx
      · exact absurd hc List.not_mem_nil
      · exact List.mem_cons_of_mem d (ih hx hc)
    · obtain ⟨y, ys, hs⟩ := exists_splitOn_cons sep s
      rw [hs] at hx ih
      rcases List.mem_cons.mp hx with rfl | hx
      · rcases List.mem_cons.mp hc with rfl | hc
        · exact List.mem_cons_self
        · exact List.mem_cons_of_mem d (ih List.mem_cons_self hc)
      · exact List.mem_cons_of_mem d (ih (List.mem_cons_of_mem y hx) hc)

theorem splitOn_nil_concat (h : ([] : List α).splitOn sep = xs ++ [x]) : xs = [] ∧ x = [] := by
  rw [List.splitOn_nil] at h
  obtain ⟨rfl, rfl⟩ := concat_inj (show [] ++ [[]] = xs ++ [x] from h)
  exact ⟨rfl, rfl⟩

variable [LawfulBEq α]

theorem splitOn_append_left (hb : b.splitOn sep = y :: ys) (hm : sep ∉ m) :
    (m ++ b).splitOn sep = (m ++ y) :: ys := by
  induction m with
  | nil => exact hb
  | cons c m ih =>
    have hc : (c == sep) = false := beq_eq_false_iff_ne.mpr fun h => hm (by simp [h])
    have hrest := ih fun h => hm (List.mem_cons_of_mem c h)
    rw [List.cons_append, List.splitOn_cons_eq_if_modifyHead, hc, hrest]
    rfl

theorem splitOn_cons_concat {c : α} {zs : List (List α)} {z : List α}
    (hz : s.splitOn sep = zs ++ [z]) (h : (c :: s).splitOn sep = xs ++ [x]) :
    c = sep ∧ xs = [] :: zs ∧ x = z ∨ c ≠ sep ∧ zs = [] ∧ xs = [] ∧ x = c :: z ∨
      c ≠ sep ∧ ∃ z' zs', zs = z' :: zs' ∧ xs = (c :: z') :: zs' ∧ x = z := by
  rw [List.splitOn_cons_eq_if_modifyHead, hz] at h
  split at h
  · rename_i hc
    obtain ⟨rfl, rfl⟩ := concat_inj (show ([] :: zs) ++ [z] = xs ++ [x] from h)
    exact .inl ⟨beq_iff_eq.mp hc, rfl, rfl⟩
  · rename_i hc
    have hne : c ≠ sep := fun heq => hc (beq_iff_eq.mpr heq)
    cases zs with
    | nil =>
      obtain ⟨rfl, rfl⟩ := concat_inj (show [] ++ [c :: z] = xs ++ [x] from h)
      exact .inr (.inl ⟨hne, rfl, rfl, rfl⟩)
    | cons z' zs =>
      obtain ⟨rfl, rfl⟩ := concat_inj (show ((c :: z') :: zs) ++ [z] = xs ++ [x] from h)
      exact .inr (.inr ⟨hne, z', zs, rfl, rfl, rfl⟩)

theorem splitOn_middle (ha : a.splitOn sep = xs ++ [x]) (hb : b.splitOn sep = y :: ys)
    (hm : sep ∉ m) : (a ++ (m ++ b)).splitOn sep = xs ++ (x ++ (m ++ y)) :: ys := by
  induction a generalizing xs x with
  | nil =>
    obtain ⟨rfl, rfl⟩ := splitOn_nil_concat ha
    simpa using splitOn_append_left hb hm
  | cons c a ih =>
    obtain ⟨zs, z, hz⟩ := exists_splitOn_concat sep a
    rw [List.cons_append, List.splitOn_cons_eq_if_modifyHead, ih hz]
    obtain ⟨hc, rfl, rfl⟩ | ⟨hc, rfl, rfl, rfl⟩ | ⟨hc, z', zs, rfl, rfl, rfl⟩ :=
      splitOn_cons_concat hz ha
    · rw [if_pos (beq_iff_eq.mpr hc)]
      rfl
    · rw [if_neg fun h => hc (beq_iff_eq.mp h)]
      rfl
    · rw [if_neg fun h => hc (beq_iff_eq.mp h)]
      rfl

theorem mem_of_splitOn (h : s.splitOn sep = x :: y :: ys) : sep ∈ s := by
  by_contra hmem
  rw [List.splitOn_eq_singleton hmem] at h
  simp at h

theorem not_mem_of_splitOn (h : s.splitOn sep = [x]) : sep ∉ s := by
  intro hmem
  obtain ⟨l, r, rfl⟩ := List.append_of_mem hmem
  rw [List.splitOn_append_cons_self] at h
  obtain ⟨x', xs', hl⟩ := exists_splitOn_cons sep l
  obtain ⟨y', ys', hr⟩ := exists_splitOn_cons sep r
  rw [hl, hr] at h
  simp at h

theorem not_mem_of_mem_splitOn (h : x ∈ s.splitOn sep) : sep ∉ x := by
  induction s generalizing x with
  | nil => simp_all
  | cons c s ih =>
    rw [List.splitOn_cons_eq_if_modifyHead] at h
    split at h
    · rcases List.mem_cons.mp h with rfl | h
      · simp
      · exact ih h
    · rename_i hc
      obtain ⟨y, ys, hs⟩ := exists_splitOn_cons sep s
      rw [hs] at h ih
      rcases List.mem_cons.mp h with rfl | h
      · have hy := ih List.mem_cons_self
        rw [List.mem_cons, not_or]
        exact ⟨fun heq => hc (beq_iff_eq.mpr heq.symm), hy⟩
      · exact ih (List.mem_cons_of_mem y h)

theorem splitOn_pair : s.splitOn sep = [x, y] ↔ s = x ++ sep :: y ∧ sep ∉ x ∧ sep ∉ y := by
  constructor
  · intro h
    have hs : [sep].intercalate (s.splitOn sep) = s := List.intercalate_splitOn sep
    rw [h] at hs
    refine ⟨by simpa using hs.symm, ?_, ?_⟩
    · exact not_mem_of_mem_splitOn (by rw [h]; exact List.mem_cons_self)
    · exact not_mem_of_mem_splitOn (by rw [h]; exact List.mem_cons_of_mem x List.mem_cons_self)
  · rintro ⟨rfl, hx, hy⟩
    rw [List.splitOn_append_cons_self_of_not_mem hx, List.splitOn_eq_singleton hy]

section Fields
variable {R : List α → List α → Prop}

theorem forall₂_splitOn_middle (a b : List α) {m' : List α} (hrefl : ∀ x, R x x)
    (hm : sep ∉ m) (hm' : sep ∉ m') (h : ∀ x y, R (x ++ (m ++ y)) (x ++ (m' ++ y))) :
    List.Forall₂ R ((a ++ (m ++ b)).splitOn sep) ((a ++ (m' ++ b)).splitOn sep) := by
  obtain ⟨xs, x, ha⟩ := exists_splitOn_concat sep a
  obtain ⟨y, ys, hb⟩ := exists_splitOn_cons sep b
  rw [splitOn_middle ha hb hm, splitOn_middle ha hb hm']
  exact forall₂_middle hrefl (h x y)

theorem forall₂_splitOn_append_right (a : List α) (hrefl : ∀ x, R x x) (hm : sep ∉ m)
    (h : ∀ x, R x (x ++ m)) : List.Forall₂ R (a.splitOn sep) ((a ++ m).splitOn sep) := by
  obtain ⟨xs, x, ha⟩ := exists_splitOn_concat sep a
  have happ := splitOn_middle ha (List.splitOn_nil sep) hm
  rw [List.append_nil] at happ
  rw [happ, ha]
  exact forall₂_middle hrefl (h x)

theorem forall₂_splitOn_append_left (b : List α) (hrefl : ∀ x, R x x) (hm : sep ∉ m)
    (h : ∀ y, R y (m ++ y)) : List.Forall₂ R (b.splitOn sep) ((m ++ b).splitOn sep) := by
  obtain ⟨y, ys, hb⟩ := exists_splitOn_cons sep b
  rw [splitOn_append_left hb hm, hb]
  exact .cons (h y) (List.forall₂_same.mpr fun z _ => hrefl z)

end Fields
end NvdlaVp.Delimited
