import Mathlib.Data.List.Nodup
import Mathlib.Logic.Function.Basic
import NvdlaVp.KeyValueStore

set_option autoImplicit false

/-!
# Tables that are searched in an order of each key's own

An item is put into the first slot of its key's order that is free or holds the key, it is
found at the first that holds it, and the last slot of the order is not searched when it is
deleted. Slots freed by a deletion are reused before the rest of the order is searched.
-/
namespace NvdlaVp.ProbeTable
open KeyValueStore

inductive Slot (α : Type*) where
  | empty
  | deleted
  | full (a : α)
  deriving DecidableEq, Repr

variable {ι κ α : Type*} [DecidableEq κ]

namespace Slot

def isFree : Slot α → Bool
  | full _ => false
  | _ => true

def item : Slot α → Option α
  | full a => some a
  | _ => none

def holds (key : α → κ) (k : κ) : Slot α → Bool
  | full a => key a = k
  | _ => false

@[simp] theorem holds_full (key : α → κ) (k : κ) (a : α) : (full a).holds key k ↔ key a = k := by
  simp [holds]

@[simp] theorem holds_deleted (key : α → κ) (k : κ) : (deleted : Slot α).holds key k = false := rfl

theorem of_holds {key : α → κ} {k : κ} {s : Slot α} (h : s.holds key k) :
    ∃ a, s = full a ∧ key a = k := by
  cases s with
  | empty => exact absurd h nofun
  | deleted => exact absurd h nofun
  | full a => exact ⟨a, rfl, (holds_full key k a).mp h⟩

theorem of_not_isFree {s : Slot α} (h : ¬ s.isFree) : ∃ a, s = full a := by
  cases s with
  | empty => exact absurd rfl h
  | deleted => exact absurd rfl h
  | full a => exact ⟨a, rfl⟩

theorem not_holds_of_isFree {key : α → κ} {k : κ} {s : Slot α} (h : s.isFree) :
    ¬ s.holds key k := by
  intro hholds
  obtain ⟨a, rfl, _⟩ := of_holds hholds
  exact absurd h nofun

end Slot

abbrev Table (ι α : Type*) := ι → Slot α

section Searching
variable (key : α → κ) (order : κ → List ι)

def slotOf (t : Table ι α) (k : κ) : Option ι := (order k).find? fun i => (t i).holds key k

def get (t : Table ι α) (k : κ) : Option α := (slotOf key order t k).bind fun i => (t i).item

def placeOf (t : Table ι α) (k : κ) : Option ι :=
  (order k).find? fun i => (t i).isFree || (t i).holds key k

def victimOf (t : Table ι α) (k : κ) : Option ι :=
  (order k).dropLast.find? fun i => (t i).holds key k

def toStore (t : Table ι α) : Store κ α := get key order t

/-- A key is in one slot of its order at most, and not in the last one. -/
structure Single (t : Table ι α) (k : κ) : Prop where
  once : ∀ i ∈ order k, ∀ j ∈ order k, (t i).holds key k → (t j).holds key k → i = j
  notLast : ∀ i ∈ order k, (t i).holds key k → i ∈ (order k).dropLast

end Searching

section Updating
variable [DecidableEq ι] (key : α → κ) (order : κ → List ι)

def put (t : Table ι α) (a : α) : Option (Table ι α) :=
  (placeOf key order t (key a)).map fun i => Function.update t i (.full a)

def del (t : Table ι α) (k : κ) : Table ι α :=
  match victimOf key order t k with
  | none => t
  | some i => Function.update t i .deleted

end Updating

variable {key : α → κ} {order : κ → List ι} {t t' : Table ι α} {k k' : κ} {a b : α} {i j : ι}

theorem slotOf_spec (h : slotOf key order t k = some i) :
    i ∈ order k ∧ ∃ a, t i = .full a ∧ key a = k := by
  have hi : (t i).holds key k := by simpa using List.find?_some h
  exact ⟨List.mem_of_find?_eq_some h, Slot.of_holds hi⟩

theorem get_eq_some : get key order t k = some a ↔
    ∃ i, slotOf key order t k = some i ∧ t i = .full a := by
  rw [get, Option.bind_eq_some_iff]
  refine exists_congr fun i => and_congr_right fun _ => ?_
  cases t i with
  | empty => simp [Slot.item]
  | deleted => simp [Slot.item]
  | full b => simp [Slot.item]

theorem get_eq_none : get key order t k = none ↔ ∀ i ∈ order k, ¬ (t i).holds key k := by
  rw [get, Option.bind_eq_none_iff]
  constructor
  · intro h i hi hholds
    cases hslot : slotOf key order t k with
    | none => exact List.find?_eq_none.mp hslot i hi hholds
    | some j =>
      obtain ⟨_, b, hb, _⟩ := slotOf_spec hslot
      have hnone := h j hslot
      rw [hb] at hnone
      exact absurd hnone nofun
  · intro h i hslot
    obtain ⟨hi, b, hb, hk⟩ := slotOf_spec hslot
    exact absurd (hb ▸ (Slot.holds_full key k b).mpr hk) (h i hi)

theorem get_emptyTable : get key order (fun _ => .empty) k = none :=
  get_eq_none.mpr fun _ _ => Bool.false_ne_true

theorem key_of_get (h : get key order t k = some a) : key a = k := by
  obtain ⟨i, hslot, hi⟩ := get_eq_some.mp h
  obtain ⟨_, b, hb, hk⟩ := slotOf_spec hslot
  obtain rfl : a = b := Slot.full.inj (hi.symm.trans hb)
  exact hk

theorem placeOf_spec (h : placeOf key order t k = some i) :
    ((t i).isFree ∨ (t i).holds key k) ∧ ∃ before after, order k = before ++ i :: after ∧
      ∀ j ∈ before, ¬ (t j).isFree ∧ ¬ (t j).holds key k := by
  obtain ⟨hi, before, after, horder, hbefore⟩ := List.find?_eq_some_iff_append.mp h
  refine ⟨Bool.or_eq_true_iff.mp hi, before, after, horder, fun j hj => ?_⟩
  have hfirst := hbefore j hj
  rwa [Bool.not_or, Bool.and_eq_true, Bool.not_eq_true', Bool.not_eq_true', Bool.eq_false_iff,
    Bool.eq_false_iff] at hfirst

theorem placeOf_isSome : (placeOf key order t k).isSome ↔
    ∃ i ∈ order k, (t i).isFree ∨ (t i).holds key k := by
  rw [placeOf, List.find?_isSome]
  simp only [Bool.or_eq_true]

theorem not_holds_other (h : (t i).isFree ∨ (t i).holds key k) (hne : k' ≠ k) :
    ¬ (t i).holds key k' := by
  cases hi : t i with
  | empty => exact nofun
  | deleted => exact nofun
  | full b =>
    rw [hi] at h
    intro hholds
    have hk' := (Slot.holds_full key k' b).mp hholds
    rcases h with hfree | hk
    · exact absurd hfree nofun
    · exact hne (hk'.symm.trans ((Slot.holds_full key k b).mp hk))

theorem victimOf_spec (h : victimOf key order t k = some i) :
    i ∈ (order k).dropLast ∧ (t i).holds key k :=
  ⟨List.mem_of_find?_eq_some h, by simpa using List.find?_some h⟩

variable [DecidableEq ι]

theorem get_update_of_not_holds {s : Slot α} (hbefore : ¬ (t i).holds key k)
    (hafter : ¬ s.holds key k) : get key order (Function.update t i s) k = get key order t k := by
  have hsame : ∀ j, (Function.update t i s j).holds key k = (t j).holds key k := by
    intro j
    by_cases hj : j = i
    · subst hj
      rw [Function.update_self, Bool.eq_false_iff.mpr hbefore, Bool.eq_false_iff.mpr hafter]
    · rw [Function.update_of_ne hj]
  have hslot : slotOf key order (Function.update t i s) k = slotOf key order t k := by
    rw [slotOf, slotOf]
    simp only [hsame]
  rw [get, get, hslot]
  refine Option.bind_congr fun j hj => ?_
  have hne : j ≠ i := by
    rintro rfl
    obtain ⟨_, b, hb, hk⟩ := slotOf_spec hj
    exact hbefore (hb ▸ (Slot.holds_full key k b).mpr hk)
  rw [Function.update_of_ne hne]

theorem toStore_put (h : put key order t a = some t') :
    toStore key order t' = (toStore key order t).put (key a) a := by
  rw [put, Option.map_eq_some_iff] at h
  obtain ⟨i, hplace, rfl⟩ := h
  obtain ⟨hi, before, after, horder, hbefore⟩ := placeOf_spec hplace
  funext k
  by_cases hk : k = key a
  · subst hk
    refine (get_eq_some.mpr ⟨i, ?_, Function.update_self _ _ _⟩).trans (Store.get_put _ _ _).symm
    rw [slotOf, List.find?_eq_some_iff_append]
    refine ⟨by simp, before, after, horder, fun j hj => ?_⟩
    obtain ⟨hfree, hholds⟩ := hbefore j hj
    have hji : j ≠ i := by
      rintro rfl
      exact hi.elim hfree hholds
    rw [Function.update_of_ne hji, Bool.not_eq_true', Bool.eq_false_iff]
    exact hholds
  · refine Eq.trans ?_ (Store.get_put_of_ne _ a hk).symm
    refine get_update_of_not_holds (not_holds_other hi hk) ?_
    rw [Slot.holds_full]
    exact fun heq => hk heq.symm

theorem del_of_none (h : victimOf key order t k = none) : del key order t k = t := by
  rw [del, h]

theorem del_of_some (h : victimOf key order t k = some i) :
    del key order t k = Function.update t i .deleted := by
  rw [del, h]

theorem mem_update {s : Slot α} (h : Function.update t i s j = .full b) :
    j = i ∧ s = .full b ∨ t j = .full b := by
  by_cases hji : j = i
  · subst hji
    rw [Function.update_self] at h
    exact .inl ⟨rfl, h⟩
  · rw [Function.update_of_ne hji] at h
    exact .inr h

theorem mem_put (h : put key order t a = some t') (hb : t' j = .full b) :
    b = a ∨ t j = .full b := by
  obtain ⟨i, _, rfl⟩ := Option.map_eq_some_iff.mp h
  rcases mem_update hb with ⟨_, heq⟩ | hold
  · exact .inl (Slot.full.inj heq).symm
  · exact .inr hold

theorem mem_del (hb : del key order t k j = .full b) : t j = .full b := by
  cases hvictim : victimOf key order t k with
  | none => rwa [del_of_none hvictim] at hb
  | some i =>
    rw [del_of_some hvictim] at hb
    rcases mem_update hb with ⟨_, heq⟩ | hold
    · exact absurd heq (by simp)
    · exact hold

theorem get_del_of_ne (hne : k' ≠ k) :
    get key order (del key order t k) k' = get key order t k' := by
  cases hvictim : victimOf key order t k with
  | none => rw [del_of_none hvictim]
  | some i =>
    obtain ⟨_, hi⟩ := victimOf_spec hvictim
    rw [del_of_some hvictim]
    refine get_update_of_not_holds (not_holds_other (.inr hi) hne) ?_
    rw [Slot.holds_deleted]
    exact nofun

/-- Exactly when a deletion leaves nothing behind. -/
theorem get_del_eq_none :
    get key order (del key order t k) k = none ↔ Single key order t k := by
  rw [get_eq_none]
  cases hvictim : victimOf key order t k with
  | none =>
    rw [del_of_none hvictim]
    have hnone : ∀ i ∈ (order k).dropLast, ¬ (t i).holds key k := by
      simpa [victimOf] using hvictim
    constructor
    · exact fun h => ⟨fun i hi _ _ hholds => absurd hholds (h i hi),
        fun i hi hholds => absurd hholds (h i hi)⟩
    · exact fun h i hi hholds => hnone i (h.notLast i hi hholds) hholds
  | some i =>
    obtain ⟨hi, hholds⟩ := victimOf_spec hvictim
    have hmem := List.dropLast_subset _ hi
    rw [del_of_some hvictim]
    constructor
    · intro h
      have hall : ∀ j ∈ order k, (t j).holds key k → j = i := by
        intro j hj hjk
        by_contra hne
        have hnot := h j hj
        rw [Function.update_of_ne hne] at hnot
        exact hnot hjk
      refine ⟨fun j hj j' hj' hjk hjk' => ?_, fun j hj hjk => hall j hj hjk ▸ hi⟩
      rw [hall j hj hjk, hall j' hj' hjk']
    · intro h j hj
      by_cases hji : j = i
      · subst hji
        rw [Function.update_self, Slot.holds_deleted]
        exact nofun
      · rw [Function.update_of_ne hji]
        exact fun hjk => hji (h.once j hj i hmem hjk hholds)

theorem toStore_del_iff :
    toStore key order (del key order t k) = (toStore key order t).del k ↔
      Single key order t k := by
  rw [← get_del_eq_none]
  constructor
  · intro h
    exact (congrFun h k).trans (Store.get_del _ k)
  · intro h
    funext k'
    by_cases hk : k' = k
    · subst hk
      exact h.trans (Store.get_del _ k').symm
    · exact (get_del_of_ne hk).trans (Store.get_del_of_ne (toStore key order t) hk).symm

theorem single_put (h : Single key order t k) (hplace : placeOf key order t (key a) = some i)
    (habsent : get key order t (key a) = none) (hlast : i ∈ (order (key a)).dropLast) :
    Single key order (Function.update t i (.full a)) k := by
  have hi := (placeOf_spec hplace).1
  by_cases hk : k = key a
  · subst hk
    have honly : ∀ j ∈ order (key a),
        (Function.update t i (.full a) j).holds key (key a) → j = i := by
      intro j hj hholds
      by_contra hne
      rw [Function.update_of_ne hne] at hholds
      exact get_eq_none.mp habsent j hj hholds
    refine ⟨fun j hj j' hj' hjk hjk' => ?_, fun j hj hjk => honly j hj hjk ▸ hlast⟩
    rw [honly j hj hjk, honly j' hj' hjk']
  · have hsame : ∀ j, (Function.update t i (.full a) j).holds key k → (t j).holds key k := by
      intro j hholds
      by_cases hji : j = i
      · subst hji
        rw [Function.update_self, Slot.holds_full] at hholds
        exact absurd hholds.symm hk
      · rwa [Function.update_of_ne hji] at hholds
    exact ⟨fun j hj j' hj' hjk hjk' => h.once j hj j' hj' (hsame j hjk) (hsame j' hjk'),
      fun j hj hjk => h.notLast j hj (hsame j hjk)⟩

theorem single_del (h : Single key order t k) : Single key order (del key order t k') k := by
  cases hvictim : victimOf key order t k' with
  | none => rwa [del_of_none hvictim]
  | some i =>
    rw [del_of_some hvictim]
    have hsame : ∀ j, (Function.update t i .deleted j).holds key k → (t j).holds key k := by
      intro j hholds
      by_cases hji : j = i
      · subst hji
        rw [Function.update_self] at hholds
        exact absurd hholds nofun
      · rwa [Function.update_of_ne hji] at hholds
    exact ⟨fun j hj j' hj' hjk hjk' => h.once j hj j' hj' (hsame j hjk) (hsame j' hjk'),
      fun j hj hjk => h.notLast j hj (hsame j hjk)⟩

theorem get_dels {ks : List κ} (h : ∀ k, Single key order t k) :
    get key order (ks.foldl (del key order) t) k =
      if k ∈ ks then none else get key order t k := by
  induction ks generalizing t with
  | nil => rw [List.foldl_nil, if_neg List.not_mem_nil]
  | cons k' ks ih =>
    rw [List.foldl_cons, ih fun k => single_del (h k)]
    by_cases hks : k ∈ ks
    · rw [if_pos hks, if_pos (List.mem_cons_of_mem k' hks)]
    · rw [if_neg hks]
      by_cases hk : k = k'
      · subst hk
        rw [if_pos List.mem_cons_self]
        exact get_del_eq_none.mpr (h k)
      · rw [get_del_of_ne hk, if_neg (by simp [hk, hks])]

section Homes

/-- Only keys of `K` are there, each in the first slot of its order. -/
structure AtHome (key : α → κ) (order : κ → List ι) (K : κ → Prop) (t : Table ι α) : Prop where
  known : ∀ i a, t i = .full a → K (key a)
  first : ∀ i a, t i = .full a → (order (key a)).head? = some i

variable {K : κ → Prop}

omit [DecidableEq κ] [DecidableEq ι] in
theorem atHome_empty : AtHome key order K (fun _ => .empty) :=
  ⟨fun _ _ h => absurd h (by simp), fun _ _ h => absurd h (by simp)⟩

omit [DecidableEq ι] in
theorem AtHome.holds (h : AtHome key order K t) (hholds : (t i).holds key k) :
    (order k).head? = some i := by
  obtain ⟨a, ha, rfl⟩ := Slot.of_holds hholds
  exact h.first i a ha

omit [DecidableEq ι] in
theorem AtHome.placeOf (h : AtHome key order K t) (hfirst : (order k).head? = some i)
    (hspread : ∀ k', K k' → (order k').head? = (order k).head? → k' = k) :
    placeOf key order t k = some i := by
  obtain ⟨rest, hrest⟩ := List.head?_eq_some_iff.mp hfirst
  have hi : (t i).isFree || (t i).holds key k := by
    rw [Bool.or_eq_true]
    by_cases hfree : (t i).isFree
    · exact .inl hfree
    · obtain ⟨a, ha⟩ := Slot.of_not_isFree hfree
      have hkey : key a = k :=
        hspread _ (h.known i a ha) ((h.first i a ha).trans hfirst.symm)
      rw [ha, Slot.holds_full]
      exact .inr hkey
  rw [ProbeTable.placeOf, hrest]
  exact List.find?_cons_of_pos hi

omit [DecidableEq κ] in
theorem AtHome.update (h : AtHome key order K t) (hk : K (key a))
    (hfirst : (order (key a)).head? = some i) :
    AtHome key order K (Function.update t i (.full a)) := by
  constructor
  · intro j b hj
    rcases mem_update hj with ⟨_, heq⟩ | hold
    · exact Slot.full.inj heq ▸ hk
    · exact h.known j b hold
  · intro j b hj
    rcases mem_update hj with ⟨rfl, heq⟩ | hold
    · exact Slot.full.inj heq ▸ hfirst
    · exact h.first j b hold

theorem AtHome.del (h : AtHome key order K t) (k : κ) :
    AtHome key order K (ProbeTable.del key order t k) :=
  ⟨fun j b hj => h.known j b (mem_del hj), fun j b hj => h.first j b (mem_del hj)⟩

omit [DecidableEq ι] in
theorem AtHome.single (h : AtHome key order K t) (hlength : 2 ≤ (order k).length) :
    Single key order t k := by
  constructor
  · intro i _ j _ hi hj
    exact Option.some.inj ((h.holds hi).symm.trans (h.holds hj))
  · intro i _ hi
    obtain ⟨rest, hrest⟩ := List.head?_eq_some_iff.mp (h.holds hi)
    rw [hrest] at hlength ⊢
    cases rest with
    | nil => simp at hlength
    | cons j rest => simp

theorem put_of_free {rest : List ι} (horder : order (key a) = i :: rest) (hi : (t i).isFree) :
    put key order t a = some (Function.update t i (.full a)) := by
  have hplace : placeOf key order t (key a) = some i := by
    rw [ProbeTable.placeOf, horder]
    exact List.find?_cons_of_pos (by rw [hi, Bool.true_or])
  rw [put, hplace, Option.map_some]

theorem put_of_second {rest : List ι} (horder : order (key a) = i :: j :: rest)
    (hi : t i = .full b) (hne : key b ≠ key a) (hj : (t j).isFree) :
    put key order t a = some (Function.update t j (.full a)) := by
  have hnot : ¬ ((t i).isFree || (t i).holds key (key a)) := by
    rw [hi, Bool.or_eq_true, Slot.holds_full]
    exact fun h => h.elim Bool.false_ne_true hne
  have hplace : placeOf key order t (key a) = some j := by
    rw [ProbeTable.placeOf, horder, List.find?_cons]
    simp only [Bool.eq_false_iff.mpr hnot]
    exact List.find?_cons_of_pos (by rw [hj, Bool.true_or])
  rw [put, hplace, Option.map_some]

theorem del_of_head {rest : List ι} (horder : order k = i :: j :: rest)
    (hi : (t i).holds key k) : del key order t k = Function.update t i .deleted := by
  refine del_of_some ?_
  rw [victimOf, horder, List.dropLast_cons_of_ne_nil (List.cons_ne_nil j rest)]
  exact List.find?_cons_of_pos hi

/-- Of two keys with the same order the second is put again once the first is gone, and then it
    is there twice. -/
theorem not_single_of_reput {rest : List ι} {c : α} {t1 t2 t3 : Table ι α}
    (horder : order (key a) = i :: j :: rest) (hsame : order (key b) = order (key a))
    (hij : i ≠ j) (hne : key a ≠ key b) (hc : key c = key b)
    (hput1 : put key order (fun _ => .empty) a = some t1) (hput2 : put key order t1 b = some t2)
    (hput3 : put key order (del key order t2 (key a)) c = some t3) :
    ¬ Single key order t3 (key b) := by
  rw [put_of_free horder rfl, Option.some.injEq] at hput1
  subst hput1
  rw [put_of_second (hsame.trans horder) (Function.update_self _ _ _) hne
    (by rw [Function.update_of_ne hij.symm]; rfl), Option.some.injEq] at hput2
  subst hput2
  rw [del_of_head horder (by
    rw [Function.update_of_ne hij, Function.update_self, Slot.holds_full])] at hput3
  rw [put_of_free (by rw [hc, hsame, horder]) (by rw [Function.update_self]; rfl),
    Option.some.injEq] at hput3
  subst hput3
  intro hsingle
  have hi : i ∈ order (key b) := by simp [hsame, horder]
  have hj : j ∈ order (key b) := by simp [hsame, horder]
  apply hij
  apply hsingle.once i hi j hj
  · rw [Function.update_self, Slot.holds_full, hc]
  · rw [Function.update_of_ne hij.symm, Function.update_of_ne hij.symm, Function.update_self,
      Slot.holds_full]

end Homes

end NvdlaVp.ProbeTable
