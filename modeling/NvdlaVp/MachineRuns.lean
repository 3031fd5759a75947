import Mathlib.Data.List.Infix

set_option autoImplicit false

/-!
# Runs of a machine and what they preserve

A machine takes one enabled action after another. A run may be asked to meet a
condition at each of its steps; invariants, simulations and the exactness of such
a condition are proved here once.
-/
namespace NvdlaVp.MachineRuns

theorem getElem?_of_prefix {α : Type*} {xs ys : List α} (h : xs <+: ys) {i : ℕ} {x : α}
    (hx : xs[i]? = some x) : ys[i]? = some x := by
  obtain ⟨zs, rfl⟩ := h
  rwa [List.getElem?_append_left (List.getElem?_eq_some_iff.mp hx).1]

theorem getElem?_set_eq_some {α : Type*} {xs : List α} {i j : ℕ} {x y z : α}
    (hx : xs[i]? = some x) :
    (xs.set i y)[j]? = some z ↔ i = j ∧ y = z ∨ i ≠ j ∧ xs[j]? = some z := by
  have hi := (List.getElem?_eq_some_iff.mp hx).1
  by_cases hij : i = j
  · subst hij
    simp [hi]
  · simp [hij]

theorem getElem?_concat_eq_some {α : Type*} {xs : List α} {i : ℕ} {x y : α} :
    (xs ++ [x])[i]? = some y ↔ xs[i]? = some y ∨ i = xs.length ∧ x = y := by
  rw [List.getElem?_append]
  by_cases hi : i < xs.length
  · rw [if_pos hi]
    exact ⟨Or.inl, fun h => h.resolve_right fun hlast => by omega⟩
  · rw [if_neg hi, List.getElem?_eq_none (by omega : xs.length ≤ i)]
    rcases Nat.eq_or_lt_of_le (not_lt.mp hi) with heq | hlt
    · simp [← heq]
    · rw [List.getElem?_eq_none (by simp only [List.length_singleton]; omega)]
      simp only [reduceCtorEq, false_or, false_iff]
      omega

/-- A start state and a step that is `none` where the action is not enabled. -/
structure Machine (σ α : Type*) where
  init : σ
  step : σ → α → Option σ

namespace Machine
variable {σ τ α β : Type*}

/-- The computable run: `none` once an action is not enabled or its step not admitted. -/
def exec (M : Machine σ α) (C : σ → α → Prop) [∀ s a, Decidable (C s a)] :
    σ → List α → Option σ
  | s, [] => some s
  | s, a :: as => if C s a then (M.step s a).bind fun u => exec M C u as else none

/-- A run each of whose steps, taken in `s` by `a`, meets `C s a`. -/
inductive RunsWith (M : Machine σ α) (C : σ → α → Prop) : σ → List α → σ → Prop where
  | refl (s : σ) : RunsWith M C s [] s
  | next {s u v : σ} {a : α} {as : List α} (ok : C s a) (h : M.step s a = some u)
      (tail : RunsWith M C u as v) : RunsWith M C s (a :: as) v

abbrev Runs (M : Machine σ α) : σ → List α → σ → Prop := M.RunsWith fun _ _ => True

variable {M : Machine σ α} {C D : σ → α → Prop} {s u v : σ} {a : α} {as bs : List α}

theorem RunsWith.mono (h : M.RunsWith C s as u) (hCD : ∀ s a, C s a → D s a) :
    M.RunsWith D s as u := by
  induction h with
  | refl s => exact .refl s
  | next ok h _ ih => exact .next (hCD _ _ ok) h ih

theorem RunsWith.runs (h : M.RunsWith C s as u) : M.Runs s as u :=
  h.mono fun _ _ _ => trivial

theorem RunsWith.trans (h : M.RunsWith C s as u) (h' : M.RunsWith C u bs v) :
    M.RunsWith C s (as ++ bs) v := by
  induction h with
  | refl _ => exact h'
  | next ok h _ ih => exact .next ok h (ih h')

theorem RunsWith.unique (h : M.RunsWith C s as u) (h' : M.RunsWith D s as v) : u = v := by
  induction h with
  | refl s =>
    cases h'
    rfl
  | next _ h _ ih =>
    cases h' with
    | next _ h' tail =>
      obtain rfl := Option.some.inj (h.symm.trans h')
      exact ih tail

theorem RunsWith.one (ok : C s a) (h : M.step s a = some u) : M.RunsWith C s [a] u :=
  .next ok h (.refl u)

theorem runsWith_of_exec [∀ s a, Decidable (C s a)] (h : M.exec C s as = some u) :
    M.RunsWith C s as u := by
  induction as generalizing s with
  | nil =>
    obtain rfl : s = u := by simpa [exec] using h
    exact .refl s
  | cons a as ih =>
    simp only [exec, Option.ite_none_right_eq_some, Option.bind_eq_some_iff] at h
    obtain ⟨ok, v, hv, htail⟩ := h
    exact .next ok hv (ih htail)

theorem runsWith_of_eval (M : Machine σ α) (C : σ → α → Prop) [∀ s a, Decidable (C s a)]
    (as : List α) (P : σ → Prop) [DecidablePred P]
    (h : (M.exec C M.init as).any (fun u => decide (P u)) = true) :
    ∃ u, M.RunsWith C M.init as u ∧ P u := by
  cases hs : M.exec C M.init as with
  | none => simp [hs] at h
  | some u => exact ⟨u, runsWith_of_exec hs, by simpa [hs] using h⟩

/-- The step rule: what every admitted step keeps holds where a run ends. -/
theorem RunsWith.invariant (I : σ → Prop) (h : M.RunsWith C s as u) (hs : I s)
    (keep : ∀ s a u, I s → C s a → M.step s a = some u → I u) : I u := by
  induction h with
  | refl _ => exact hs
  | next ok h _ ih => exact ih (keep _ _ _ hs ok h)

theorem RunsWith.relates (R : σ → σ → Prop) (h : M.RunsWith C s as u) (hr : ∀ s, R s s)
    (ht : ∀ s u v, R s u → R u v → R s v)
    (hstep : ∀ s a u, M.step s a = some u → R s u) : R s u := by
  induction h with
  | refl s => exact hr s
  | next _ h _ ih => exact ht _ _ _ (hstep _ _ _ h) ih

def Throughout (M : Machine σ α) (P : σ → Prop) (s : σ) (as : List α) : Prop :=
  ∀ bs u, bs <+: as → M.Runs s bs u → P u

theorem throughout_cons (P : σ → Prop) (h : M.step s a = some u) :
    M.Throughout P s (a :: as) ↔ P s ∧ M.Throughout P u as := by
  constructor
  · intro hall
    refine ⟨hall [] s List.nil_prefix (.refl s), ?_⟩
    intro bs v hp hrun
    exact hall (a :: bs) v (List.cons_prefix_cons.mpr ⟨rfl, hp⟩) (.next trivial h hrun)
  · rintro ⟨hs, hall⟩ bs v hp hrun
    cases hrun with
    | refl _ => exact hs
    | next _ hb tail =>
      obtain ⟨rfl, htl⟩ := List.cons_prefix_cons.mp hp
      obtain rfl : u = _ := Option.some.inj (h.symm.trans hb)
      exact hall _ v htl tail

/-- A condition on steps is exact for `P`: admitted steps keep `P`, and a step that the
    condition leaves out takes a state with `P` to one without. -/
theorem throughout_iff (I P : σ → Prop) (hI : I s) (hP : P s)
    (keepI : ∀ s a u, I s → P s → M.step s a = some u → I u)
    (keep : ∀ s a u, I s → P s → C s a → M.step s a = some u → P u)
    (only : ∀ s a u, I s → P s → M.step s a = some u → P u → C s a)
    (h : M.Runs s as v) : M.Throughout P s as ↔ M.RunsWith C s as v := by
  induction h with
  | refl s =>
    refine ⟨fun _ => .refl s, ?_⟩
    intro _ bs u hp hrun
    rw [List.prefix_nil.mp hp] at hrun
    cases hrun
    exact hP
  | @next s u v a as _ h tail ih =>
    rw [throughout_cons P h]
    have hu := keepI s a u hI hP h
    constructor
    · rintro ⟨_, hall⟩
      have hPu : P u := hall [] u List.nil_prefix (.refl u)
      exact .next (only s a u hI hP h hPu) h ((ih hu hPu).mp hall)
    · intro hrun
      cases hrun with
      | next ok h' tail' =>
        obtain rfl : u = _ := Option.some.inj (h.symm.trans h')
        have hPu := keep s a u hI hP ok h
        exact ⟨hP, (ih hu hPu).mpr tail'⟩

theorem throughout_iff_within (D : σ → α → Prop) (I P : σ → Prop) (hI : I s) (hP : P s)
    (keepI : ∀ s a u, I s → P s → D s a → M.step s a = some u → I u)
    (keep : ∀ s a u, I s → P s → D s a → C s a → M.step s a = some u → P u)
    (only : ∀ s a u, I s → P s → D s a → M.step s a = some u → P u → C s a)
    (h : M.RunsWith D s as v) : M.Throughout P s as ↔ M.RunsWith C s as v := by
  induction h with
  | refl s =>
    refine ⟨fun _ => .refl s, ?_⟩
    intro _ bs u hp hrun
    rw [List.prefix_nil.mp hp] at hrun
    cases hrun
    exact hP
  | @next s u v a as hD h tail ih =>
    rw [throughout_cons P h]
    have hu := keepI s a u hI hP hD h
    constructor
    · rintro ⟨_, hall⟩
      have hPu : P u := hall [] u List.nil_prefix (.refl u)
      exact .next (only s a u hI hP hD h hPu) h ((ih hu hPu).mp hall)
    · intro hrun
      cases hrun with
      | next ok h' tail' =>
        obtain rfl : u = _ := Option.some.inj (h.symm.trans h')
        have hPu := keep s a u hI hP hD ok h
        exact ⟨hP, (ih hu hPu).mpr tail'⟩

section Images
variable {N : Machine τ β} {f : σ → τ} {e : α → β}

/-- A machine that does on the images what another does: its runs are the images of runs. -/
theorem RunsWith.image (hstep : ∀ s a, (M.step s a).map f = N.step (f s) (e a))
    (h : M.Runs s as u) : N.Runs (f s) (as.map e) (f u) := by
  induction h with
  | refl s => exact .refl _
  | @next s u v a as _ h _ ih =>
    have himage := hstep s a
    rw [h, Option.map_some] at himage
    exact .next trivial himage.symm ih

theorem runs_of_image (hstep : ∀ s a, (M.step s a).map f = N.step (f s) (e a)) {t : τ}
    (h : N.Runs (f s) (as.map e) t) : ∃ u, M.Runs s as u ∧ f u = t := by
  induction as generalizing s with
  | nil =>
    cases h
    exact ⟨s, .refl s, rfl⟩
  | cons a as ih =>
    rw [List.map_cons] at h
    cases h with
    | next _ h htail =>
      obtain ⟨u, hu, rfl⟩ := Option.map_eq_some_iff.mp ((hstep s a).trans h)
      obtain ⟨v, hv, ht⟩ := ih htail
      exact ⟨v, .next trivial hu hv, ht⟩

end Images

structure Refines (M : Machine σ α) (C : σ → α → Prop) (A : Machine τ β)
    (R : σ → τ → Prop) : Prop where
  start : R M.init A.init
  simulate : ∀ s t a u, R s t → C s a → M.step s a = some u →
    ∃ bs w, A.Runs t bs w ∧ R u w

theorem Refines.runs {A : Machine τ β} {R : σ → τ → Prop} {t : τ} (r : M.Refines C A R)
    (h : M.RunsWith C s as u) (hR : R s t) : ∃ bs w, A.Runs t bs w ∧ R u w := by
  induction h generalizing t with
  | refl s => exact ⟨[], t, .refl t, hR⟩
  | next ok h _ ih =>
    obtain ⟨bs, w, hw, hR'⟩ := r.simulate _ t _ _ hR ok h
    obtain ⟨bs', w', hw', hR''⟩ := ih hR'
    exact ⟨bs ++ bs', w', hw.trans hw', hR''⟩

theorem Refines.reaches {A : Machine τ β} {R : σ → τ → Prop} (r : M.Refines C A R)
    (h : M.RunsWith C M.init as u) : ∃ bs w, A.Runs A.init bs w ∧ R u w :=
  r.runs h r.start

end Machine
end NvdlaVp.MachineRuns
