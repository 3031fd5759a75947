import Mathlib.Data.List.Basic

set_option autoImplicit false

namespace NvdlaVp.LastWrite
variable {σ ε ω ω' : Type*} {write : ε → Option ω}

def last (write : ε → Option ω) (es : List ε) : Option ω := (es.filterMap write).getLast?

@[simp] theorem last_nil : last write [] = none := rfl

theorem last_append (es fs : List ε) :
    last write (es ++ fs) = (last write fs).or (last write es) := by
  rw [last, List.filterMap_append, List.getLast?_append]
  rfl

theorem last_singleton (e : ε) : last write [e] = write e := by
  cases h : write e <;> simp [last, h]

theorem last_cons (e : ε) (es : List ε) :
    last write (e :: es) = (last write es).or (write e) := by
  have happend : last write ([e] ++ es) = (last write es).or (last write [e]) :=
    last_append [e] es
  rw [last_singleton] at happend
  exact happend

theorem last_map (f : ω → ω') (es : List ε) :
    last (fun e => (write e).map f) es = (last write es).map f := by
  induction es with
  | nil => rfl
  | cons e es ih =>
    rw [last_cons, last_cons, ih]
    cases last write es <;> rfl

theorem last_bind {f : ω → Option ω'} (h : ∀ e x, write e = some x → (f x).isSome)
    (es : List ε) : last (fun e => (write e).bind f) es = (last write es).bind f := by
  induction es with
  | nil => rfl
  | cons e es ih =>
    rw [last_cons, last_cons, ih]
    cases hlast : last write es with
    | none => rfl
    | some x =>
      obtain ⟨e', _, he'⟩ := List.mem_filterMap.mp (List.mem_of_getLast? hlast)
      obtain ⟨y, hy⟩ := Option.isSome_iff_exists.mp (h e' x he')
      simp [hy]

theorem read_foldl {step : σ → ε → σ} {es : List ε} (read : σ → ω)
    (h : ∀ e ∈ es, ∀ s, read (step s e) = (write e).getD (read s)) (s : σ) :
    read (es.foldl step s) = (last write es).getD (read s) := by
  induction es generalizing s with
  | nil => rfl
  | cons e es ih =>
    have hrest := ih (fun x hx => h x (List.mem_cons_of_mem e hx)) (step s e)
    rw [List.foldl_cons, hrest, h e List.mem_cons_self, last_cons]
    cases last write es <;> rfl

theorem last_filter {keep : ε → Bool} (h : ∀ e, keep e = false → write e = none) (es : List ε) :
    last write (es.filter keep) = last write es := by
  induction es with
  | nil => rfl
  | cons e es ih =>
    rw [List.filter_cons, last_cons]
    split
    · rw [last_cons, ih]
    · rename_i hkeep
      rw [ih, h e (by simpa using hkeep), Option.or_none]

theorem last_swap {e e' : ε} (h : write e = none ∨ write e' = none) (es fs : List ε) :
    last write (es ++ e :: e' :: fs) = last write (es ++ e' :: e :: fs) := by
  simp only [last_append, last_cons]
  rcases h with h | h <;> simp [h]

end NvdlaVp.LastWrite
