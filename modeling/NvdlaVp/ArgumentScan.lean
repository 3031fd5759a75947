import Mathlib.Data.List.Induction

set_option autoImplicit false

namespace NvdlaVp.ArgumentScan
variable {α σ τ : Type*}

inductive Kind where
  | other
  | flag
  | valued
  | stop
  deriving DecidableEq, Repr

inductive Stop (α : Type*) where
  | asked (option : α)
  | missing (option : α)
  deriving DecidableEq, Repr

def Stop.option : Stop α → α
  | .asked option => option
  | .missing option => option

structure Scanner (α σ : Type*) where
  kind : α → Kind
  onFlag : σ → α → σ
  onValue : σ → α → α → σ

def Scanner.scan (S : Scanner α σ) : σ → List α → Except (Stop α) σ
  | s, [] => .ok s
  | s, arg :: rest =>
    match S.kind arg with
    | .other => S.scan s rest
    | .flag => S.scan (S.onFlag s arg) rest
    | .stop => .error (.asked arg)
    | .valued =>
      match rest with
      | [] => .error (.missing arg)
      | value :: rest => S.scan (S.onValue s arg value) rest

structure Reading (α : Type*) where
  pos : ℕ
  option : α
  value : Option α
  deriving DecidableEq, Repr

def readings (kind : α → Kind) : ℕ → List α → Except (Stop α) (List (Reading α))
  | _, [] => .ok []
  | i, arg :: rest =>
    match kind arg with
    | .other => readings kind (i + 1) rest
    | .flag => (readings kind (i + 1) rest).map (⟨i, arg, none⟩ :: ·)
    | .stop => .error (.asked arg)
    | .valued =>
      match rest with
      | [] => .error (.missing arg)
      | value :: rest => (readings kind (i + 2) rest).map (⟨i, arg, some value⟩ :: ·)

def consumed (kind : α → Kind) : List α → List (α × α)
  | [] => []
  | arg :: rest =>
    match kind arg with
    | .other => consumed kind rest
    | .flag => consumed kind rest
    | .stop => []
    | .valued =>
      match rest with
      | [] => []
      | value :: rest => (arg, value) :: consumed kind rest

def Scanner.take (S : Scanner α σ) (s : σ) (r : Reading α) : σ :=
  match r.value with
  | none => S.onFlag s r.option
  | some value => S.onValue s r.option value

section Equations
variable {kind : α → Kind} {arg : α}

theorem readings_other (h : kind arg = .other) (i : ℕ) (rest : List α) :
    readings kind i (arg :: rest) = readings kind (i + 1) rest := by
  rw [readings.eq_def]
  simp only [h]

theorem readings_flag (h : kind arg = .flag) (i : ℕ) (rest : List α) :
    readings kind i (arg :: rest) =
      (readings kind (i + 1) rest).map (⟨i, arg, none⟩ :: ·) := by
  rw [readings.eq_def]
  simp only [h]

theorem readings_stop (h : kind arg = .stop) (i : ℕ) (rest : List α) :
    readings kind i (arg :: rest) = .error (.asked arg) := by
  rw [readings.eq_def]
  simp only [h]

theorem readings_missing (h : kind arg = .valued) (i : ℕ) :
    readings kind i [arg] = .error (.missing arg) := by
  rw [readings.eq_def]
  simp only [h]

theorem readings_valued (h : kind arg = .valued) (i : ℕ) (value : α) (rest : List α) :
    readings kind i (arg :: value :: rest) =
      (readings kind (i + 2) rest).map (⟨i, arg, some value⟩ :: ·) := by
  rw [readings.eq_def]
  simp only [h]

end Equations

theorem map_eq_ok {ε β γ : Type*} {f : β → γ} {x : Except ε β} {c : γ} (h : x.map f = .ok c) :
    ∃ b, x = .ok b ∧ f b = c := by
  cases x with
  | error e => exact absurd h nofun
  | ok b => exact ⟨b, rfl, Except.ok.inj h⟩

theorem map_eq_error {ε β γ : Type*} {f : β → γ} {x : Except ε β} {e : ε}
    (h : x.map f = .error e) : x = .error e := by
  cases x with
  | error e' => exact congrArg _ (Except.error.inj h)
  | ok b => exact absurd h nofun

theorem pass_induction {motive : List α → Prop} (args : List α) (nil : motive [])
    (cons : ∀ arg rest, motive rest → (∀ value rest', rest = value :: rest' → motive rest') →
      motive (arg :: rest)) : motive args := by
  induction args using List.twoStepInduction with
  | nil => exact nil
  | singleton arg => exact cons arg [] nil nofun
  | cons_cons arg value rest ihrest ih =>
    refine cons arg (value :: rest) (ih value) fun value' rest' heq => ?_
    obtain ⟨-, rfl⟩ := List.cons.inj heq
    exact ihrest

theorem Scanner.scan_eq (S : Scanner α σ) (i : ℕ) (s : σ) (args : List α) :
    S.scan s args = (readings S.kind i args).map fun rs => rs.foldl S.take s := by
  induction args using pass_induction generalizing i s with
  | nil => rfl
  | cons arg rest ih ihrest =>
    cases h : S.kind arg with
    | other =>
      rw [readings_other h, Scanner.scan.eq_def]
      simp only [h]
      exact ih (i + 1) s
    | flag =>
      rw [readings_flag h, Scanner.scan.eq_def]
      simp only [h]
      refine (ih (i + 1) (S.onFlag s arg)).trans ?_
      cases readings S.kind (i + 1) rest <;> rfl
    | stop =>
      rw [readings_stop h, Scanner.scan.eq_def]
      simp only [h]
      rfl
    | valued =>
      cases rest with
      | nil =>
        rw [readings_missing h, Scanner.scan.eq_def]
        simp only [h]
        rfl
      | cons value rest =>
        rw [readings_valued h, Scanner.scan.eq_def]
        simp only [h]
        refine (ihrest value rest rfl (i + 2) (S.onValue s arg value)).trans ?_
        cases readings S.kind (i + 2) rest <;> rfl

theorem Scanner.readings_of_ok {S : Scanner α σ} {s s' : σ} {args : List α}
    (h : S.scan s args = .ok s') (i : ℕ) :
    ∃ rs, readings S.kind i args = .ok rs ∧ rs.foldl S.take s = s' := by
  rw [S.scan_eq i] at h
  exact map_eq_ok h

theorem readings_error {kind : α → Kind} {i : ℕ} {args : List α} {e : Stop α}
    (h : readings kind i args = .error e) : kind e.option = .valued ∨ kind e.option = .stop := by
  induction args using pass_induction generalizing i with
  | nil => exact absurd h nofun
  | cons arg rest ih ihrest =>
    cases hkind : kind arg with
    | other =>
      rw [readings_other hkind] at h
      exact ih h
    | flag =>
      rw [readings_flag hkind] at h
      exact ih (map_eq_error h)
    | stop =>
      rw [readings_stop hkind] at h
      obtain rfl := Except.error.inj h
      exact .inr hkind
    | valued =>
      cases rest with
      | nil =>
        rw [readings_missing hkind] at h
        obtain rfl := Except.error.inj h
        exact .inl hkind
      | cons value rest =>
        rw [readings_valued hkind] at h
        exact ihrest value rest rfl (map_eq_error h)

theorem readings_cases {kind : α → Kind} {i : ℕ} {arg : α} {rest : List α}
    {rs : List (Reading α)} (h : readings kind i (arg :: rest) = .ok rs) :
    kind arg = .other ∧ readings kind (i + 1) rest = .ok rs ∨
    kind arg = .flag ∧ (∃ rs', readings kind (i + 1) rest = .ok rs' ∧
      rs = ⟨i, arg, none⟩ :: rs') ∨
    kind arg = .valued ∧ ∃ value rest' rs', rest = value :: rest' ∧
      readings kind (i + 2) rest' = .ok rs' ∧ rs = ⟨i, arg, some value⟩ :: rs' := by
  cases hkind : kind arg with
  | other =>
    rw [readings_other hkind] at h
    exact .inl ⟨rfl, h⟩
  | flag =>
    rw [readings_flag hkind] at h
    obtain ⟨rs', hrest, rfl⟩ := map_eq_ok h
    exact .inr (.inl ⟨rfl, rs', hrest, rfl⟩)
  | stop =>
    rw [readings_stop hkind] at h
    exact absurd h nofun
  | valued =>
    cases rest with
    | nil =>
      rw [readings_missing hkind] at h
      exact absurd h nofun
    | cons value rest =>
      rw [readings_valued hkind] at h
      obtain ⟨rs', hrest, rfl⟩ := map_eq_ok h
      exact .inr (.inr ⟨rfl, value, rest, rs', rfl, hrest, rfl⟩)

theorem readings_spec {kind : α → Kind} {i : ℕ} {args : List α} {rs : List (Reading α)}
    (h : readings kind i args = .ok rs) : ∀ r ∈ rs, i ≤ r.pos ∧
      (kind r.option = .flag ∧ r.value = none ∨ kind r.option = .valued ∧ r.value.isSome) := by
  induction args using pass_induction generalizing i rs with
  | nil =>
    obtain rfl := Except.ok.inj h
    exact nofun
  | cons arg rest ih ihrest =>
    intro r hr
    obtain ⟨_, h⟩ | ⟨hkind, rs', hrest, rfl⟩ | ⟨hkind, value, rest, rs', rfl, hrest, rfl⟩ :=
      readings_cases h
    · obtain ⟨hpos, hvalue⟩ := ih h r hr
      exact ⟨by omega, hvalue⟩
    · rcases List.mem_cons.mp hr with rfl | hr
      · exact ⟨Nat.le_refl i, .inl ⟨hkind, rfl⟩⟩
      · obtain ⟨hpos, hvalue⟩ := ih hrest r hr
        exact ⟨by omega, hvalue⟩
    · rcases List.mem_cons.mp hr with rfl | hr
      · exact ⟨Nat.le_refl i, .inr ⟨hkind, rfl⟩⟩
      · obtain ⟨hpos, hvalue⟩ := ihrest value rest rfl hrest r hr
        exact ⟨by omega, hvalue⟩

section Agreement
variable {kind ref : α → Kind}

/-- The table of a pass that knows some of the options, and of some only that they are there. -/
def PartOf (kind ref : α → Kind) : Prop :=
  ∀ arg, kind arg = .other ∨ kind arg = ref arg ∨ kind arg = .flag ∧ ref arg = .valued

def restrict (kind : α → Kind) (r : Reading α) : Option (Reading α) :=
  match kind r.option with
  | .valued => some r
  | .flag => some ⟨r.pos, r.option, none⟩
  | _ => none

theorem restrict_pos {r r' : Reading α} (h : restrict kind r = some r') : r'.pos = r.pos := by
  unfold restrict at h
  split at h
  · rw [← Option.some.inj h]
  · rw [← Option.some.inj h]
  · exact absurd h nofun

theorem restrict_option {r r' : Reading α} (h : restrict kind r = some r') :
    r'.option = r.option := by
  unfold restrict at h
  split at h
  · rw [← Option.some.inj h]
  · rw [← Option.some.inj h]
  · exact absurd h nofun

/-- No value consumed by `ref` is an option of `kind`, unless `kind` consumes it too. -/
def Apart (kind ref : α → Kind) (args : List α) : Prop :=
  ∀ p ∈ consumed ref args, kind p.1 ≠ .valued → kind p.2 = .other

theorem apart_skip {arg : α} (h : ref arg = .other ∨ ref arg = .flag) (rest : List α) :
    Apart kind ref (arg :: rest) ↔ Apart kind ref rest := by
  have hconsumed : consumed ref (arg :: rest) = consumed ref rest := by
    rw [consumed.eq_def]
    rcases h with h | h <;> simp only [h]
  rw [Apart, hconsumed, Apart]

theorem apart_valued {arg : α} (h : ref arg = .valued) (value : α) (rest : List α) :
    Apart kind ref (arg :: value :: rest) ↔
      (kind arg ≠ .valued → kind value = .other) ∧ Apart kind ref rest := by
  have hconsumed : consumed ref (arg :: value :: rest) = (arg, value) :: consumed ref rest := by
    rw [consumed.eq_def]
    simp only [h]
  rw [Apart, hconsumed, List.forall_mem_cons, Apart]

/-- What a pass with the table `kind` comes to where one with `ref` comes to `x`. -/
def Seen (kind ref : α → Kind) (x y : Except (Stop α) (List (Reading α))) : Prop :=
  match x with
  | .ok all => y = .ok (all.filterMap (restrict kind))
  | .error e => kind e.option = ref e.option → y = .error e

theorem Seen.skip {x y : Except (Stop α) (List (Reading α))} {r : Reading α}
    (h : Seen kind ref x y) (hr : restrict kind r = none) :
    Seen kind ref (x.map (r :: ·)) y := by
  cases x with
  | error e => exact h
  | ok all => exact h.trans (congrArg _ (List.filterMap_cons_none hr).symm)

theorem Seen.cons {x y : Except (Stop α) (List (Reading α))} {r r' : Reading α}
    (h : Seen kind ref x y) (hr : restrict kind r = some r') :
    Seen kind ref (x.map (r :: ·)) (y.map (r' :: ·)) := by
  cases x with
  | error e => exact fun heq => congrArg _ (h heq)
  | ok all =>
    have hy : y = .ok (all.filterMap (restrict kind)) := h
    rw [hy]
    exact congrArg _ (List.filterMap_cons_some hr).symm

theorem restrict_other {r : Reading α} (h : kind r.option = .other) : restrict kind r = none := by
  rw [restrict, h]

theorem restrict_flag {r : Reading α} (h : kind r.option = .flag) :
    restrict kind r = some ⟨r.pos, r.option, none⟩ := by
  rw [restrict, h]

theorem restrict_valued {r : Reading α} (h : kind r.option = .valued) :
    restrict kind r = some r := by
  rw [restrict, h]

theorem PartOf.of_other (h : PartOf kind ref) {arg : α} (href : ref arg = .other) :
    kind arg = .other := by
  rcases h arg with hkind | hkind | ⟨_, hvalued⟩
  · exact hkind
  · exact hkind.trans href
  · exact absurd (href.symm.trans hvalued) nofun

theorem PartOf.of_flag (h : PartOf kind ref) {arg : α} (href : ref arg = .flag) :
    kind arg = .other ∨ kind arg = .flag := by
  rcases h arg with hkind | hkind | ⟨hkind, _⟩
  · exact .inl hkind
  · exact .inr (hkind.trans href)
  · exact .inr hkind

theorem PartOf.of_valued (h : PartOf kind ref) {arg : α} (href : ref arg = .valued) :
    kind arg = .other ∨ kind arg = .flag ∨ kind arg = .valued := by
  rcases h arg with hkind | hkind | ⟨hkind, _⟩
  · exact .inl hkind
  · exact .inr (.inr (hkind.trans href))
  · exact .inr (.inl hkind)

/-- Where no value is taken for an option, a pass sees the part of the readings that is its own. -/
theorem seen_of_apart (hpart : PartOf kind ref) {args : List α} (hapart : Apart kind ref args)
    (i : ℕ) : Seen kind ref (readings ref i args) (readings kind i args) := by
  induction args using pass_induction generalizing i with
  | nil => exact rfl
  | cons arg rest ih ihrest =>
    cases href : ref arg with
    | other =>
      rw [readings_other href, readings_other (hpart.of_other href)]
      exact ih ((apart_skip (.inl href) rest).mp hapart) (i + 1)
    | flag =>
      have hrest := ih ((apart_skip (.inr href) rest).mp hapart) (i + 1)
      rw [readings_flag href]
      rcases hpart.of_flag href with hkind | hkind
      · rw [readings_other hkind]
        exact hrest.skip (restrict_other hkind)
      · rw [readings_flag hkind]
        exact hrest.cons (restrict_flag hkind)
    | stop =>
      rw [readings_stop href]
      intro heq
      exact readings_stop (heq.trans href) i rest
    | valued =>
      cases rest with
      | nil =>
        rw [readings_missing href]
        intro heq
        exact readings_missing (heq.trans href) i
      | cons value rest =>
        obtain ⟨hvalue, htail⟩ := (apart_valued href value rest).mp hapart
        have hrest := ihrest value rest rfl htail (i + 2)
        rw [readings_valued href]
        rcases hpart.of_valued href with hkind | hkind | hkind
        · have hother : kind value = .other := hvalue fun h => absurd (hkind.symm.trans h) nofun
          rw [readings_other hkind, readings_other hother]
          exact hrest.skip (restrict_other hkind)
        · have hother : kind value = .other := hvalue fun h => absurd (hkind.symm.trans h) nofun
          rw [readings_flag hkind, readings_other hother]
          exact hrest.cons (restrict_flag hkind)
        · rw [readings_valued hkind]
          exact hrest.cons (restrict_valued hkind)

theorem other_of_late {i : ℕ} {arg : α} {rest : List α} {rs : List (Reading α)}
    (h : readings kind i (arg :: rest) = .ok rs) (hlate : ∀ r ∈ rs, i < r.pos) :
    kind arg = .other := by
  obtain ⟨hkind, -⟩ | ⟨-, rs', -, rfl⟩ | ⟨-, value, rest, rs', -, -, rfl⟩ := readings_cases h
  · exact hkind
  · exact absurd (hlate _ List.mem_cons_self) (Nat.lt_irrefl i)
  · exact absurd (hlate _ List.mem_cons_self) (Nat.lt_irrefl i)

/-- A pass that sees its part of the readings takes no other option's value for its own option. -/
theorem apart_of_seen (hpart : PartOf kind ref) {args : List α} {i : ℕ} {all : List (Reading α)}
    (hall : readings ref i args = .ok all)
    (h : readings kind i args = .ok (all.filterMap (restrict kind))) : Apart kind ref args := by
  induction args using pass_induction generalizing i all with
  | nil => exact nofun
  | cons arg rest ih ihrest =>
    obtain ⟨href, hrest⟩ | ⟨href, all, hrest, rfl⟩ | ⟨href, value, rest, all, rfl, hrest, rfl⟩ :=
      readings_cases hall
    · rw [readings_other (hpart.of_other href)] at h
      exact (apart_skip (.inl href) rest).mpr (ih hrest h)
    · refine (apart_skip (.inr href) rest).mpr ?_
      rcases hpart.of_flag href with hkind | hkind
      · rw [readings_other hkind, List.filterMap_cons_none (restrict_other hkind)] at h
        exact ih hrest h
      · rw [readings_flag hkind, List.filterMap_cons_some (restrict_flag hkind)] at h
        obtain ⟨rs, hrs, heq⟩ := map_eq_ok h
        exact ih hrest (hrs.trans (congrArg _ (List.cons.inj heq).2))
    · have hlate : ∀ r ∈ all.filterMap (restrict kind), i + 1 < r.pos := by
        intro r hr
        obtain ⟨r', hr', hrestrict⟩ := List.mem_filterMap.mp hr
        have := (readings_spec hrest r' hr').1
        rw [restrict_pos hrestrict]
        omega
      refine (apart_valued href value rest).mpr ?_
      rcases hpart.of_valued href with hkind | hkind | hkind
      · rw [readings_other hkind, List.filterMap_cons_none (restrict_other hkind)] at h
        have hother := other_of_late h hlate
        rw [readings_other hother] at h
        exact ⟨fun _ => hother, ihrest value rest rfl hrest h⟩
      · rw [readings_flag hkind, List.filterMap_cons_some (restrict_flag hkind)] at h
        obtain ⟨rs, hrs, heq⟩ := map_eq_ok h
        obtain ⟨-, rfl⟩ := List.cons.inj heq
        have hother := other_of_late hrs hlate
        rw [readings_other hother] at hrs
        exact ⟨fun _ => hother, ihrest value rest rfl hrest hrs⟩
      · rw [readings_valued hkind, List.filterMap_cons_some (restrict_valued hkind)] at h
        obtain ⟨rs, hrs, heq⟩ := map_eq_ok h
        obtain ⟨-, rfl⟩ := List.cons.inj heq
        exact ⟨fun hne => absurd hkind hne, ihrest value rest rfl hrest hrs⟩

theorem foldl_restrict {S : Scanner α σ} {R : Scanner α τ} {rel : τ → σ → Prop}
    {all : List (Reading α)} (h : ∀ r ∈ all, ∀ t s, rel t s →
      rel (R.take t r) ((restrict S.kind r).elim s (S.take s)))
    {t : τ} {s : σ} (hrel : rel t s) :
    rel (all.foldl R.take t) ((all.filterMap (restrict S.kind)).foldl S.take s) := by
  induction all generalizing t s with
  | nil => exact hrel
  | cons r all ih =>
    have hstep := h r List.mem_cons_self t s hrel
    have hrest := ih (fun r' hr' => h r' (List.mem_cons_of_mem r hr')) hstep
    cases hr : restrict S.kind r with
    | none =>
      rw [List.filterMap_cons_none hr]
      rw [hr] at hrest
      exact hrest
    | some r' =>
      rw [List.filterMap_cons_some hr]
      rw [hr] at hrest
      exact hrest

end Agreement
end NvdlaVp.ArgumentScan
