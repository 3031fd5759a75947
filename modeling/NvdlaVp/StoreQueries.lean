import NvdlaVp.KeyValueStore
import NvdlaVp.MachineRuns

set_option autoImplicit false

namespace NvdlaVp.StoreQueries
open KeyValueStore MachineRuns

variable {κ ν ρ σ α : Type*}

inductive Query (κ ν ρ : Type*) where
  | quiet (r : ρ)
  | get (k : κ) (next : Option ν → ρ)
  | put (k : κ) (v : ν) (r : ρ)
  | del (k : κ) (r : ρ)

/-- The calls of an implementation; `none` where a call does not return. -/
structure Interface (σ κ ν : Type*) where
  get : σ → κ → Option (Option ν × σ)
  put : σ → κ → ν → Option σ
  del : σ → κ → Option σ

def Interface.map (κ ν : Type*) [DecidableEq κ] : Interface (Store κ ν) κ ν where
  get m k := some (m.get k, m)
  put m k v := some (m.put k v)
  del m k := some (m.del k)

def Query.serve (I : Interface σ κ ν) (s : σ) : Query κ ν ρ → Option (ρ × σ)
  | quiet r => some (r, s)
  | get k next => (I.get s k).map fun x => (next x.1, x.2)
  | put k v r => (I.put s k v).map fun s' => (r, s')
  | del k r => (I.del s k).map fun s' => (r, s')

def Query.puts : Query κ ν ρ → ℕ
  | put _ _ _ => 1
  | _ => 0

/-- A client is what it asks for in each of its states. -/
abbrev Client (κ ν ρ α : Type*) := ρ → α → Option (Query κ ν ρ)

def Client.over (P : Client κ ν ρ α) (I : Interface σ κ ν) (init : ρ × σ) : Machine (ρ × σ) α where
  init := init
  step x a := (P x.1 a).bind fun q => q.serve I x.2

variable [DecidableEq κ]

def Client.puts (P : Client κ ν ρ α) : ρ × Store κ ν → List α → ℕ
  | _, [] => 0
  | x, a :: as => match P x.1 a with
    | none => 0
    | some q => q.puts + ((q.serve (.map κ ν) x.2).elim 0 fun y => Client.puts P y as)

/-- The implementation stands for the map; `R n` is how they are related after `n` calls that
    put something, of which there may be `limit`. -/
structure Realizes (I : Interface σ κ ν) (limit : ℕ) (R : ℕ → σ → Store κ ν → Prop) : Prop where
  get : ∀ n s m k, R n s m → ∃ s', I.get s k = some (m.get k, s') ∧ R n s' m
  put : ∀ n s m k v, n < limit → R n s m → ∃ s', I.put s k v = some s' ∧ R (n + 1) s' (m.put k v)
  del : ∀ n s m k, R n s m → ∃ s', I.del s k = some s' ∧ R n s' (m.del k)

namespace Realizes
variable {I : Interface σ κ ν} {limit n : ℕ} {R : ℕ → σ → Store κ ν → Prop} {s s' : σ}
  {m m' : Store κ ν} {r r' : ρ} {a : α} {as : List α} {P : Client κ ν ρ α} {init : ρ × σ}
  {init' : ρ × Store κ ν} {q : Query κ ν ρ}

theorem serve (h : Realizes I limit R) (hR : R n s m) (q : Query κ ν ρ)
    (hn : n + q.puts ≤ limit) : ∃ r' s' m', q.serve I s = some (r', s') ∧
      q.serve (.map κ ν) m = some (r', m') ∧ R (n + q.puts) s' m' := by
  cases q with
  | quiet r => exact ⟨r, s, m, rfl, rfl, hR⟩
  | get k next =>
    obtain ⟨s', hget, hR'⟩ := h.get n s m k hR
    refine ⟨next (m.get k), s', m, ?_, rfl, hR'⟩
    rw [Query.serve, hget, Option.map_some]
  | put k v r =>
    obtain ⟨s', hput, hR'⟩ := h.put n s m k v hn hR
    refine ⟨r, s', m.put k v, ?_, rfl, hR'⟩
    rw [Query.serve, hput, Option.map_some]
  | del k r =>
    obtain ⟨s', hdel, hR'⟩ := h.del n s m k hR
    refine ⟨r, s', m.del k, ?_, rfl, hR'⟩
    rw [Query.serve, hdel, Option.map_some]

theorem puts_cons (hq : P r a = some q) (hserve : q.serve (.map κ ν) m = some (r', m')) :
    P.puts (r, m) (a :: as) = q.puts + P.puts (r', m') as := by
  simp only [Client.puts, hq, hserve, Option.elim_some]

theorem puts_le_cons (hq : P r a = some q) : q.puts ≤ P.puts (r, m) (a :: as) := by
  simp only [Client.puts, hq]
  omega

theorem run_over (h : Realizes I limit R) (hR : R n s m) (hlimit : n + P.puts (r, m) as ≤ limit)
    (hrun : (P.over (.map κ ν) init').Runs (r, m) as (r', m')) :
    ∃ s', (P.over I init).Runs (r, s) as (r', s') ∧ R (n + P.puts (r, m) as) s' m' := by
  induction as generalizing r s m n with
  | nil =>
    cases hrun
    exact ⟨s, .refl _, hR⟩
  | cons a as ih =>
    cases hrun with
    | next _ hstep htail =>
      obtain ⟨q, hq, hserve⟩ := Option.bind_eq_some_iff.mp hstep
      have hle : q.puts ≤ P.puts (r, m) (a :: as) := puts_le_cons hq
      obtain ⟨r1, s1, m1, hI, hmap, hR1⟩ := h.serve hR q (by omega)
      obtain rfl := Option.some.inj (hmap.symm.trans hserve)
      rw [puts_cons hq hmap] at hlimit ⊢
      obtain ⟨s', htail', hR'⟩ := ih hR1 (by omega) htail
      rw [Nat.add_assoc] at hR'
      exact ⟨s', .next trivial (Option.bind_eq_some_iff.mpr ⟨q, hq, hI⟩) htail', hR'⟩

theorem run_back (h : Realizes I limit R) (hR : R n s m) (hlimit : n + P.puts (r, m) as ≤ limit)
    (hrun : (P.over I init).Runs (r, s) as (r', s')) :
    ∃ m', (P.over (.map κ ν) init').Runs (r, m) as (r', m') ∧
      R (n + P.puts (r, m) as) s' m' := by
  induction as generalizing r s m n with
  | nil =>
    cases hrun
    exact ⟨m, .refl _, hR⟩
  | cons a as ih =>
    cases hrun with
    | next _ hstep htail =>
      obtain ⟨q, hq, hserve⟩ := Option.bind_eq_some_iff.mp hstep
      have hle : q.puts ≤ P.puts (r, m) (a :: as) := puts_le_cons hq
      obtain ⟨r1, s1, m1, hI, hmap, hR1⟩ := h.serve hR q (by omega)
      obtain rfl := Option.some.inj (hI.symm.trans hserve)
      rw [puts_cons hq hmap] at hlimit ⊢
      obtain ⟨m', htail', hR'⟩ := ih hR1 (by omega) htail
      rw [Nat.add_assoc] at hR'
      exact ⟨m', .next trivial (Option.bind_eq_some_iff.mpr ⟨q, hq, hmap⟩) htail', hR'⟩

end Realizes
end NvdlaVp.StoreQueries
