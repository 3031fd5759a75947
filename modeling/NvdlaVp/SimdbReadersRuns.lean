import Mathlib.Data.Finset.Card
import NvdlaVp.SimdbReaders

set_option autoImplicit false

namespace NvdlaVp.Simdb.Readers
open MachineRuns

variable {τ : Type*} [DecidableEq τ]

/-- Where a list is in its life: whether it is deleted, retired and freed, the session that is to
    free it, the one that does, and how many sessions read it. -/
inductive Phase : Bool → Bool → ℕ → Option τ → Option τ → ℕ → Prop where
  | kept (n : ℕ) : Phase false false 0 none none n
  | retiring (t : τ) (n : ℕ) : Phase false true 0 (some t) none n
  | draining (n : ℕ) : Phase true true 0 none none (n + 1)
  | freeing (t : τ) : Phase true true 0 none (some t) 0
  | freed : Phase true true 1 none none 0

section Phases
omit [DecidableEq τ]
variable {d r : Bool} {f n : ℕ} {freer last : Option τ} {t : τ}

theorem Phase.enter (h : Phase false r f freer last n) : Phase false r f freer last (n + 1) := by
  cases h with
  | kept n => exact .kept _
  | retiring t n => exact .retiring t _

theorem Phase.retire (t : τ) (h : Phase d false f freer last n) :
    Phase d true f (some t) last n ∧ freer = none := by
  cases h with
  | kept n => exact ⟨.retiring t n, rfl⟩

theorem Phase.leave (t : τ) (h : Phase d r f freer last (n + 1)) : last = none ∧
    (n = 0 → d = true → Phase d r f freer (some t) 0) ∧
    (¬ (n = 0 ∧ d = true) → Phase d r f freer last n) := by
  cases h with
  | kept _ => exact ⟨rfl, fun _ hd => Bool.noConfusion hd, fun _ => .kept n⟩
  | retiring t' _ => exact ⟨rfl, fun _ hd => Bool.noConfusion hd, fun _ => .retiring t' n⟩
  | draining _ =>
    refine ⟨rfl, fun _ _ => .freeing t, fun hnot => ?_⟩
    obtain ⟨k, rfl⟩ : ∃ k, n = k + 1 := by
      rcases n with _ | k
      · exact absurd ⟨rfl, rfl⟩ hnot
      · exact ⟨k, rfl⟩
    exact .draining k

theorem Phase.delete (h : Phase d r f (some t) last n) : d = false ∧ last = none ∧
    (n = 0 → Phase true r f none (some t) 0) ∧ (n ≠ 0 → Phase true r f none last n) := by
  cases h with
  | retiring _ n =>
    refine ⟨rfl, rfl, fun _ => .freeing t, fun hn => ?_⟩
    obtain ⟨k, rfl⟩ := Nat.exists_eq_succ_of_ne_zero hn
    exact .draining k

theorem Phase.free (h : Phase d r f freer (some t) n) :
    Phase d r (f + 1) freer none n ∧ freer = none ∧ n = 0 ∧ d = true := by
  cases h with
  | freeing _ => exact ⟨.freed, rfl, rfl, rfl⟩

theorem Phase.of_freed (h : Phase d r 1 freer last n) : freer = none ∧ last = none ∧ n = 0 := by
  cases h with
  | freed => exact ⟨rfl, rfl, rfl⟩

end Phases

structure Invariant (s : State τ) (readers : Finset τ) (freer last : Option τ) : Prop where
  reads : ∀ t, t ∈ readers ↔ (s.pc t).role = .reads
  frees : ∀ t, freer = some t ↔ (s.pc t).role = .frees
  freeing : ∀ t, last = some t ↔ (s.pc t).role = .freeing
  count : s.kr.readers = BitVec.ofNat 30 readers.card
  bound : readers.card ≤ 2 ^ 29
  own : ∀ t v, (s.pc t).own = some v → v = s.version
  checked : ∀ t v cur, s.pc t = .incChecked v cur →
    cur.refuses = false ∧ (s.kr.isDeleted = false → v = s.version)
  phase : Phase s.kr.isDeleted s.retired s.freed freer last readers.card

section Steps
variable {s u : State τ} {readers : Finset τ} {freer last : Option τ} {t : τ} {p : Pc}
  {v version : BitVec 32} {cur : KeyReaders}

omit [DecidableEq τ] in
theorem role_of_own {p : Pc} (hown : p.own = some v) : p.role ≠ .none := by
  cases p with
  | idle => cases hown
  | incLoaded _ _ => cases hown
  | incChecked _ _ => cases hown
  | inside _ => exact nofun
  | decLoaded _ del _ => cases del <;> exact nofun
  | decChecked _ del _ => cases del <;> exact nofun
  | freeing _ => exact nofun

/-- A step of the session `t`: what it is for the list before and after, and everybody else. -/
theorem Invariant.update (h : Invariant s readers freer last) {readers' : Finset τ}
    {freer' last' : Option τ} (hpc : u.pc = Function.update s.pc t p)
    (hreads : ∀ t', t' ∈ readers' ↔ if t' = t then p.role = .reads else t' ∈ readers)
    (hfrees : ∀ t', freer' = some t' ↔ if t' = t then p.role = .frees else freer = some t')
    (hfreeing : ∀ t', last' = some t' ↔ if t' = t then p.role = .freeing else last = some t')
    (hcount : u.kr.readers = BitVec.ofNat 30 readers'.card) (hbound : readers'.card ≤ 2 ^ 29)
    (hown : ∀ v, p.own = some v → v = u.version)
    (hversion : u.version = s.version ∨ ∀ t' ≠ t, (s.pc t').own = none)
    (hchecked : ∀ v cur, p = .incChecked v cur →
      cur.refuses = false ∧ (u.kr.isDeleted = false → v = u.version))
    (hkr : u.kr.isDeleted = false → s.kr.isDeleted = false ∧ u.version = s.version)
    (hphase : Phase u.kr.isDeleted u.retired u.freed freer' last' readers'.card) :
    Invariant u readers' freer' last' := by
  have hself : u.pc t = p := by rw [hpc, Function.update_self]
  have hother : ∀ t', t' ≠ t → u.pc t' = s.pc t' := by
    intro t' ht
    rw [hpc, Function.update_of_ne ht]
  refine ⟨?_, ?_, ?_, hcount, hbound, ?_, ?_, hphase⟩
  · intro t'
    rw [hreads]
    split
    · rename_i ht
      rw [ht, hself]
    · rename_i ht
      rw [hother t' ht]
      exact h.reads t'
  · intro t'
    rw [hfrees]
    split
    · rename_i ht
      rw [ht, hself]
    · rename_i ht
      rw [hother t' ht]
      exact h.frees t'
  · intro t'
    rw [hfreeing]
    split
    · rename_i ht
      rw [ht, hself]
    · rename_i ht
      rw [hother t' ht]
      exact h.freeing t'
  · intro t' v hv
    by_cases ht : t' = t
    · rw [ht, hself] at hv
      exact hown v hv
    · rw [hother t' ht] at hv
      rcases hversion with heq | hnone
      · rw [heq]
        exact h.own t' v hv
      · rw [hnone t' ht] at hv
        cases hv
  · intro t' v cur hcur
    by_cases ht : t' = t
    · rw [ht, hself] at hcur
      exact hchecked v cur hcur
    · rw [hother t' ht] at hcur
      obtain ⟨hrefuses, heq⟩ := h.checked t' v cur hcur
      refine ⟨hrefuses, fun hdeleted => ?_⟩
      obtain ⟨hold, hsame⟩ := hkr hdeleted
      rw [hsame]
      exact heq hold

section Parts
variable {role : Role} {o : Option τ}

theorem part_kept (hnew : p.role ≠ role) (hold : o ≠ some t) (t' : τ) :
    o = some t' ↔ if t' = t then p.role = role else o = some t' := by
  split
  · rename_i heq
    rw [heq]
    exact ⟨fun h => absurd h hold, fun h => absurd h hnew⟩
  · rfl

theorem part_taken (hnew : p.role = role) (t' : τ) :
    some t = some t' ↔ if t' = t then p.role = role else none = some t' := by
  split
  · rename_i heq
    simp [heq, hnew]
  · rename_i hne
    simp [Ne.symm hne]

theorem part_left (hnew : p.role ≠ role) (t' : τ) :
    none = some t' ↔ if t' = t then p.role = role else some t = some t' := by
  split
  · simp [hnew]
  · rename_i hne
    simp [Ne.symm hne]

theorem reads_kept (hnew : p.role ≠ .reads) (hold : t ∉ readers) (t' : τ) :
    t' ∈ readers ↔ if t' = t then p.role = .reads else t' ∈ readers := by
  split
  · rename_i heq
    rw [heq]
    exact ⟨fun h => absurd h hold, fun h => absurd h hnew⟩
  · rfl

end Parts

theorem Invariant.setPc (h : Invariant s readers freer last) (hrole : p.role = (s.pc t).role)
    (hown : ∀ v, p.own = some v → v = s.version)
    (hchecked : ∀ v cur, p = .incChecked v cur →
      cur.refuses = false ∧ (s.kr.isDeleted = false → v = s.version)) :
    Invariant (s.setPc t p) readers freer last := by
  refine h.update rfl ?_ ?_ ?_ h.count h.bound hown (.inl rfl) hchecked (fun hd => ⟨hd, rfl⟩)
    h.phase
  · intro t'
    split
    · rename_i ht
      rw [ht, hrole]
      exact h.reads t
    · rfl
  · intro t'
    split
    · rename_i ht
      rw [ht, hrole]
      exact h.frees t
    · rfl
  · intro t'
    split
    · rename_i ht
      rw [ht, hrole]
      exact h.freeing t
    · rfl

theorem invariant_init (τ : Type*) [DecidableEq τ] (version : BitVec 32) :
    Invariant (State.init version : State τ) ∅ none none where
  reads t := by simp [State.init, Pc.role]
  frees t := by simp [State.init, Pc.role]
  freeing t := by simp [State.init, Pc.role]
  count := rfl
  bound := Nat.zero_le _
  own t v hv := by simp [State.init, Pc.own] at hv
  checked t v cur hpc := by simp [State.init] at hpc
  phase := .kept _

theorem msb_ofNat {n : ℕ} (hn : n ≤ 2 ^ 29) : (BitVec.ofNat 30 n).msb = false ↔ n < 2 ^ 29 := by
  rw [BitVec.msb_eq_false_iff_two_mul_lt, BitVec.toNat_ofNat, Nat.mod_eq_of_lt (by omega)]
  omega

theorem Invariant.counted (h : Invariant s readers freer last)
    (hpc : s.pc t = .incChecked version cur) (hkr : s.kr = cur) :
    Invariant { s.setPc t (.inside version) with kr := { cur with readers := cur.readers + 1 } }
      (insert t readers) freer last := by
  obtain ⟨hrefuses, hversion⟩ := h.checked t version cur hpc
  rw [KeyReaders.refuses, Bool.or_eq_false_iff] at hrefuses
  obtain ⟨hmsb, hdeleted⟩ := hrefuses
  subst hkr
  have hnone : (s.pc t).role = .none := by rw [hpc, Pc.role]
  have ht : t ∉ readers := by
    rw [h.reads, hnone]
    simp
  have hcard := Finset.card_insert_of_notMem ht
  rw [h.count, msb_ofNat h.bound] at hmsb
  have hfreer : freer ≠ some t := fun heq => by
    rw [h.frees, hnone] at heq
    cases heq
  have hlast : last ≠ some t := fun heq => by
    rw [h.freeing, hnone] at heq
    cases heq
  refine h.update rfl ?_ (part_kept (by simp [Pc.role]) hfreer)
    (part_kept (by simp [Pc.role]) hlast) ?_ ?_ ?_ (.inl rfl) (by simp) (fun hd => ⟨hd, rfl⟩) ?_
  · intro t'
    simp only [Finset.mem_insert, Pc.role, if_true_left, eq_self]
    tauto
  · rw [hcard, h.count]
    exact (BitVec.ofNat_add readers.card 1).symm
  · omega
  · intro v hv
    exact Option.some.inj hv ▸ hversion hdeleted
  · have hphase := h.phase
    rw [hdeleted] at hphase
    simp only [State.setPc, hdeleted, hcard]
    exact hphase.enter

theorem Invariant.left (h : Invariant s readers freer last)
    (hpc : s.pc t = .decChecked version false cur) (hkr : s.kr = cur) :
    ∃ last', Invariant { s.setPc t (if cur.last false then .freeing version else .idle) with
      kr := cur.next false } (readers.erase t) freer last' := by
  subst hkr
  have hrole : (s.pc t).role = .reads := by rw [hpc, Pc.role]
  have ht : t ∈ readers := (h.reads t).mpr hrole
  have hcard := Finset.card_erase_of_mem ht
  have hpos : 0 < readers.card := Finset.card_pos.mpr ⟨t, ht⟩
  have hversion := h.own t version (by rw [hpc, Pc.own])
  obtain ⟨n, hn⟩ : ∃ n, readers.card = n + 1 := ⟨readers.card - 1, by omega⟩
  have hphase := h.phase
  rw [hn] at hphase
  obtain ⟨hlast, hfreed, hleft⟩ := hphase.leave t
  have hcount := h.count
  have hbound := h.bound
  have hone : s.kr.readers = 1 ↔ n = 0 := by
    rw [hcount, hn, BitVec.toNat_inj.symm, BitVec.toNat_ofNat, Nat.mod_eq_of_lt (by omega)]
    exact Nat.succ_inj
  have hisLast : s.kr.last false = true ↔ n = 0 ∧ s.kr.isDeleted = true := by
    rw [KeyReaders.last, if_neg Bool.false_ne_true, decide_eq_true_iff, hone]
  have hreads : ∀ p : Pc, p.role ≠ .reads → ∀ t', t' ∈ readers.erase t ↔
      if t' = t then p.role = .reads else t' ∈ readers := by
    intro p hp t'
    rw [Finset.mem_erase]
    split
    · rename_i heq
      exact ⟨fun hmem => absurd heq hmem.1, fun hreads => absurd hreads hp⟩
    · rename_i hne
      exact ⟨fun hmem => hmem.2, fun hmem => ⟨hne, hmem⟩⟩
  have hfreer : freer ≠ some t := fun heq => by
    rw [h.frees, hrole] at heq
    cases heq
  have hnext : (s.kr.next false).readers = BitVec.ofNat 30 (readers.erase t).card := by
    rw [KeyReaders.next, if_neg Bool.false_ne_true, hcard, hcount, hn, Nat.add_sub_cancel,
      BitVec.ofNat_add]
    exact BitVec.add_sub_cancel _ _
  by_cases hfree : s.kr.last false = true
  · obtain ⟨hzero, hdeleted⟩ := hisLast.mp hfree
    refine ⟨some t, h.update (p := .freeing version) ?_ (hreads _ (by simp [Pc.role]))
      (part_kept (by simp [Pc.role]) hfreer) (hlast ▸ part_taken rfl) hnext (by omega) ?_
      (.inl rfl) (by simp) (fun hd => ⟨hd, rfl⟩) ?_⟩
    · rw [if_pos hfree]
      rfl
    · intro v hv
      exact Option.some.inj hv ▸ hversion
    · rw [hcard, hn, hzero]
      exact hfreed hzero hdeleted
  · refine ⟨last, h.update (p := .idle) ?_ (hreads _ (by simp [Pc.role]))
      (part_kept (by simp [Pc.role]) hfreer) (part_kept (by simp [Pc.role]) ?_) hnext (by omega)
      (by simp [Pc.own]) (.inl rfl) (by simp) (fun hd => ⟨hd, rfl⟩) ?_⟩
    · rw [if_neg hfree]
      rfl
    · rw [hlast]
      simp
    · rw [hcard, hn]
      exact hleft fun hboth => hfree (hisLast.mpr hboth)

theorem Invariant.deleted (h : Invariant s readers freer last)
    (hpc : s.pc t = .decChecked version true cur) (hkr : s.kr = cur) :
    ∃ last', Invariant { s.setPc t (if cur.last true then .freeing version else .idle) with
      kr := cur.next true } readers none last' := by
  subst hkr
  have hrole : (s.pc t).role = .frees := by rw [hpc, Pc.role]
  obtain rfl : freer = some t := (h.frees t).mpr hrole
  have ht : t ∉ readers := fun hmem => by
    rw [h.reads, hrole] at hmem
    cases hmem
  have hversion := h.own t version (by rw [hpc, Pc.own])
  obtain ⟨hd, hlast, hfreed, hleft⟩ := h.phase.delete
  have hcount := h.count
  have hbound := h.bound
  have hzero : s.kr.readers = 0 ↔ readers.card = 0 := by
    rw [hcount, BitVec.toNat_inj.symm, BitVec.toNat_ofNat, Nat.mod_eq_of_lt (by omega)]
    rfl
  have hisLast : s.kr.last true = true ↔ readers.card = 0 := by
    rw [KeyReaders.last, if_pos rfl, decide_eq_true_iff, hzero, hd]
    simp
  by_cases hfree : s.kr.last true = true
  · refine ⟨some t, h.update (p := .freeing version) ?_ (reads_kept (by simp [Pc.role]) ht)
      (part_left (by simp [Pc.role])) (hlast ▸ part_taken rfl) hcount hbound ?_ (.inl rfl) (by simp)
      (by simp [KeyReaders.next]) ?_⟩
    · rw [if_pos hfree]
      rfl
    · intro v hv
      exact Option.some.inj hv ▸ hversion
    · rw [hisLast.mp hfree]
      exact hfreed (hisLast.mp hfree)
  · refine ⟨last, h.update (p := .idle) ?_ (reads_kept (by simp [Pc.role]) ht)
      (part_left (by simp [Pc.role])) (part_kept (by simp [Pc.role]) ?_) hcount hbound
      (by simp [Pc.own]) (.inl rfl) (by simp) (by simp [KeyReaders.next]) ?_⟩
    · rw [if_neg hfree]
      rfl
    · rw [hlast]
      simp
    · exact hleft fun hcard => hfree (hisLast.mpr hcard)

theorem Invariant.doFree (h : Invariant s readers freer last) (hpc : s.pc t = .freeing version) :
    Invariant { s.setPc t .idle with version := 0, freed := s.freed + 1 } readers freer none := by
  have hrole : (s.pc t).role = .freeing := by rw [hpc, Pc.role]
  obtain rfl : last = some t := (h.freeing t).mpr hrole
  obtain ⟨hphase, hfreer, hcard, hd⟩ := h.phase.free
  have hempty := Finset.card_eq_zero.mp hcard
  subst hempty hfreer
  have hnone : ∀ t' ≠ t, (s.pc t').own = none := by
    intro t' ht
    rw [Option.eq_none_iff_forall_ne_some]
    intro v hv
    cases hr : (s.pc t').role with
    | none => exact role_of_own hv hr
    | reads => exact absurd ((h.reads t').mpr hr) (Finset.notMem_empty t')
    | frees => exact absurd ((h.frees t').mpr hr) nofun
    | freeing => exact ht (Option.some.inj ((h.freeing t').mpr hr)).symm
  refine h.update (p := .idle) rfl (reads_kept nofun (Finset.notMem_empty t))
    (part_kept nofun nofun) (part_left nofun) h.count h.bound nofun (.inr hnone) nofun ?_ hphase
  intro hdeleted
  rw [show s.kr.isDeleted = false from hdeleted] at hd
  cases hd

theorem Invariant.retire (h : Invariant s readers freer last) (hpc : s.pc t = .idle)
    (hretired : s.retired = false) :
    Invariant { s.setPc t (.decLoaded s.version true s.kr) with retired := true } readers (some t)
      last := by
  have hrole : (s.pc t).role = .none := by rw [hpc, Pc.role]
  have ht : t ∉ readers := fun hmem => by
    rw [h.reads, hrole] at hmem
    cases hmem
  have hlast : last ≠ some t := fun heq => by
    rw [h.freeing, hrole] at heq
    cases heq
  have hphase := h.phase
  rw [hretired] at hphase
  obtain ⟨hphase', hfreer⟩ := hphase.retire t
  subst hfreer
  refine h.update (p := .decLoaded s.version true s.kr) rfl (reads_kept nofun ht) (part_taken rfl)
    (part_kept nofun hlast) h.count h.bound ?_ (.inl rfl) nofun (fun hd => ⟨hd, rfl⟩) hphase'
  intro v hv
  exact (Option.some.inj hv).symm

omit [DecidableEq τ] in
theorem Invariant.alloc (h : Invariant s readers freer last) (hfreed : s.freed = 1)
    (hprompt : Prompt s (.alloc version)) :
    Invariant { s with kr := fresh, version := version, retired := false, freed := 0 } ∅ none
      none := by
  have hphase := h.phase
  rw [hfreed] at hphase
  obtain ⟨rfl, rfl, hcard⟩ := hphase.of_freed
  obtain rfl := Finset.card_eq_zero.mp hcard
  refine ⟨h.reads, h.frees, h.freeing, rfl, h.bound, ?_, ?_, .kept 0⟩
  · intro t v hv
    exfalso
    cases hr : (s.pc t).role with
    | none => exact role_of_own hv hr
    | reads => exact absurd ((h.reads t).mpr hr) (Finset.notMem_empty t)
    | frees => exact absurd ((h.frees t).mpr hr) nofun
    | freeing => exact absurd ((h.freeing t).mpr hr) nofun
  · intro t v cur hpc
    have hversion := hprompt t
    rw [show s.pc t = .incChecked v cur from hpc, Pc.checkedVersion, Option.all_some,
      decide_eq_true_eq] at hversion
    exact ⟨(h.checked t v cur hpc).1, fun _ => hversion⟩

theorem invariant_step {a : Action τ} (h : Invariant s readers freer last) (hprompt : Prompt s a)
    (hstep : step s a = some u) : ∃ readers' freer' last', Invariant u readers' freer' last' := by
  cases step_move hstep with
  | inc t version hpc =>
    exact ⟨readers, freer, last, h.setPc (by rw [hpc]; rfl) nofun nofun⟩
  | dec t version hpc =>
    refine ⟨readers, freer, last, h.setPc (by rw [hpc]; rfl) ?_ nofun⟩
    intro v hv
    exact h.own t v (by rw [hpc]; exact hv)
  | free t hpc hretired => exact ⟨readers, some t, last, h.retire hpc hretired⟩
  | refused t version cur hpc =>
    exact ⟨readers, freer, last, h.setPc (by rw [hpc]; rfl) nofun nofun⟩
  | checked t version cur hpc hversion hcur =>
    refine ⟨readers, freer, last, h.setPc (by rw [hpc]; rfl) nofun ?_⟩
    intro v cur' heq
    obtain ⟨rfl, rfl⟩ := Pc.incChecked.inj heq
    exact ⟨hcur, fun _ => hversion.symm⟩
  | counted t version cur hpc hkr => exact ⟨_, freer, last, h.counted hpc hkr⟩
  | incRetry t version cur hpc =>
    exact ⟨readers, freer, last, h.setPc (by rw [hpc]; rfl) nofun nofun⟩
  | gone t version del cur hpc hversion =>
    exact absurd (h.own t version (by rw [hpc]; rfl)).symm hversion
  | decChecked t version del cur hpc =>
    refine ⟨readers, freer, last, h.setPc ?_ ?_ nofun⟩
    · rw [hpc]
      cases del <;> rfl
    · intro v hv
      exact h.own t v (by rw [hpc]; exact hv)
  | exchanged t version del cur hpc hkr =>
    cases del with
    | false =>
      obtain ⟨last', h'⟩ := h.left hpc hkr
      exact ⟨_, freer, last', h'⟩
    | true =>
      obtain ⟨last', h'⟩ := h.deleted hpc hkr
      exact ⟨readers, none, last', h'⟩
  | decRetry t version del cur hpc =>
    refine ⟨readers, freer, last, h.setPc ?_ ?_ nofun⟩
    · rw [hpc]
      cases del <;> rfl
    · intro v hv
      exact h.own t v (by rw [hpc]; exact hv)
  | doFree t version hpc => exact ⟨readers, freer, none, h.doFree hpc⟩
  | alloc version hfreed => exact ⟨∅, none, none, h.alloc hfreed hprompt⟩

end Steps

/-- What the protocol promises of a list. -/
structure Safe (s : State τ) : Prop where
  once : s.freed ≤ 1
  retired : s.freed = 1 → s.retired = true
  unread : s.freed = 1 ∨ (∃ t, (s.pc t).role = .freeing) → ∀ t, (s.pc t).role ≠ .reads
  current : ∀ t v, (s.pc t).own = some v → v = s.version
  drained : s.retired = true → (∀ t, s.pc t = .idle) → s.freed = 1

omit [DecidableEq τ] in
theorem Invariant.safe {s : State τ} {readers : Finset τ} {freer last : Option τ}
    (h : Invariant s readers freer last) : Safe s := by
  have hphase := h.phase
  have hreads := h.reads
  have hfrees := h.frees
  have hfreeing := h.freeing
  generalize hd : s.kr.isDeleted = d at hphase
  generalize hr : s.retired = r at hphase
  generalize hf : s.freed = f at hphase
  generalize hn : readers.card = n at hphase
  have hunread : n = 0 → ∀ t, (s.pc t).role ≠ .reads := by
    rintro rfl t ht
    rw [Finset.card_eq_zero.mp hn] at hreads
    exact Finset.notMem_empty t ((hreads t).mpr ht)
  have hidle : (∀ t, s.pc t = .idle) → freer = none ∧ last = none ∧ n = 0 := by
    intro hidle
    have hrole : ∀ t, (s.pc t).role = .none := fun t => by rw [hidle t, Pc.role]
    refine ⟨?_, ?_, ?_⟩
    · rw [Option.eq_none_iff_forall_ne_some]
      intro t ht
      exact absurd ((hrole t).symm.trans ((hfrees t).mp ht)) nofun
    · rw [Option.eq_none_iff_forall_ne_some]
      intro t ht
      exact absurd ((hrole t).symm.trans ((hfreeing t).mp ht)) nofun
    · rw [← hn, Finset.card_eq_zero, Finset.eq_empty_iff_forall_notMem]
      intro t ht
      exact absurd ((hrole t).symm.trans ((hreads t).mp ht)) nofun
  refine ⟨?_, ?_, ?_, h.own, ?_⟩
  · rw [hf]
    cases hphase <;> omega
  · rw [hf, hr]
    intro hone
    cases hphase with
    | freed => rfl
    | kept n => cases hone
    | retiring t n => cases hone
    | draining n => cases hone
    | freeing t => cases hone
  · rw [hf]
    rintro (hone | ⟨t, ht⟩)
    · subst hone
      exact hunread hphase.of_freed.2.2
    · obtain rfl := (hfreeing t).mpr ht
      exact hunread hphase.free.2.2.1
  · rw [hr, hf]
    intro hretired hall
    obtain ⟨rfl, rfl, rfl⟩ := hidle hall
    subst hretired
    cases hphase with
    | freed => rfl

/-- A session that has looked at the version before counts itself as a reader of the next list,
    leaves without being counted out, and that list is never freed. -/
example : ((machine Bool 7).exec (fun _ _ => True) (machine Bool 7).init
    [.inc true 7, .go true, .free false, .go false, .go false, .go false, .alloc 8, .go true,
      .dec true, .go true, .free false, .go false, .go false]).any (fun s =>
    s.retired ∧ s.freed = 0 ∧ s.pc true = .idle ∧ s.pc false = .idle) = true := by
  decide

end NvdlaVp.Simdb.Readers
