import NvdlaVp.SimdbAllocation
import NvdlaVp.SimdbFreeListRuns

set_option autoImplicit false

namespace NvdlaVp.Simdb
open ByteMemory BlockBytes IndexChain

/-- Blocks whose bytes can be reached by an offset of 32 bits. -/
structure Geometry (size count : ℕ) : Prop where
  size_gt : 4 < size
  pos : 0 < count
  room : count * size ≤ 2 ^ 32

structure Stored {size : ℕ} (s : CncrStr) (count : ℕ) (held : BitVec 32 → Option (Entry size))
    (free : List (BitVec 32)) : Prop where
  size_eq : s.m_blockSize = size
  freeBlocks : FreeBlocks s.s_cl free
  nodup : free.Nodup
  holds : ∀ st e, held st = some e → Holds s st e
  apart : ∀ st st' e e', held st = some e → held st' = some e' → st ≠ st' →
    ∀ i ∈ e.blocks, i ∉ e'.blocks
  notFree : ∀ st e, held st = some e → ∀ i ∈ e.blocks, i ∉ free
  within : ∀ i, i.toNat < count ↔ i ∈ free ∨ ∃ st e, held st = some e ∧ i ∈ e.blocks

variable {size count : ℕ} {s : CncrStr} {held : BitVec 32 → Option (Entry size)}
  {free rest : List (BitVec 32)} {st : BitVec 32} {e : Entry size}

theorem Geometry.count_lt (g : Geometry size count) : count < 2 ^ 32 - 2 := by
  have hsize := g.size_gt
  have hroom := g.room
  have hmul : count * 5 ≤ count * size := Nat.mul_le_mul_left count hsize
  omega

theorem Geometry.ptr_eq (g : Geometry size count) {i : BitVec 32} (hi : i.toNat < count) :
    ptr size i = i.toNat * size := by
  have hsize := g.size_gt
  have hroom := g.room
  have hmul : (i.toNat + 1) * size ≤ count * size := Nat.mul_le_mul_right size hi
  rw [Nat.succ_mul] at hmul
  exact Nat.mod_eq_of_lt (by omega)

theorem Geometry.apart (g : Geometry size count) {i j : BitVec 32} (hi : i.toNat < count)
    (hj : j.toNat < count) (hij : i ≠ j) : Apart size (ptr size) i j := by
  rintro a ⟨hi1, hi2⟩ ⟨hj1, hj2⟩
  rw [g.ptr_eq hi] at hi1 hi2
  rw [g.ptr_eq hj] at hj1 hj2
  have hne : i.toNat ≠ j.toNat := fun h => hij (BitVec.eq_of_toNat_eq h)
  rcases Nat.lt_or_gt_of_ne hne with hlt | hgt
  · have hmul : (i.toNat + 1) * size ≤ j.toNat * size := Nat.mul_le_mul_right size hlt
    rw [Nat.succ_mul] at hmul
    omega
  · have hmul : (j.toNat + 1) * size ≤ i.toNat * size := Nat.mul_le_mul_right size hgt
    rw [Nat.succ_mul] at hmul
    omega

theorem held_update {o : Option (Entry size)} {st' : BitVec 32} {e' : Entry size} :
    Function.update held st o st' = some e' ↔
      st' = st ∧ o = some e' ∨ st' ≠ st ∧ held st' = some e' := by
  by_cases h : st' = st
  · subst h
    simp
  · simp [h]

theorem stored_new (g : Geometry size count) (bytes : Buffer) :
    Stored (.new size count bytes) count (fun _ => (none : Option (Entry size)))
      (FreeList.blocks count) := by
  have hcount : count < 2 ^ 32 := by have := g.count_lt; omega
  have hinv := FreeList.invariant_init Unit g.pos hcount
  refine ⟨rfl, ⟨hinv.chain, FreeList.not_mem_end hcount hinv⟩, hinv.nodup, nofun, nofun, nofun, ?_⟩
  intro i
  rw [FreeList.mem_blocks hcount]
  exact ⟨.inl, fun h => h.resolve_right nofun⟩

section Operations
variable (g : Geometry size count) (h : Stored s count held free)
include h

theorem Stored.mem_within (hst : held st = some e) {i : BitVec 32} (hi : i ∈ e.blocks) :
    i.toNat < count := (h.within i).mpr (.inr ⟨st, e, hst, hi⟩)

theorem Stored.start_within (hst : held st = some e) : st.toNat < count :=
  h.mem_within hst (h.holds st e hst).st_mem

theorem Stored.keeps {s' : CncrStr} {blocks : List (BitVec 32)} (hkeeps : Keeps size blocks s s')
    (hblocks : ∀ i ∈ blocks, i.toNat < count) (g : Geometry size count)
    (hst : held st = some e) (hdisjoint : ∀ i ∈ e.blocks, i ∉ blocks) : Holds s' st e := by
  refine (h.holds st e hst).keeps hkeeps hdisjoint fun i hi j hj => ?_
  refine g.apart (hblocks i hi) (h.mem_within hst hj) ?_
  rintro rfl
  exact hdisjoint i hj hi

end Operations

theorem stored_put (g : Geometry size count) (h : Stored s count held free)
    (hfree : free = e.blocks ++ rest) (hver : e.ver = s.s_version.setWidth 32) :
    ∃ st s' s'', s.alloc (e.key.length + e.value.length) e.key.length e.hash =
        some (⟨st, e.ver⟩, s') ∧
      s'.put st (bytesOf e.key) e.key.length (bytesOf e.value) e.value.length = s'' ∧
      held st = none ∧ Stored s'' count (Function.update held st (some e)) rest ∧
      s''.s_version = s.s_version + 1 := by
  subst hfree
  have hnodup := List.nodup_append.mp h.nodup
  obtain ⟨st, s', halloc, hreserved, hfree', hkeeps, hblks, hversion⟩ :=
    alloc_enough h.size_eq h.freeBlocks hnodup.1 hver
  have hbound : ∀ i ∈ e.blocks, i.toNat < count := fun i hi =>
    (h.within i).mpr (.inl (List.mem_append_left rest hi))
  have hpairwise : e.blocks.Pairwise (Apart size (ptr size)) :=
    hreserved.nodup.imp_of_mem fun hi hj hne => g.apart (hbound _ hi) (hbound _ hj) hne
  obtain ⟨m, hput, hframe, hbytes⟩ := put_reserved hreserved hpairwise
  have hkeeps' : Keeps size e.blocks s (s'.withBytes m) :=
    ⟨hkeeps.bls, hkeeps.links, hkeeps.bytes.trans hframe, hkeeps.size_eq⟩
  have hst : held st = none := by
    rw [Option.eq_none_iff_forall_ne_some]
    intro e' he'
    exact h.notFree st e' he' st (h.holds st e' he').st_mem
      (List.mem_append_left rest hreserved.st_mem)
  refine ⟨st, s', s'.withBytes m, halloc, hput, hst, ?_, hversion⟩
  have hdisjoint : ∀ st' e', held st' = some e' → ∀ i ∈ e'.blocks, i ∉ e.blocks :=
    fun st' e' he' i hi hmem => h.notFree st' e' he' i hi (List.mem_append_left rest hmem)
  refine ⟨hkeeps'.size_eq.trans h.size_eq, hfree', hnodup.2.1, ?_, ?_, ?_, ?_⟩
  · intro st' e' he'
    rcases held_update.mp he' with ⟨rfl, heq⟩ | ⟨hne, he'⟩
    · obtain rfl := Option.some.inj heq
      exact ⟨⟨hreserved.size_eq, hreserved.chain, hreserved.linked, hreserved.notEnd,
        hreserved.nodup, hreserved.live, hreserved.idle, hreserved.klen, hreserved.hash⟩, hbytes⟩
    · exact h.keeps hkeeps' hbound g he' (hdisjoint st' e' he')
  · intro st1 st2 e1 e2 he1 he2 hne i hi1 hi2
    rcases held_update.mp he1 with ⟨rfl, heq1⟩ | ⟨hne1, he1⟩
    · obtain rfl := Option.some.inj heq1
      rcases held_update.mp he2 with ⟨rfl, _⟩ | ⟨_, he2⟩
      · exact hne rfl
      · exact hdisjoint st2 e2 he2 i hi2 hi1
    · rcases held_update.mp he2 with ⟨_, heq2⟩ | ⟨_, he2⟩
      · exact hdisjoint st1 e1 he1 i hi1 (Option.some.inj heq2 ▸ hi2)
      · exact h.apart st1 st2 e1 e2 he1 he2 hne i hi1 hi2
  · intro st' e' he' i hi hmem
    rcases held_update.mp he' with ⟨rfl, heq⟩ | ⟨_, he'⟩
    · obtain rfl := Option.some.inj heq
      exact hnodup.2.2 i hi i hmem rfl
    · exact h.notFree st' e' he' i hi (List.mem_append_right _ hmem)
  · intro i
    rw [h.within i, List.mem_append]
    constructor
    · rintro ((hi | hi) | ⟨st', e', he', hi⟩)
      · exact .inr ⟨st, e, held_update.mpr (.inl ⟨rfl, rfl⟩), hi⟩
      · exact .inl hi
      · have hne : st' ≠ st := by
          rintro rfl
          rw [hst] at he'
          exact absurd he' nofun
        exact .inr ⟨st', e', held_update.mpr (.inr ⟨hne, he'⟩), hi⟩
    · rintro (hi | ⟨st', e', he', hi⟩)
      · exact .inl (.inr hi)
      · rcases held_update.mp he' with ⟨rfl, heq⟩ | ⟨_, he'⟩
        · obtain rfl := Option.some.inj heq
          exact .inl (.inl hi)
        · exact .inr ⟨st', e', he', hi⟩

theorem stored_free (g : Geometry size count) (h : Stored s count held free)
    (hst : held st = some e) :
    ∃ s', s.free st e.ver = some (false, s') ∧
      Stored s' count (Function.update held st none) (e.blocks ++ free) ∧
      s'.s_version = s.s_version := by
  have hholds := h.holds st e hst
  obtain ⟨s', hfree, hblocks, hkeeps, hversion⟩ :=
    free_reserved hholds.toReserved h.freeBlocks (h.notFree st e hst)
  refine ⟨s', hfree, ⟨hkeeps.size_eq.trans h.size_eq, hblocks, ?_, ?_, ?_, ?_, ?_⟩, hversion⟩
  · refine List.nodup_append.mpr ⟨hholds.nodup, h.nodup, fun i hi j hj => ?_⟩
    rintro rfl
    exact h.notFree st e hst i hi hj
  · intro st' e' he'
    rcases held_update.mp he' with ⟨_, heq⟩ | ⟨hne, he'⟩
    · exact absurd heq nofun
    · exact h.keeps hkeeps (fun i hi => h.mem_within hst hi) g he'
        (h.apart st' st e' e he' hst hne)
  · intro st1 st2 e1 e2 he1 he2 hne
    rcases held_update.mp he1 with ⟨_, heq⟩ | ⟨_, he1⟩
    · exact absurd heq nofun
    · rcases held_update.mp he2 with ⟨_, heq⟩ | ⟨_, he2⟩
      · exact absurd heq nofun
      · exact h.apart st1 st2 e1 e2 he1 he2 hne
  · intro st' e' he' i hi hmem
    rcases held_update.mp he' with ⟨_, heq⟩ | ⟨hne, he'⟩
    · exact absurd heq nofun
    · rcases List.mem_append.mp hmem with hmem | hmem
      · exact h.apart st' st e' e he' hst hne i hi hmem
      · exact h.notFree st' e' he' i hi hmem
  · intro i
    rw [h.within i, List.mem_append]
    constructor
    · rintro (hi | ⟨st', e', he', hi⟩)
      · exact .inl (.inr hi)
      · by_cases hne : st' = st
        · subst hne
          obtain rfl := Option.some.inj (hst.symm.trans he')
          exact .inl (.inl hi)
        · exact .inr ⟨st', e', held_update.mpr (.inr ⟨hne, he'⟩), hi⟩
    · rintro ((hi | hi) | ⟨st', e', he', hi⟩)
      · exact .inr ⟨st, e, hst, hi⟩
      · exact .inl hi
      · rcases held_update.mp he' with ⟨_, heq⟩ | ⟨_, he'⟩
        · exact absurd heq nofun
        · exact .inr ⟨st', e', he', hi⟩

end NvdlaVp.Simdb
