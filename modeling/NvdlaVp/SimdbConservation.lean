import NvdlaVp.SimdbCalls

set_option autoImplicit false

namespace NvdlaVp.Simdb
open ByteMemory BlockBytes ProbeTable KeyValueStore MachineRuns

def CncrHsh.blocksAt (h : CncrHsh) (i : ℕ) : ℕ :=
  let vi := h.load i
  if vi.idx < DELETED then h.m_csp.blocksNeeded (h.m_csp.s_bls vi.idx).len else 0

variable {size count : ℕ} {h : CncrHsh} {t : Table ℕ (Entry size)}
  {held : BitVec 32 → Option (Entry size)} {free : List (BitVec 32)} {i j : ℕ} {b : BitVec 32}

def slotBlocks (s : Slot (Entry size)) : List (BitVec 32) := s.item.elim [] Entry.blocks

theorem mem_slotBlocks {s : Slot (Entry size)} (hb : b ∈ slotBlocks s) :
    ∃ e, s = .full e ∧ b ∈ e.blocks := by
  cases s with
  | empty => exact absurd hb List.not_mem_nil
  | deleted => exact absurd hb List.not_mem_nil
  | full e => exact ⟨e, rfl, hb⟩

theorem length_slotBlocks (g : Geometry size count) (h' : Slots h count t held free)
    (hi : i < count) : (slotBlocks (t i)).length = h.blocksAt i := by
  rw [CncrHsh.blocksAt]
  by_cases hfree : (t i).isFree
  · rw [if_neg (BitVec.not_lt.mpr (h'.free_le hi hfree))]
    cases ht : t i with
    | empty => rfl
    | deleted => rfl
    | full e =>
      rw [ht] at hfree
      exact absurd hfree Bool.false_ne_true
  · obtain ⟨e, he⟩ := Slot.of_not_isFree hfree
    have hstands := h'.stands i hi
    rw [he] at hstands
    have hholds := h'.stored.holds _ e hstands.1
    have hlen := (hholds.live _ hholds.st_mem).len
    rw [if_pos (h'.idx_lt g hi he), hlen, e.blocksNeeded_eq h'.stored.size_eq, he, slotBlocks,
      Slot.item, Option.elim_some, Entry.blocks, List.length_append, List.length_singleton]

theorem Serves.disjoint (h' : Serves h count t held free) (hi : i < count) (hj : j < count)
    (hij : i ≠ j) : (slotBlocks (t i)).Disjoint (slotBlocks (t j)) := by
  intro b hbi hbj
  obtain ⟨e, he, hmem⟩ := mem_slotBlocks hbi
  obtain ⟨e', he', hmem'⟩ := mem_slotBlocks hbj
  have hstands := h'.stands i hi
  have hstands' := h'.stands j hj
  rw [he] at hstands
  rw [he'] at hstands'
  have hne : (h.load i).idx ≠ (h.load j).idx := fun heq => hij (h'.once i hi j hj e e' he he' heq)
  exact h'.stored.apart _ _ e e' hstands.1 hstands'.1 hne b hmem hmem'

theorem Serves.nodup_blocks (h' : Serves h count t held free) :
    (free ++ (List.range count).flatMap fun i => slotBlocks (t i)).Nodup := by
  rw [List.nodup_append]
  refine ⟨h'.stored.nodup, ?_, ?_⟩
  · rw [List.nodup_flatMap]
    constructor
    · intro i hi
      have hlt := List.mem_range.mp hi
      cases ht : t i with
      | empty => exact List.nodup_nil
      | deleted => exact List.nodup_nil
      | full e =>
        have hstands := h'.stands i hlt
        rw [ht] at hstands
        exact (h'.stored.holds _ e hstands.1).nodup
    · refine List.nodup_range.imp_of_mem fun hi hj hij => ?_
      exact h'.disjoint (List.mem_range.mp hi) (List.mem_range.mp hj) hij
  · rintro b hb c hc rfl
    obtain ⟨i, hi, hmem⟩ := List.mem_flatMap.mp hc
    obtain ⟨e, he, hbe⟩ := mem_slotBlocks hmem
    have hstands := h'.stands i (List.mem_range.mp hi)
    rw [he] at hstands
    exact h'.stored.notFree _ e hstands.1 b hbe hb

theorem Serves.mem_blocks (h' : Serves h count t held free) (b : BitVec 32) :
    b ∈ free ++ (List.range count).flatMap (fun i => slotBlocks (t i)) ↔ b.toNat < count := by
  rw [List.mem_append, h'.stored.within b]
  refine or_congr_right ?_
  rw [List.mem_flatMap]
  constructor
  · rintro ⟨i, hi, hb⟩
    obtain ⟨e, he, hmem⟩ := mem_slotBlocks hb
    have hstands := h'.stands i (List.mem_range.mp hi)
    rw [he] at hstands
    exact ⟨_, e, hstands.1, hmem⟩
  · rintro ⟨st, e, hst, hb⟩
    obtain ⟨i, hi, he, _⟩ := h'.placed st e hst
    exact ⟨i, List.mem_range.mpr hi, by rw [he]; exact hb⟩

theorem Serves.conserved (g : Geometry size count) (h' : Serves h count t held free) :
    free.length + ((List.range count).map h.blocksAt).sum = count := by
  have hcount : count < 2 ^ 32 := Nat.lt_of_lt_of_le g.count_lt (Nat.sub_le _ _)
  have hperm : (free ++ (List.range count).flatMap fun i => slotBlocks (t i)).Perm
      (FreeList.blocks count) :=
    (List.perm_ext_iff_of_nodup h'.nodup_blocks (FreeList.nodup_blocks hcount)).mpr fun b =>
      (h'.mem_blocks b).trans (FreeList.mem_blocks hcount b).symm
  have hlength := hperm.length_eq
  rw [FreeList.length_blocks, List.length_append, List.length_flatMap] at hlength
  have hsum : (List.range count).map (fun i => (slotBlocks (t i)).length) =
      (List.range count).map h.blocksAt :=
    List.map_congr_left fun i hi => length_slotBlocks g h'.toSlots (List.mem_range.mp hi)
  rwa [hsum] at hlength

end NvdlaVp.Simdb
