import NvdlaVp.SimdbStore

set_option autoImplicit false

namespace NvdlaVp.Simdb
open ByteMemory BlockBytes ProbeTable

def Endless (count : ℕ) (bls : BitVec 32 → BlkLst) : Prop :=
  ∀ i : BitVec 32, i.toNat < count → (bls i).idx.toNat < count

/-- A block that was linked by the call under way. -/
structure Linked (ver : BitVec 32) (bl : BlkLst) : Prop where
  version : bl.version = ver
  readers : bl.kr.readers = 0
  kept : bl.kr.isDeleted = false

variable {size count : ℕ} {s : CncrStr} {cur prev i ver : BitVec 32} {free : List (BitVec 32)}
  {bls : BitVec 32 → BlkLst} {bl : BlkLst} {key value : List (BitVec 8)}

theorem endless_update (h : Endless count bls) (hbl : bl.idx.toNat < count) :
    Endless count (Function.update bls i bl) := by
  intro j hj
  by_cases hji : j = i
  · rw [hji, Function.update_self]
    exact hbl
  · rw [Function.update_of_ne hji]
    exact h j hj

/-- The search for the end does not come to one, however long it goes on. -/
theorem findEnd_endless (hcount : count < 2 ^ 32 - 1) (h : Endless count bls)
    (hcur : cur.toNat < count) (hprev : prev.toNat < count) (fuel : ℕ) :
    CncrStr.findEnd ver fuel bls cur prev = none := by
  induction fuel generalizing bls cur prev with
  | zero => rfl
  | succ fuel ih =>
    have hne : cur ≠ LIST_END := by
      intro heq
      have htoNat : cur.toNat = 2 ^ 32 - 1 := congrArg BitVec.toNat heq
      omega
    have hnext : Endless count
        (Function.update bls prev { bls prev with version := ver }) :=
      endless_update h (h prev hprev)
    rw [CncrStr.findEnd, if_neg hne]
    exact ih hnext (hnext cur hcur) hcur

theorem allocLoop_short (len : ℕ) {n : ℕ} (hfree : FreeBlocks s.s_cl free) (hn : free.length < n)
    (hwithin : ∀ i ∈ free, i.toNat < count) (hendless : Endless count s.s_bls) :
    ∃ s', CncrStr.allocLoop len ver n s cur = (none, s') ∧ Endless count s'.s_bls ∧
      (free = [] → s' = s) ∧
      ∀ i, i = cur ∧ free ≠ [] ∨ Linked ver (s.s_bls i) → Linked ver (s'.s_bls i) := by
  induction free generalizing s cur n with
  | nil =>
    obtain ⟨n, rfl⟩ : ∃ m, n = m + 1 := ⟨n - 1, by rw [List.length_nil] at hn; omega⟩
    refine ⟨s, ?_, hendless, fun _ => rfl, fun i hi => hi.resolve_left fun h => h.2 rfl⟩
    simp only [CncrStr.allocLoop, hfree.nxt_nil, if_true]
  | cons b free ih =>
    obtain ⟨n, rfl⟩ : ∃ m, n = m + 1 := ⟨n - 1, by rw [List.length_cons] at hn; omega⟩
    rw [List.length_cons] at hn
    obtain ⟨l, hnxt, _, hrest⟩ := hfree.nxt_cons
    have hb := hwithin b List.mem_cons_self
    have hne : b ≠ LIST_END := fun heq => hfree.notEnd (heq ▸ List.mem_cons_self)
    have hlinked : Linked ver (BlkLst.new b ver len) := ⟨rfl, rfl, rfl⟩
    obtain ⟨s', hloop, hendless', _, hkept⟩ :=
      @ih ({ s with s_cl := l }.setBlk cur (.new b ver len)) b n hrest (by omega)
        (fun i hi => hwithin i (List.mem_cons_of_mem b hi)) (endless_update hendless hb)
    refine ⟨s', ?_, hendless', fun h => absurd h (List.cons_ne_nil b free), fun i hi => ?_⟩
    · simp only [CncrStr.allocLoop, hnxt, if_neg hne]
      exact hloop
    · refine hkept i (.inr ?_)
      by_cases hic : i = cur
      · rw [hic, setBlk_same]
        exact hlinked
      · rw [setBlk_of_ne hic]
        exact hi.resolve_left fun h => hic h.1

theorem doFree_endless (hcount : count < 2 ^ 32 - 1) (h : Endless count s.s_bls)
    (hcur : cur.toNat < count) : s.doFree cur = none := by
  rw [CncrStr.doFree, CncrStr.findEndSetVersion, findEnd_endless hcount h hcur hcur]
  rfl

theorem free_endless (hcount : count < 2 ^ 32 - 1) (h : Endless count s.s_bls)
    (hcur : cur.toNat < count) (hlinked : Linked ver (s.s_bls cur)) : s.free cur ver = none := by
  have hstuck : ∀ kr, (s.setKr cur kr).doFree cur = none := fun kr =>
    doFree_endless hcount (endless_update h (h cur hcur)) hcur
  rw [CncrStr.free, CncrStr.decReadersOrDel]
  simp only [hlinked.version, hlinked.readers, hlinked.kept, ne_eq, not_true_eq_false, if_false,
    if_true, Bool.not_false, and_self, hstuck, Option.map_none]

theorem blocks_cons (hpos : 0 < count) :
    ∃ rest, FreeList.blocks count = 0 :: rest ∧ rest.length + 1 = count := by
  obtain ⟨n, rfl⟩ : ∃ n, count = n + 1 := ⟨count - 1, by omega⟩
  have hcons : FreeList.blocks (n + 1) =
      0 :: ((List.range n).map Nat.succ).map (BitVec.ofNat 32) := by
    rw [FreeList.blocks, List.range_succ_eq_map, List.map_cons]
    rfl
  refine ⟨_, hcons, ?_⟩
  rw [List.length_map, List.length_map, List.length_range]

theorem alloc_short {len klen : ℕ} {hash : BitVec 32} (hfree : FreeBlocks s.s_cl (i :: free))
    (hshort : free.length + 1 < s.blocksNeeded len) (hwithin : ∀ j ∈ free, j.toNat < count)
    (hendless : Endless count s.s_bls) :
    ∃ s' : CncrStr, s.alloc len klen hash =
        (s'.free i (s.s_version.setWidth 32)).map (fun r => (List_End, r.2)) ∧
      Endless count s'.s_bls ∧ (free = [] → s'.s_bls = s.s_bls) ∧
      (free ≠ [] → Linked (s.s_version.setWidth 32) (s'.s_bls i)) := by
  obtain ⟨l, hnxt, _, hrest⟩ := hfree.nxt_cons
  have hne : i ≠ LIST_END := fun heq => hfree.notEnd (heq ▸ List.mem_cons_self)
  have hblocks : s.blocksNeeded len ≠ 0 := by omega
  have hlength : free.length < s.blocksNeeded len - 1 := by omega
  obtain ⟨s', hloop, hendless', hnil, hlinked⟩ :=
    @allocLoop_short count { s with s_cl := l, s_version := s.s_version + 1 } i
      (s.s_version.setWidth 32) free len _ hrest hlength hwithin hendless
  refine ⟨s', ?_, hendless', fun h => by rw [hnil h], fun h => hlinked i (.inl ⟨rfl, h⟩)⟩
  rw [CncrStr.alloc]
  simp only [hnxt, if_neg hne, if_neg hblocks]
  rw [hloop]

theorem free_foreign (h : (s.s_bls i).version ≠ ver) : s.free i ver = some (false, s) := by
  rw [CncrStr.free, CncrStr.decReadersOrDel, if_pos h]

/-- On a memory that was not used yet `alloc` does not return if there are two blocks or more, but
    too few; a single one is lost. -/
theorem alloc_fresh (g : Geometry size count) (bytes : Buffer) {len klen : ℕ} {hash : BitVec 32}
    (hshort : count < (CncrStr.new size count bytes).blocksNeeded len) :
    (count = 1 → ∃ s', (CncrStr.new size count bytes).alloc len klen hash =
      some (List_End, s')) ∧
    (count ≠ 1 → (CncrStr.new size count bytes).alloc len klen hash = none) := by
  have hmax := g.count_lt
  have hstart : (0 : BitVec 32).toNat < count := g.pos
  have hstored : Stored _ count (fun _ => (none : Option (Entry size))) _ := stored_new g bytes
  obtain ⟨rest, hblocks, hlength⟩ := blocks_cons g.pos
  have hwithin : ∀ i ∈ rest, i.toNat < count := fun i hi =>
    (hstored.within i).mpr (.inl (hblocks ▸ List.mem_cons_of_mem 0 hi))
  have hfree := hstored.freeBlocks
  rw [hblocks] at hfree
  obtain ⟨s', halloc, hendless, hnil, hlinked⟩ :=
    alloc_short hfree (hlength ▸ hshort) hwithin fun _ _ => hstart
  rw [halloc]
  constructor
  · intro hone
    have hsame := hnil (List.eq_nil_of_length_eq_zero (by omega))
    have hforeign : (s'.s_bls 0).version ≠
        (CncrStr.new size count bytes).s_version.setWidth 32 := by
      rw [hsame]
      exact fun heq => absurd (congrArg BitVec.toNat heq) Nat.zero_ne_one
    exact ⟨s', by rw [free_foreign hforeign, Option.map_some]⟩
  · intro hone
    have hown := hlinked (List.ne_nil_of_length_pos (by omega))
    rw [free_endless (by omega) hendless hstart hown, Option.map_none]

theorem alloc_taken {len klen : ℕ} {hash : BitVec 32} (hfree : FreeBlocks s.s_cl free)
    (hnodup : free.Nodup) (hpos : 0 < s.blocksNeeded len)
    (hroom : s.blocksNeeded len ≤ free.length) :
    ∃ vi s', s.alloc len klen hash = some (vi, s') ∧ vi.idx ≠ LIST_END := by
  cases free with
  | nil =>
    rw [List.length_nil] at hroom
    omega
  | cons st rest =>
    rw [List.length_cons] at hroom
    obtain ⟨l, hnxt, _, hrest⟩ := hfree.nxt_cons
    have hne : st ≠ LIST_END := fun heq => hfree.notEnd (heq ▸ List.mem_cons_self)
    have hlength : (rest.take (s.blocksNeeded len - 1)).length = s.blocksNeeded len - 1 := by
      rw [List.length_take, Nat.min_eq_left (by omega)]
    have hsplit := List.dropLast_append_getLast
      (List.cons_ne_nil st (rest.take (s.blocksNeeded len - 1)))
    rw [← List.take_append_drop (s.blocksNeeded len - 1) rest] at hrest
    obtain ⟨s', hloop, _⟩ := allocLoop_enough len (s.s_version.setWidth 32)
      (s := { s with s_cl := l, s_version := s.s_version + 1 }) hrest
      (hnodup.sublist ((List.take_sublist _ rest).cons_cons st)) hsplit.symm
    rw [hlength] at hloop
    rw [CncrStr.alloc]
    simp only [hnxt, if_neg hne, if_neg (Nat.ne_of_gt hpos), hloop]
    exact ⟨⟨st, _⟩, _, rfl, hne⟩

theorem putHashed_empty {h : CncrHsh} {hash : BitVec 32} (vi : VerIdx) (hsz : 0 < h.m_sz)
    (hempty : h.load (hash.toNat % h.m_sz) = empty_vi) (key : List (BitVec 8)) :
    h.putHashed hash vi key = some (empty_vi, h.setSlot (hash.toNat % h.m_sz) vi) := by
  obtain ⟨n, hn⟩ : ∃ n, h.m_sz = n + 1 := ⟨h.m_sz - 1, by omega⟩
  have hfree : DELETED ≤ (h.load (hash.toNat % h.m_sz)).idx := by
    rw [hempty]
    decide
  rw [CncrHsh.putHashed, ← hempty]
  rw [hn] at hfree ⊢
  simp only [CncrHsh.putLoop, if_pos hfree, CncrHsh.cmpex_load, if_true]

theorem put_returns {h : CncrHsh} {vi : VerIdx} {s' : CncrStr} (hsz : 0 < h.m_sz)
    (hempty : h.load ((HashBytes key).toNat % h.m_sz) = empty_vi)
    (halloc : h.m_csp.alloc ((key.length + value.length) % 2 ^ 32) key.length (HashBytes key) =
      some (vi, s')) (hne : vi.idx ≠ LIST_END) : (h.put key value).isSome := by
  have hhashed := putHashed_empty (h := { h with
    m_csp := s'.put vi.idx (bytesOf key) key.length (bytesOf value) value.length })
    vi hsz hempty key
  rw [CncrHsh.put, halloc, Option.bind_some]
  simp only [if_neg hne, hhashed]
  rfl

end NvdlaVp.Simdb
