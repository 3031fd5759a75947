import Mathlib.Data.List.Perm.Subperm
import NvdlaVp.SimdbEntries

set_option autoImplicit false

namespace NvdlaVp.Simdb
open ByteMemory BlockBytes IndexChain

variable {size : ℕ} {s : CncrStr} {st cur en ver : BitVec 32} {e : Entry size}
  {xs ys mid free : List (BitVec 32)}

structure FreeBlocks (l : CncrLst) (free : List (BitVec 32)) : Prop where
  chain : Chain l.s_lv l.s_h.idx free LIST_END
  notEnd : LIST_END ∉ free

theorem FreeBlocks.nxt_nil {l : CncrLst} (h : FreeBlocks l []) : l.nxt = (LIST_END, l) :=
  if_pos h.chain

theorem FreeBlocks.nxt_cons {l : CncrLst} {i : BitVec 32} (h : FreeBlocks l (i :: free)) :
    ∃ l', l.nxt = (i, l') ∧ l'.s_lv = l.s_lv ∧ FreeBlocks l' free := by
  obtain ⟨hi, hrest⟩ := h.chain
  have hne : l.s_h.idx ≠ LIST_END := by
    rw [hi]
    exact fun heq => h.notEnd (heq ▸ List.mem_cons_self)
  refine ⟨{ l with s_h := ⟨incVersion l.s_h.ver, l.s_lv i⟩ }, ?_, rfl, hrest, ?_⟩
  · rw [CncrLst.nxt, if_neg hne, hi]
  · exact fun hmem => h.notEnd (List.mem_cons_of_mem i hmem)

structure Taken (len : ℕ) (ver cur : BitVec 32) (mid : List (BitVec 32)) (en : BitVec 32)
    (free : List (BitVec 32)) (s s' : CncrStr) : Prop where
  links : s'.s_cl.s_lv = s.s_cl.s_lv
  free : FreeBlocks s'.s_cl free
  blks : s'.s_blks = s.s_blks
  size : s'.m_blockSize = s.m_blockSize
  version : s'.s_version = s.s_version
  chain : Chain (fun i => (s'.s_bls i).idx) cur mid en
  new : ∀ i ∈ mid, s'.s_bls i = .new (s'.s_bls i).idx ver len
  frame : ∀ i ∉ mid, s'.s_bls i = s.s_bls i

theorem allocLoop_enough (len : ℕ) (ver : BitVec 32) (hfree : FreeBlocks s.s_cl (xs ++ free))
    (hnodup : (cur :: xs).Nodup) (hblocks : cur :: xs = mid ++ [en]) :
    ∃ s', CncrStr.allocLoop len ver xs.length s cur = (some en, s') ∧
      Taken len ver cur mid en free s s' := by
  induction xs generalizing s cur mid with
  | nil =>
    obtain ⟨rfl, hen⟩ : mid = [] ∧ cur = en := by
      cases mid with
      | nil => simpa using hblocks
      | cons m mid => simp at hblocks
    subst hen
    exact ⟨s, rfl, rfl, hfree, rfl, rfl, rfl, rfl, nofun, fun _ _ => rfl⟩
  | cons x xs ih =>
    obtain ⟨mid, rfl⟩ : ∃ m, mid = cur :: m := by
      cases mid with
      | nil => simp at hblocks
      | cons m mid =>
        rw [List.cons_append, List.cons.injEq] at hblocks
        exact ⟨mid, by rw [hblocks.1]⟩
    have htail : x :: xs = mid ++ [en] := List.tail_eq_of_cons_eq hblocks
    obtain ⟨l, hnxt, hlinks, hrest⟩ := FreeBlocks.nxt_cons hfree
    have hx : x ≠ LIST_END := fun heq => hfree.notEnd (heq ▸ by simp)
    have hcur : cur ∉ mid := by
      intro hmem
      rw [htail] at hnodup
      exact (List.nodup_cons.mp hnodup).1 (List.mem_append_left [en] hmem)
    obtain ⟨s', hloop, h⟩ := ih (s := { s with s_cl := l }.setBlk cur (.new x ver len)) hrest
      (List.nodup_cons.mp hnodup).2 htail
    have hbl : s'.s_bls cur = .new x ver len :=
      (h.frame cur hcur).trans (setBlk_same _)
    refine ⟨s', ?_, h.links.trans hlinks, h.free, h.blks, h.size, h.version, ?_, ?_, ?_⟩
    · rw [List.length_cons, CncrStr.allocLoop, hnxt]
      exact (if_neg hx).trans hloop
    · have hidx : (s'.s_bls cur).idx = x := by rw [hbl]; rfl
      refine ⟨rfl, ?_⟩
      change Chain _ (s'.s_bls cur).idx mid en
      rw [hidx]
      exact h.chain
    · intro i hi
      rcases List.mem_cons.mp hi with rfl | hi
      · rw [hbl]
        rfl
      · exact h.new i hi
    · intro i hi
      rw [List.mem_cons, not_or] at hi
      exact (h.frame i hi.2).trans (setBlk_of_ne hi.1 _)

theorem Entry.blocksNeeded_eq (e : Entry size) (hsize : s.m_blockSize = size) :
    s.blocksNeeded (e.key.length + e.value.length) = e.mid.length + 1 := by
  have henough := e.enough
  have hneeded := e.needed
  have hpos := e.size_pos
  rw [List.length_append, List.length_singleton] at henough
  rw [CncrStr.blocksNeeded, hsize]
  obtain ⟨t, ht⟩ : ∃ t, t = e.key.length + e.value.length := ⟨_, rfl⟩
  rw [← ht] at henough hneeded ⊢
  have hdiv := Nat.div_add_mod t size
  have hmod := Nat.mod_lt t hpos
  rw [Nat.mul_comm] at hdiv
  split
  · have hlow : e.mid.length < t / size := Nat.lt_of_mul_lt_mul_right (a := size) (by omega)
    have hhigh : t / size ≤ e.mid.length + 1 := Nat.le_of_mul_le_mul_right (by omega) hpos
    omega
  · have hlow : e.mid.length < t / size + 1 :=
      Nat.lt_of_mul_lt_mul_right (a := size) (by rw [Nat.succ_mul]; omega)
    have hhigh : t / size < e.mid.length + 1 := Nat.lt_of_mul_lt_mul_right (a := size) (by omega)
    omega

/-- Nothing differs but the given blocks, what they hold and how they are linked. -/
structure Keeps (size : ℕ) (blocks : List (BitVec 32)) (s s' : CncrStr) : Prop where
  bls : ∀ i ∉ blocks, s'.s_bls i = s.s_bls i
  links : ∀ i ∉ blocks, s'.s_cl.s_lv i = s.s_cl.s_lv i
  bytes : Frame size (ptr size) blocks s.s_blks s'.s_blks
  size_eq : s'.m_blockSize = s.m_blockSize

theorem Holds.keeps {s' : CncrStr} {blocks : List (BitVec 32)} (h : Holds s st e)
    (hkeeps : Keeps size blocks s s') (hdisjoint : ∀ i ∈ e.blocks, i ∉ blocks)
    (hapart : ∀ i ∈ blocks, ∀ j ∈ e.blocks, Apart size (ptr size) i j) : Holds s' st e := by
  have hbls : ∀ i ∈ e.blocks, s'.s_bls i = s.s_bls i := fun i hi => hkeeps.bls i (hdisjoint i hi)
  have hst := hbls st h.st_mem
  refine ⟨⟨hkeeps.size_eq.trans h.size_eq, ?_, ?_, h.notEnd, h.nodup, ?_, ?_, ?_, ?_⟩, ?_⟩
  · exact (chain_congr fun i hi => by rw [hbls i hi]).mpr h.chain
  · refine (chain_congr fun i hi => hkeeps.links i (hdisjoint i ?_)).mpr h.linked
    exact List.mem_append_left _ hi
  · exact fun i hi => (hbls i hi).symm ▸ h.live i hi
  · exact fun i hi => (hbls i hi).symm ▸ h.idle i hi
  · rw [hst, h.klen]
  · rw [hst, h.hash]
  · rw [hkeeps.bytes.gather hapart]
    exact h.bytes

theorem alloc_none (hfree : FreeBlocks s.s_cl []) (len klen : ℕ) (hash : BitVec 32) :
    s.alloc len klen hash = some (List_End, s) := by
  rw [CncrStr.alloc, hfree.nxt_nil]
  exact if_pos rfl

/-- The last link and the description of the entry, put in after the loop. -/
def CncrStr.close (s : CncrStr) (st : BitVec 32) (e : Entry size) : CncrStr :=
  let len := e.key.length + e.value.length
  let s := s.setBlk e.en (.new LIST_END e.ver len)
  let bl := s.s_bls st
  let kr := { bl.kr with isKey := true, isDeleted := false }
  s.setBlk st { bl with kr := kr, hash := e.hash, len := len, klen := e.key.length }

section Close
variable {s' : CncrStr} {len : ℕ}

theorem close_notMem {i : BitVec 32} (hst : st ∈ e.blocks) (hi : i ∉ e.blocks) :
    (s.close st e).s_bls i = s.s_bls i := by
  have hne : i ≠ st := fun heq => hi (heq ▸ hst)
  have hen : i ≠ e.en := fun heq => hi (heq ▸ List.mem_append_right _ List.mem_cons_self)
  exact (setBlk_of_ne hne _).trans (setBlk_of_ne hen _)

theorem close_mem {i : BitVec 32}
    (h : Taken (e.key.length + e.value.length) e.ver st e.mid e.en free s s') (hi : i ∈ e.blocks) :
    Live ((s'.close st e).s_bls i) e ∧ ((s'.close st e).s_bls i).kr.readers = 0 ∧
      ((s'.close st e).s_bls i).idx = if i = e.en then LIST_END else (s'.s_bls i).idx := by
  have hbefore : (s'.setBlk e.en (.new LIST_END e.ver (e.key.length + e.value.length))).s_bls i =
      .new (if i = e.en then LIST_END else (s'.s_bls i).idx) e.ver
        (e.key.length + e.value.length) := by
    by_cases hen : i = e.en
    · rw [if_pos hen, hen, setBlk_same]
    · rw [if_neg hen]
      refine (setBlk_of_ne hen _).trans (h.new i ?_)
      exact (List.mem_append.mp hi).resolve_right fun h => hen (List.mem_singleton.mp h)
  by_cases hist : i = st
  · subst hist
    simp only [CncrStr.close, setBlk_same, hbefore]
    exact ⟨⟨rfl, BitVec.msb_zero, rfl, rfl⟩, rfl, rfl⟩
  · rw [show (s'.close st e).s_bls i = _ from (setBlk_of_ne hist _).trans hbefore]
    exact ⟨⟨rfl, BitVec.msb_zero, rfl, rfl⟩, rfl, rfl⟩

theorem close_first : ((s'.close st e).s_bls st).klen = e.key.length ∧
    ((s'.close st e).s_bls st).hash = e.hash := by
  simp only [CncrStr.close, setBlk_same, and_self]

end Close

theorem alloc_enough (hsize : s.m_blockSize = size) (hfree : FreeBlocks s.s_cl (e.blocks ++ free))
    (hnodup : e.blocks.Nodup) (hver : e.ver = s.s_version.setWidth 32) :
    ∃ st s', s.alloc (e.key.length + e.value.length) e.key.length e.hash =
        some (⟨st, e.ver⟩, s') ∧
      Reserved s' st e ∧ FreeBlocks s'.s_cl free ∧ Keeps size e.blocks s s' ∧
      s'.s_blks = s.s_blks ∧ s'.s_version = s.s_version + 1 := by
  obtain ⟨st, xs, hst⟩ : ∃ st xs, e.blocks = st :: xs := by
    cases h : e.blocks with
    | nil => simp [Entry.blocks] at h
    | cons st xs => exact ⟨st, xs, rfl⟩
  rw [hst] at hfree hnodup
  obtain ⟨l, hnxt, hlinks, hrest⟩ := FreeBlocks.nxt_cons hfree
  have hne : st ≠ LIST_END := fun heq => hfree.notEnd (heq ▸ by simp)
  have hlength : xs.length = e.mid.length := by
    have h := congrArg List.length hst
    rw [Entry.blocks, List.length_append, List.length_singleton, List.length_cons] at h
    omega
  obtain ⟨s1, hloop, h⟩ := allocLoop_enough (e.key.length + e.value.length) e.ver
    (s := { s with s_cl := l, s_version := s.s_version + 1 }) hrest hnodup hst.symm
  rw [← hst] at hnodup
  have hmem : st ∈ e.blocks := hst ▸ List.mem_cons_self
  refine ⟨st, s1.close st e, ?_, ?_, h.free, ⟨?_, ?_, ?_, h.size⟩, h.blks, h.version⟩
  · rw [CncrStr.alloc, hnxt]
    simp only [if_neg hne, e.blocksNeeded_eq hsize, ← hver, Nat.add_sub_cancel,
      if_neg (Nat.succ_ne_zero _), ← hlength, hloop]
    rfl
  · have hchain := hfree.chain
    rw [← hst, Entry.blocks, List.append_assoc] at hchain
    obtain ⟨c, hmid, hen, _⟩ := chain_append.mp hchain
    have hhead : s.s_cl.s_h.idx = st := hfree.chain.1
    refine ⟨h.size.trans hsize, ?_, ?_, ?_, hnodup, fun i hi => (close_mem h hi).1,
      fun i hi => (close_mem h hi).2.1, close_first.1, close_first.2⟩
    · refine chain_concat.mpr ⟨(chain_congr fun i hi => ?_).mpr h.chain, ?_⟩
      · rw [(close_mem h (List.mem_append_left _ hi)).2.2, if_neg]
        rintro rfl
        exact (List.nodup_append.mp hnodup).2.2 _ hi _ (List.mem_singleton_self _) rfl
      · rw [(close_mem h (List.mem_append_right _ List.mem_cons_self)).2.2, if_pos rfl]
    · change Chain s1.s_cl.s_lv st e.mid e.en
      rw [h.links, hlinks, ← hhead, ← hen]
      exact hmid
    · rw [hst]
      exact fun hmem => hfree.notEnd (List.mem_append_left free hmem)
  · exact fun i hi => (close_notMem hmem hi).trans
      (h.frame i fun hmid => hi (List.mem_append_left _ hmid))
  · exact fun i _ => congrFun (h.links.trans hlinks) i
  · intro a _
    exact congrFun h.blks a

section Writing
variable {b : Buffer}

def CncrStr.withBytes (s : CncrStr) (m : Buffer) : CncrStr := { s with s_blks := m }

theorem writeBlock_eq (hsize : s.m_blockSize = size) {len n : ℕ}
    (hn : n = if len = 0 then size else len) (ofst : ℕ) : s.writeBlock cur b len ofst =
      (n, s.withBytes (s.s_blks.put (ptr size cur + ofst) b n)) := by
  subst hsize
  rw [CncrStr.writeBlock, ← hn]
  rfl

theorem putBlocks_chain (hsize : s.m_blockSize = size)
    (hchain : Chain (fun i => (s.s_bls i).idx) cur (xs ++ ys) LIST_END)
    (hapart : (xs ++ ys).Pairwise (Apart size (ptr size))) :
    ∃ m cur', CncrStr.putBlocks xs.length s cur b =
        (s.withBytes m, cur', b.drop (xs.length * size)) ∧
      Chain (fun i => (s.s_bls i).idx) cur' ys LIST_END ∧
      Frame size (ptr size) xs s.s_blks m ∧
      gather m size (ptr size) (xs ++ ys) =
        Buffer.put (gather s.s_blks size (ptr size) (xs ++ ys)) 0 b (xs.length * size) := by
  induction xs generalizing s cur b with
  | nil =>
    refine ⟨s.s_blks, cur, ?_, hchain, .refl _ _, ?_⟩
    · rw [List.length_nil, CncrStr.putBlocks, Nat.zero_mul, drop_zero]
      rfl
    · rw [List.length_nil, Nat.zero_mul, put_zero]
  | cons x xs ih =>
    obtain ⟨rfl, hrest⟩ := hchain
    obtain ⟨hfirst, hothers⟩ := List.pairwise_cons.mp hapart
    obtain ⟨m1, hm1⟩ : ∃ m1, m1 = s.s_blks.put (ptr size cur + 0) b size := ⟨_, rfl⟩
    obtain ⟨m, cur', hput, hchain', hframe, hgather⟩ :=
      ih (s := s.withBytes m1) (b := b.drop size) hsize hrest hothers
    have hone : Frame size (ptr size) [cur] s.s_blks m1 := hm1 ▸ frame_put b (by omega)
    refine ⟨m, cur', ?_, hchain', ?_, ?_⟩
    · rw [List.length_cons, CncrStr.putBlocks, writeBlock_eq hsize rfl, if_pos rfl, ← hm1]
      refine hput.trans ?_
      rw [drop_drop, Nat.succ_mul, Nat.add_comm size]
      rfl
    · refine Frame.trans (hone.mono fun z hz => ?_) (hframe.mono fun z hz => ?_)
      · exact List.mem_singleton.mp hz ▸ List.mem_cons_self
      · exact List.mem_cons_of_mem cur hz
    · have hkeep : ∀ i < size, m (ptr size cur + i) = m1 (ptr size cur + i) := fun i hi =>
        hframe.keeps (fun z hz => (hfirst z (List.mem_append_left _ hz)).symm) hi
      have hwrite : gather m1 size (ptr size) (cur :: (xs ++ ys)) =
          Buffer.put (gather s.s_blks size (ptr size) (cur :: (xs ++ ys))) 0 b size := by
        rw [hm1]
        exact gather_put b (by omega) hfirst
      rw [List.cons_append, gather_cons_put (b.drop size) hgather hkeep]
      change Buffer.put (gather m1 size (ptr size) (cur :: (xs ++ ys))) (size + 0) _ _ = _
      rw [hwrite, Nat.add_comm size 0, put_append, List.length_cons, Nat.succ_mul,
        Nat.add_comm size]

theorem whole_blocks (hsize : s.m_blockSize = size) (len : ℕ) :
    (if len % size ≠ 0 then s.blocksNeeded len - 1 else s.blocksNeeded len) = len / size := by
  rw [CncrStr.blocksNeeded, hsize]
  by_cases h : len % size = 0
  · rw [if_neg (not_not.mpr h), if_pos h, Nat.add_zero]
  · rw [if_pos h, if_neg h, Nat.add_sub_cancel]

/-- The whole blocks of the key, the block that it shares with the value, the whole blocks of
    the value and what is left of it. -/
theorem put_eq (hsize : s.m_blockSize = size) {klen vlen fill tail : ℕ} (vb : Buffer)
    (hjagged : klen % size ≠ 0) (hfill : fill = min vlen (size - klen % size))
    (htail : tail = vlen - fill) :
    s.put st b klen vb vlen =
      let (s1, cur1, b1) := CncrStr.putBlocks (klen / size) s st b
      let s2 := (s1.writeBlock cur1 b1 (klen % size) 0).2
      let s3 := (s2.writeBlock cur1 vb fill (klen % size)).2
      let (s4, cur4, b4) := CncrStr.putBlocks (tail / size) s3 (s3.nxtBlock cur1).idx
        (vb.drop (s2.writeBlock cur1 vb fill (klen % size)).1)
      if tail % size ≠ 0 then (s4.writeBlock cur4 b4 (tail % size) 0).2 else s4 := by
  have hrem (len : ℕ) : len - len / size * size = len % size := by
    have hdiv := Nat.div_add_mod len size
    rw [Nat.mul_comm] at hdiv
    omega
  subst hfill htail
  rw [CncrStr.put]
  simp only [hsize, whole_blocks hsize, hrem, if_pos hjagged, Nat.pos_iff_ne_zero, and_self]

theorem Entry.split_tail (e : Entry size) {xs ys : List (BitVec 32)} {y : BitVec 32} {tail : ℕ}
    (hblocks : e.blocks = xs ++ y :: ys) (hxs : xs.length = e.key.length / size)
    (htail : tail = e.value.length - min e.value.length (size - e.key.length % size)) :
    ∃ zs ws, ys = zs ++ ws ∧ zs.length = tail / size ∧ (tail % size ≠ 0 → ws ≠ []) := by
  have hpos := e.size_pos
  have henough : e.key.length + e.value.length ≤ e.blocks.length * size := e.enough
  rw [hblocks, List.length_append, List.length_cons, hxs, ← Nat.add_assoc, Nat.add_right_comm,
    Nat.add_mul, Nat.succ_mul] at henough
  have hmod := Nat.mod_lt e.key.length hpos
  have hdiv := Nat.div_add_mod e.key.length size
  have htdiv := Nat.div_add_mod tail size
  rw [Nat.mul_comm] at hdiv htdiv
  have hroom : tail ≤ ys.length * size := by omega
  refine ⟨ys.take (tail / size), ys.drop (tail / size), (List.take_append_drop _ _).symm, ?_, ?_⟩
  · rw [List.length_take, Nat.min_eq_left (Nat.div_le_of_le_mul (by rwa [Nat.mul_comm] at hroom))]
  · intro hrem hnil
    have hle := List.drop_eq_nil_iff.mp hnil
    have hmul := Nat.mul_le_mul_right size hle
    omega

theorem put_tail (hsize : s.m_blockSize = size) (hpos : 0 < size) {tail : ℕ}
    {zs ws : List (BitVec 32)}
    (hchain : Chain (fun i => (s.s_bls i).idx) cur (zs ++ ws) LIST_END)
    (hapart : (zs ++ ws).Pairwise (Apart size (ptr size))) (hzs : zs.length = tail / size)
    (hws : tail % size ≠ 0 → ws ≠ []) :
    ∃ m, (let (s', cur', b') := CncrStr.putBlocks (tail / size) s cur b
        if tail % size ≠ 0 then (s'.writeBlock cur' b' (tail % size) 0).2 else s') =
          s.withBytes m ∧
      Frame size (ptr size) (zs ++ ws) s.s_blks m ∧
      gather m size (ptr size) (zs ++ ws) =
        Buffer.put (gather s.s_blks size (ptr size) (zs ++ ws)) 0 b tail := by
  have hmod := Nat.mod_lt tail hpos
  have hdiv := Nat.div_add_mod tail size
  rw [Nat.mul_comm] at hdiv
  obtain ⟨m, cur', hput, hchain', hframe, hgather⟩ := putBlocks_chain (b := b) hsize hchain hapart
  have hwhole : Frame size (ptr size) (zs ++ ws) s.s_blks m :=
    hframe.mono fun z hz => List.mem_append_left ws hz
  rw [← hzs, hput]
  by_cases hrem : tail % size = 0
  · refine ⟨m, ?_, hwhole, ?_⟩
    · simp only [hrem, ne_eq, not_true_eq_false, if_false]
    · rw [hgather, hzs, show tail / size * size = tail by omega]
  · cases ws with
    | nil => exact absurd rfl (hws hrem)
    | cons w ws =>
      obtain rfl : cur' = w := hchain'.1
      refine ⟨m.put (ptr size cur' + 0) (b.drop (zs.length * size)) (tail % size), ?_, ?_, ?_⟩
      · simp only [if_pos (show tail % size ≠ 0 from hrem),
          writeBlock_eq (s := s.withBytes m) hsize (if_neg hrem).symm]
        rfl
      · refine hwhole.trans ((frame_put _ (by omega)).mono fun z hz => ?_)
        exact List.mem_singleton.mp hz ▸ by simp
      · rw [gather_put_at _ (by omega) hapart, hgather, Nat.add_zero, put_append_zero, hzs, hdiv]

theorem put_reserved (h : Reserved s st e) (hapart : e.blocks.Pairwise (Apart size (ptr size))) :
    ∃ m, s.put st (bytesOf e.key) e.key.length (bytesOf e.value) e.value.length = s.withBytes m ∧
      Frame size (ptr size) e.blocks s.s_blks m ∧
      ∀ i < e.key.length + e.value.length,
        gather m size (ptr size) e.blocks i = bytesOf (e.key ++ e.value) i := by
  obtain ⟨xs, y, ys, hblocks, hxs, _⟩ := e.split
  obtain ⟨fill, hfill⟩ : ∃ n, n = min e.value.length (size - e.key.length % size) := ⟨_, rfl⟩
  obtain ⟨tail, htail⟩ : ∃ n, n = e.value.length - fill := ⟨_, rfl⟩
  obtain ⟨zs, ws, hys, hzs, hws⟩ := e.split_tail hblocks hxs (hfill ▸ htail)
  have hpos := e.size_pos
  have hvalue := e.fits.value_pos
  have hjagged := e.fits.jagged
  have hmod := Nat.mod_lt e.key.length hpos
  have hdiv := Nat.div_add_mod e.key.length size
  rw [Nat.mul_comm] at hdiv
  have hchain := h.chain
  rw [hblocks] at hchain hapart
  obtain ⟨m1, cur1, hput1, hchain1, hframe1, hgather1⟩ :=
    putBlocks_chain (b := bytesOf e.key) h.size_eq hchain hapart
  obtain rfl : cur1 = y := hchain1.1
  obtain ⟨m2, hm2⟩ : ∃ m2, m2 =
    m1.put (ptr size cur1 + 0) ((bytesOf e.key).drop (xs.length * size)) (e.key.length % size) :=
    ⟨_, rfl⟩
  obtain ⟨m3, hm3⟩ : ∃ m3, m3 =
    m2.put (ptr size cur1 + e.key.length % size) (bytesOf e.value) fill := ⟨_, rfl⟩
  obtain ⟨m, hput, hframe, hgather⟩ := put_tail (s := s.withBytes m3)
    (b := (bytesOf e.value).drop fill) h.size_eq hpos (hys ▸ hchain1.2)
    (hys ▸ (List.pairwise_cons.mp (List.pairwise_append.mp hapart).2.1).2) hzs hws
  have hw2 : (s.withBytes m1).writeBlock cur1 ((bytesOf e.key).drop (xs.length * size))
      (e.key.length % size) 0 = (e.key.length % size, s.withBytes m2) := by
    rw [writeBlock_eq (s := s.withBytes m1) h.size_eq (if_neg hjagged).symm, hm2]
    rfl
  have hw3 : (s.withBytes m2).writeBlock cur1 (bytesOf e.value) fill (e.key.length % size) =
      (fill, s.withBytes m3) := by
    rw [writeBlock_eq (s := s.withBytes m2) h.size_eq (if_neg (by omega)).symm, hm3]
    rfl
  have hmem : ∀ z ∈ [cur1], z ∈ e.blocks := fun z hz => by
    rw [hblocks, List.mem_singleton.mp hz]
    simp
  refine ⟨m, ?_, ?_, ?_⟩
  · rw [put_eq h.size_eq (bytesOf e.value) hjagged hfill htail, ← hxs, hput1]
    simp only [hw2, hw3]
    exact hput
  · have h1 : Frame size (ptr size) e.blocks s.s_blks m1 :=
      hframe1.mono fun z hz => hblocks ▸ List.mem_append_left _ hz
    have h2 : Frame size (ptr size) e.blocks m1 m2 := by
      rw [hm2]
      exact (frame_put _ (by omega)).mono hmem
    have h3 : Frame size (ptr size) e.blocks m2 m3 := by
      rw [hm3]
      exact (frame_put _ (by omega)).mono hmem
    refine ((h1.trans h2).trans h3).trans (hframe.mono fun z hz => ?_)
    rw [hblocks, hys]
    exact List.mem_append_right _ (List.mem_cons_of_mem _ hz)
  · have hkey : gather m2 size (ptr size) e.blocks =
        Buffer.put (gather s.s_blks size (ptr size) e.blocks) 0 (bytesOf e.key) e.key.length := by
      rw [hblocks, hm2, gather_put_at _ (by omega) hapart, hgather1, Nat.add_zero,
        put_append_zero, hxs, hdiv]
    have hhead : gather m3 size (ptr size) e.blocks = Buffer.put
        (gather m2 size (ptr size) e.blocks) e.key.length (bytesOf e.value) fill := by
      rw [hblocks, hm3, gather_put_at _ (by omega) hapart, hxs, hdiv]
    have hrest : gather m size (ptr size) e.blocks =
        Buffer.put (gather m3 size (ptr size) e.blocks) (e.key.length + fill)
          ((bytesOf e.value).drop fill) tail := by
      have hsplit : e.blocks = (xs ++ [cur1]) ++ ys := by rw [hblocks, List.append_assoc]; rfl
      rw [← hblocks, hsplit] at hapart
      rw [hsplit]
      obtain ⟨_, _, hacross⟩ := List.pairwise_append.mp hapart
      rw [gather_append_put _ (hys ▸ hgather) fun z hz i hi =>
        hframe.keeps (fun w hw => (hacross z hz w (hys ▸ hw)).symm) hi]
      change Buffer.put (gather m3 size (ptr size) (xs ++ [cur1] ++ ys)) _ _ _ = _
      rcases Nat.eq_zero_or_pos tail with hzero | htail_pos
      · rw [hzero, put_zero, put_zero]
      · -- the value does not end in the block that it begins in, and so fills it
        rw [List.length_append, List.length_singleton, hxs, Nat.succ_mul, Nat.add_zero,
          show e.key.length / size * size + size = e.key.length + fill by omega]
    have hvalue : gather m size (ptr size) e.blocks =
        Buffer.put (gather m2 size (ptr size) e.blocks) e.key.length (bytesOf e.value)
          e.value.length := by
      rw [hrest, hhead, put_append, show fill + tail = e.value.length by omega]
    intro i hi
    rw [hvalue, hkey]
    simp only [Buffer.put]
    by_cases hik : i < e.key.length
    · rw [if_neg (by omega), if_pos (by omega), bytesOf_append_lt hik, Nat.sub_zero]
    · rw [if_pos (by omega)]
      have hdrop := congrFun (drop_bytesOf_append e.key e.value) (i - e.key.length)
      rw [← hdrop, Buffer.drop, show e.key.length + (i - e.key.length) = i by omega]

end Writing
theorem length_lt_of_nodup (hnodup : xs.Nodup) (hend : LIST_END ∉ xs) : xs.length < 2 ^ 32 := by
  have hall : ((LIST_END :: xs).map BitVec.toNat).Nodup :=
    (List.nodup_cons.mpr ⟨hend, hnodup⟩).map fun _ _ h => BitVec.eq_of_toNat_eq h
  have hsub : (LIST_END :: xs).map BitVec.toNat ⊆ List.range (2 ^ 32) := by
    intro n hn
    obtain ⟨i, _, rfl⟩ := List.mem_map.mp hn
    exact List.mem_range.mpr i.isLt
  have hle := (List.Nodup.subperm hall hsub).length_le
  rw [List.length_map, List.length_cons, List.length_range] at hle
  omega

theorem lnkLoop_chain {s_lv : BitVec 32 → BitVec 32} {cnt fuel : ℕ}
    (hchain : Chain s_lv cur xs LIST_END) (hend : LIST_END ∉ xs) (hfuel : xs.length < fuel) :
    lnkLoop s_lv fuel cnt cur = some (cnt + xs.length) := by
  obtain ⟨fuel, rfl⟩ : ∃ n, fuel = n + 1 := ⟨fuel - 1, by omega⟩
  induction xs generalizing cur cnt fuel with
  | nil => exact if_pos hchain
  | cons x xs ih =>
    obtain ⟨rfl, hrest⟩ := hchain
    rw [List.length_cons] at hfuel
    obtain ⟨fuel, rfl⟩ : ∃ n, fuel = n + 1 := ⟨fuel - 1, by omega⟩
    have hne : cur ≠ LIST_END := fun heq => hend (heq ▸ List.mem_cons_self)
    rw [lnkLoop, if_neg hne, ih hrest (fun hmem => hend (List.mem_cons_of_mem cur hmem)) fuel
      (by omega), List.length_cons, Nat.add_right_comm, Nat.add_assoc]

theorem FreeBlocks.lnkCnt {l : CncrLst} (h : FreeBlocks l free) (hnodup : free.Nodup) :
    l.lnkCnt = some free.length := by
  rw [CncrLst.lnkCnt, lnkLoop_chain h.chain h.notEnd (length_lt_of_nodup hnodup h.notEnd),
    Nat.zero_add]

theorem findEnd_chain {bls : BitVec 32 → BlkLst} (prev ver : BitVec 32) {fuel : ℕ}
    (hchain : Chain (fun i => (bls i).idx) cur xs LIST_END) (hend : LIST_END ∉ xs)
    (hfuel : xs.length < fuel) :
    ∃ bls', CncrStr.findEnd ver fuel bls cur prev = some (xs.getLastD prev, bls') ∧
      ∀ i ∉ prev :: xs, bls' i = bls i := by
  obtain ⟨fuel, rfl⟩ : ∃ n, fuel = n + 1 := ⟨fuel - 1, by omega⟩
  induction xs generalizing bls cur prev fuel with
  | nil => exact ⟨bls, if_pos hchain, fun _ _ => rfl⟩
  | cons x xs ih =>
    obtain ⟨rfl, hrest⟩ := hchain
    obtain ⟨fuel, rfl⟩ : ∃ n, fuel = n + 1 := by
      rw [List.length_cons] at hfuel
      exact ⟨fuel - 1, by omega⟩
    have hne : cur ≠ LIST_END := fun heq => hend (heq ▸ List.mem_cons_self)
    obtain ⟨bls1, hbls1⟩ : ∃ b, b = Function.update bls prev { bls prev with version := ver } :=
      ⟨_, rfl⟩
    have hidx : ∀ i, (bls1 i).idx = (bls i).idx := by
      intro i
      rw [hbls1]
      by_cases hi : i = prev
      · subst hi
        rw [Function.update_self]
      · rw [Function.update_of_ne hi]
    have hrest1 : Chain (fun i => (bls1 i).idx) (bls1 cur).idx xs LIST_END := by
      rw [hidx cur]
      exact (chain_congr fun i _ => hidx i).mpr hrest
    obtain ⟨bls', hfind, hframe⟩ := ih cur hrest1
      (fun hmem => hend (List.mem_cons_of_mem cur hmem)) fuel
      (by rw [List.length_cons] at hfuel; omega)
    refine ⟨bls', ?_, fun i hi => ?_⟩
    · rw [CncrStr.findEnd, if_neg hne, List.getLastD_cons]
      simp only [← hbls1]
      exact hfind
    · rw [List.mem_cons, not_or] at hi
      exact (hframe i hi.2).trans (hbls1 ▸ Function.update_of_ne hi.1 _ _)

theorem free_reserved (h : Reserved s st e) (hfree : FreeBlocks s.s_cl free)
    (hdisjoint : ∀ i ∈ e.blocks, i ∉ free) :
    ∃ s', s.free st e.ver = some (false, s') ∧ FreeBlocks s'.s_cl (e.blocks ++ free) ∧
      Keeps size e.blocks s s' ∧ s'.s_version = s.s_version := by
  have hst := h.live st h.st_mem
  obtain ⟨s1, hs1⟩ : ∃ s1, s1 = s.setKr st ⟨(s.s_bls st).kr.isKey, true, 0⟩ := ⟨_, rfl⟩
  have hidx : ∀ i, (s1.s_bls i).idx = (s.s_bls i).idx := by
    intro i
    rw [hs1]
    by_cases hi : i = st
    · subst hi
      rw [setKr_s_bls]
    · rw [CncrStr.setKr, setBlk_of_ne hi]
  have hchain : Chain (fun i => (s1.s_bls i).idx) st e.blocks LIST_END :=
    (chain_congr fun i _ => hidx i).mpr h.chain
  obtain ⟨bls, hfind, hframe⟩ := findEnd_chain st 0 hchain h.notEnd
    (length_lt_of_nodup h.nodup h.notEnd)
  have hlast : e.blocks.getLastD st = e.en := List.getLastD_concat
  have hen : e.en ∈ e.blocks := List.mem_append_right _ List.mem_cons_self
  have hmid : e.en ∉ e.mid := fun hmem =>
    (List.nodup_append.mp h.nodup).2.2 _ hmem _ (List.mem_singleton_self _) rfl
  refine ⟨{ s1 with s_bls := bls, s_cl := s1.s_cl.free st e.en }, ?_, ⟨?_, ?_⟩,
    ⟨?_, ?_, ?_, ?_⟩, ?_⟩
  · rw [CncrStr.free, CncrStr.decReadersOrDel]
    simp only [hst.version, hst.kept, h.idle st h.st_mem, ne_eq, not_true_eq_false, if_false,
      if_true, Bool.not_false, and_self]
    rw [CncrStr.doFree, CncrStr.findEndSetVersion]
    rw [← hs1, hfind, hlast]
    rfl
  · exact chain_push hmid (hdisjoint _ hen) (hs1 ▸ h.linked) (hs1 ▸ hfree.chain)
  · rw [List.mem_append, not_or]
    exact ⟨h.notEnd, hfree.notEnd⟩
  · intro i hi
    have hne : i ≠ st := fun heq => hi (heq ▸ h.st_mem)
    refine (hframe i fun hmem => ?_).trans (hs1 ▸ setBlk_of_ne hne _)
    exact (List.mem_cons.mp hmem).elim hne hi
  · intro i hi
    have hne : i ≠ e.en := fun heq => hi (heq ▸ hen)
    refine (Function.update_of_ne hne _ _).trans ?_
    rw [hs1]
    rfl
  · rw [hs1]
    exact .refl _ _
  · rw [hs1]
    rfl
  · rw [hs1]
    rfl

end NvdlaVp.Simdb
