import NvdlaVp.SimdbBlocks

set_option autoImplicit false

namespace NvdlaVp.Simdb
open ByteMemory BlockBytes IndexChain

def ptr (size : ℕ) (blkIdx : BitVec 32) : ℕ := blkIdx.toNat * size % 2 ^ 32

/-- The lengths that `put` and `get` of `CncrStr` agree on: a value that begins in a block
    of its own is not written from its first byte. -/
structure Fits (size : ℕ) (key value : List (BitVec 8)) : Prop where
  jagged : key.length % size ≠ 0
  value_pos : 0 < value.length
  length_lt : key.length + value.length < 2 ^ 32

instance (size : ℕ) (key value : List (BitVec 8)) : Decidable (Fits size key value) :=
  decidable_of_iff (key.length % size ≠ 0 ∧ 0 < value.length ∧
    key.length + value.length < 2 ^ 32)
    ⟨fun ⟨h, h', h''⟩ => ⟨h, h', h''⟩, fun ⟨h, h', h''⟩ => ⟨h, h', h''⟩⟩

structure Entry (size : ℕ) where
  ver : BitVec 32
  mid : List (BitVec 32)
  en : BitVec 32
  hash : BitVec 32
  key : List (BitVec 8)
  value : List (BitVec 8)
  ver_ne : ver ≠ 0
  fits : Fits size key value
  enough : key.length + value.length ≤ (mid ++ [en]).length * size
  needed : mid.length * size < key.length + value.length

variable {size : ℕ}

def Entry.blocks (e : Entry size) : List (BitVec 32) := e.mid ++ [e.en]

/-- A block of an entry that a call can begin to read. -/
structure Live (bl : BlkLst) (e : Entry size) : Prop where
  version : bl.version = e.ver
  readers : bl.kr.readers.msb = false
  kept : bl.kr.isDeleted = false
  len : bl.len = e.key.length + e.value.length

/-- The blocks of an entry are linked and describe it, whatever their bytes are. -/
structure Reserved (s : CncrStr) (st : BitVec 32) (e : Entry size) : Prop where
  size_eq : s.m_blockSize = size
  chain : Chain (fun i => (s.s_bls i).idx) st e.blocks LIST_END
  linked : Chain s.s_cl.s_lv st e.mid e.en
  notEnd : LIST_END ∉ e.blocks
  nodup : e.blocks.Nodup
  live : ∀ i ∈ e.blocks, Live (s.s_bls i) e
  idle : ∀ i ∈ e.blocks, (s.s_bls i).kr.readers = 0
  klen : (s.s_bls st).klen = e.key.length
  hash : (s.s_bls st).hash = e.hash

structure Holds (s : CncrStr) (st : BitVec 32) (e : Entry size) : Prop extends
    Reserved s st e where
  bytes : ∀ i < e.key.length + e.value.length,
    gather s.s_blks size (ptr size) e.blocks i = bytesOf (e.key ++ e.value) i

variable {s : CncrStr} {st i ver : BitVec 32} {e : Entry size} {out : Buffer}

theorem Reserved.blkPtr (h : Reserved s st e) : s.blkPtr = ptr size := by
  funext i
  rw [CncrStr.blkPtr, ptr, h.size_eq]

theorem Reserved.st_mem (h : Reserved s st e) : st ∈ e.blocks :=
  chain_mem h.chain (by simp [Entry.blocks])

theorem Entry.size_pos (e : Entry size) : 0 < size := by
  have hpos := e.fits.value_pos
  have henough := e.enough
  rcases Nat.eq_zero_or_pos size with rfl | h
  · omega
  · exact h

theorem Live.found {bl : BlkLst} (h : Live bl e) :
    ¬ (bl.version ≠ e.ver ∨ bl.kr.readers.msb ∨ bl.kr.isDeleted) := by
  rw [h.version, h.readers, h.kept]
  simp

theorem setKr_s_bls (kr : KeyReaders) :
    (s.setKr i kr).s_bls i = { s.s_bls i with kr := kr } := Function.update_self _ _ _

theorem setBlk_same (bl : BlkLst) : (s.setBlk i bl).s_bls i = bl := Function.update_self _ _ _

theorem setBlk_of_ne {j : BitVec 32} (h : j ≠ i) (bl : BlkLst) :
    (s.setBlk i bl).s_bls j = s.s_bls j := Function.update_of_ne h _ _

theorem setBlk_self : s.setBlk i (s.s_bls i) = s := by
  rw [CncrStr.setBlk, Function.update_eq_self]

theorem setBlk_setBlk (bl bl' : BlkLst) : (s.setBlk i bl).setBlk i bl' = s.setBlk i bl' := by
  rw [CncrStr.setBlk, CncrStr.setBlk, CncrStr.setBlk, Function.update_idem]

theorem setKr_setKr (kr kr' : KeyReaders) : (s.setKr i kr).setKr i kr' = s.setKr i kr' := by
  rw [CncrStr.setKr, setKr_s_bls, CncrStr.setKr, setBlk_setBlk]
  rfl

def CncrStr.read (s : CncrStr) (i : BitVec 32) : CncrStr :=
  s.setKr i { (s.s_bls i).kr with readers := (s.s_bls i).kr.readers + 1 }

theorem incReaders_live (h : Live (s.s_bls i) e) :
    s.incReaders i e.ver = ((s.read i).s_bls i, s.read i) := by
  rw [CncrStr.incReaders]
  simp only
  rw [if_neg h.found]
  rfl

theorem read_s_bls : (s.read i).s_bls i = { s.s_bls i with
    kr := { (s.s_bls i).kr with readers := (s.s_bls i).kr.readers + 1 } } := setKr_s_bls _

theorem decReaders_live (h : Live (s.s_bls i) e) :
    (s.read i).decReadersOrDel i e.ver false = some (true, s) := by
  rw [CncrStr.decReadersOrDel]
  simp only [read_s_bls, h.version, h.kept, ne_eq, not_true_eq_false, if_false,
    Bool.false_eq_true, and_false]
  rw [CncrStr.read, setKr_setKr, BitVec.add_sub_cancel, ← h.kept, CncrStr.setKr, setBlk_self]

theorem read_same (j : BitVec 32) : ((s.read i).s_bls j).idx = (s.s_bls j).idx ∧
    ((s.read i).s_bls j).version = (s.s_bls j).version ∧
    ((s.read i).s_bls j).len = (s.s_bls j).len ∧
    ((s.read i).s_bls j).klen = (s.s_bls j).klen ∧
    ((s.read i).s_bls j).kr.isDeleted = (s.s_bls j).kr.isDeleted := by
  by_cases hij : j = i
  · subst hij
    rw [read_s_bls]
    exact ⟨rfl, rfl, rfl, rfl, rfl⟩
  · rw [show (s.read i).s_bls j = s.s_bls j from Function.update_of_ne hij _ _]
    exact ⟨rfl, rfl, rfl, rfl, rfl⟩

theorem Live.read {j : BitVec 32} (h : Live (s.s_bls j) e) (hidle : (s.s_bls i).kr.readers = 0) :
    Live ((s.read i).s_bls j) e := by
  obtain ⟨_, hversion, hlen, _, hkept⟩ := read_same (s := s) (i := i) j
  refine ⟨hversion.trans h.version, ?_, hkept.trans h.kept, hlen.trans h.len⟩
  by_cases hij : j = i
  · subst hij
    rw [read_s_bls, hidle]
    exact show ((0 : BitVec 30) + 1).msb = false by decide
  · rw [show (s.read i).s_bls j = s.s_bls j from Function.update_of_ne hij _ _]
    exact h.readers

theorem readBlock_live (h : Live (s.s_bls i) e) {b ofst len n : ℕ}
    (hn : n = if len = 0 then s.m_blockSize - ofst else len) :
    s.readBlock i e.ver out b ofst len =
      some (n, out.put b (s.s_blks.drop (s.blkPtr i + ofst)) n, s) := by
  rw [CncrStr.readBlock, incReaders_live h, hn]
  simp only [(read_same i).2.1, h.version, if_neg e.ver_ne, decReaders_live h, Option.map_some]
  rfl

theorem memcmpBlk_live (h : Live (s.s_bls i) e) (buf1 buf2 : Buffer) (len : ℕ) :
    s.memcmpBlk i e.ver buf1 buf2 len =
      some (if agree buf1 buf2 len then .MATCH_TRUE else .MATCH_FALSE, s) := by
  have hpos := e.fits.value_pos
  rw [CncrStr.memcmpBlk, incReaders_live h]
  simp only [(read_same i).2.2.1, h.len, if_neg (show e.key.length + e.value.length ≠ 0 by omega),
    decReaders_live h, Option.map_some, Bool.not_true, Bool.false_eq_true, if_false]

section Loops
variable {xs ys : List (BitVec 32)}

theorem nxtBlock_live (h : Live (s.s_bls i) e) : s.nxtBlock i = ⟨(s.s_bls i).idx, e.ver⟩ := by
  rw [CncrStr.nxtBlock, h.version]

theorem skipKey_live (hlive : ∀ i ∈ xs, Live (s.s_bls i) e)
    (h : Chain (fun i => (s.s_bls i).idx) st (xs ++ i :: ys) LIST_END) :
    s.skipKey e.ver xs.length st = some i := by
  induction xs generalizing st with
  | nil => exact congrArg some h.1
  | cons x xs ih =>
    obtain ⟨rfl, hrest⟩ := h
    rw [List.length_cons, CncrStr.skipKey, nxtBlock_live (hlive st List.mem_cons_self),
      if_neg (not_not.mpr rfl)]
    exact ih (fun j hj => hlive j (List.mem_cons_of_mem st hj)) hrest

theorem getLoop_live (hsize : s.m_blockSize = size) (hlive : ∀ i ∈ xs, Live (s.s_bls i) e)
    (hend : LIST_END ∉ xs) (h : Chain (fun i => (s.s_bls i).idx) st xs LIST_END)
    {maxlen len fuel : ℕ} (hlen : len ≤ maxlen) (hfuel : maxlen - len < fuel) :
    CncrStr.getLoop e.ver maxlen fuel s out len ⟨st, e.ver⟩ =
      some (min maxlen (len + xs.length * size),
        out.put len (gather s.s_blks size s.blkPtr xs)
          (min maxlen (len + xs.length * size) - len), s) := by
  have hsize_pos := e.size_pos
  obtain ⟨fuel, rfl⟩ : ∃ n, fuel = n + 1 := ⟨fuel - 1, by omega⟩
  induction xs generalizing st len fuel out with
  | nil =>
    obtain rfl : st = LIST_END := h
    rw [CncrStr.getLoop, if_neg (by simp), List.length_nil, Nat.zero_mul, Nat.add_zero,
      Nat.min_eq_right hlen, Nat.sub_self, put_zero]
  | cons x xs ih =>
    obtain ⟨rfl, hrest⟩ := h
    have hst := hlive st List.mem_cons_self
    have hne : st ≠ LIST_END := fun h => hend (h ▸ List.mem_cons_self)
    rw [CncrStr.getLoop]
    rcases Nat.eq_or_lt_of_le hlen with rfl | hlt
    · rw [if_neg (by simp), show min len (len + _) = len from Nat.min_eq_left (by omega),
        Nat.sub_self, put_zero]
    obtain ⟨n, hn⟩ : ∃ n, n = min size (maxlen - len) := ⟨_, rfl⟩
    have hpos : 0 < n := by omega
    rw [if_pos ⟨hlt, hne, rfl⟩, hsize, ← hn, readBlock_live hst (if_neg (Nat.ne_of_gt hpos)).symm]
    simp only [Option.bind_some, if_neg (Nat.ne_of_gt hpos), nxtBlock_live hst]
    obtain ⟨fuel, rfl⟩ : ∃ m, fuel = m + 1 := ⟨fuel - 1, by omega⟩
    rw [ih (fun j hj => hlive j (List.mem_cons_of_mem st hj))
      (fun hmem => hend (List.mem_cons_of_mem st hmem)) hrest (by omega) fuel (by omega)]
    have hmin : min maxlen (len + n + xs.length * size) =
        min maxlen (len + (st :: xs).length * size) := by
      rw [List.length_cons, Nat.succ_mul]
      omega
    obtain ⟨k, hk⟩ : ∃ k, k = min maxlen (len + (st :: xs).length * size) - (len + n) := ⟨_, rfl⟩
    have hfull : 0 + n = size ∨ k = 0 := by
      rw [List.length_cons, Nat.succ_mul] at hk
      omega
    have hcopy : (out.put len (s.s_blks.drop (s.blkPtr st + 0)) n).put (len + n)
        (gather s.s_blks size s.blkPtr xs) k = _ := put_gather_cons out (by omega) hfull
    have hlens : n + k = min maxlen (len + (st :: xs).length * size) - len := by
      rw [List.length_cons, Nat.succ_mul] at *
      omega
    rw [hmin, ← hk, hcopy, drop_zero, hlens]

theorem getKeyLoop_live (hsize : s.m_blockSize = size) (hpos : 0 < size)
    (hlive : ∀ i ∈ xs, Live (s.s_bls i) e) (hend : LIST_END ∉ xs)
    (h : Chain (fun i => (s.s_bls i).idx) st (xs ++ i :: ys) LIST_END) (len : ℕ) :
    CncrStr.getKeyLoop e.ver xs.length s out len ⟨st, e.ver⟩ =
      some (true, len + xs.length * size,
        out.put len (gather s.s_blks size s.blkPtr (xs ++ i :: ys)) (xs.length * size),
        ⟨i, e.ver⟩, s) := by
  induction xs generalizing st len out with
  | nil =>
    obtain rfl : st = i := h.1
    rw [List.length_nil, CncrStr.getKeyLoop, Nat.zero_mul, put_zero, Nat.add_zero]
  | cons x xs ih =>
    obtain ⟨rfl, hrest⟩ := h
    have hst := hlive st List.mem_cons_self
    have hne : st ≠ LIST_END := fun h => hend (h ▸ List.mem_cons_self)
    rw [List.length_cons, CncrStr.getKeyLoop, if_pos ⟨hne, rfl⟩]
    rw [readBlock_live hst rfl]
    simp only [if_true, Nat.sub_zero, hsize, Option.bind_some, if_neg (Nat.ne_of_gt hpos),
      nxtBlock_live hst]
    rw [ih (fun j hj => hlive j (List.mem_cons_of_mem st hj))
      (fun hmem => hend (List.mem_cons_of_mem st hmem)) hrest]
    have hcopy : (out.put len (s.s_blks.drop (s.blkPtr st + 0)) size).put (len + size)
        (gather s.s_blks size s.blkPtr (xs ++ i :: ys)) (xs.length * size) = _ :=
      put_gather_cons out (by omega) (.inl (by omega))
    rw [hcopy, drop_zero, Nat.succ_mul, Nat.add_comm size, Nat.add_assoc, Nat.add_comm size]
    rfl

theorem compareLoop_live (hsize : s.m_blockSize = size) (hpos : 0 < size)
    (hlive : ∀ i ∈ xs, Live (s.s_bls i) e) (h : Chain (fun i => (s.s_bls i).idx) st xs LIST_END)
    {curlen fuel : ℕ} (hlen : curlen < xs.length * size) (hfuel : curlen < fuel)
    (curbuf : Buffer) :
    CncrStr.compareLoop e.ver fuel s curbuf curlen st (s.nxtBlock st) =
      some (if agree curbuf (gather s.s_blks size s.blkPtr xs) curlen then .MATCH_TRUE
        else .MATCH_FALSE, s) := by
  obtain ⟨fuel, rfl⟩ : ∃ n, fuel = n + 1 := ⟨fuel - 1, by omega⟩
  induction xs generalizing st curlen fuel curbuf with
  | nil =>
    rw [List.length_nil] at hlen
    omega
  | cons x xs ih =>
    obtain ⟨rfl, hrest⟩ := h
    have hst := hlive st List.mem_cons_self
    rw [CncrStr.compareLoop]
    simp only [hsize]
    have hfirst : ∀ j < size,
        s.s_blks.drop (s.blkPtr st) j = gather s.s_blks size s.blkPtr (st :: xs) j := by
      intro j hj
      rw [gather_cons_lt hj, Buffer.drop]
    by_cases hlast : curlen < size
    · rw [if_pos hlast, memcmpBlk_live hst, agree_congr fun j hj => hfirst j (by omega)]
    · rw [if_neg hlast, memcmpBlk_live hst, agree_congr hfirst, Option.bind_some]
      obtain ⟨k, rfl⟩ : ∃ k, curlen = size + k := ⟨curlen - size, by omega⟩
      rw [agree_add, drop_gather_cons]
      by_cases hblock : agree curbuf (gather s.s_blks size s.blkPtr (st :: xs)) size
      · rw [List.length_cons, Nat.succ_mul] at hlen
        have hnext : ∀ j ∈ xs, Live (s.s_bls j) e := fun j hj =>
          hlive j (List.mem_cons_of_mem st hj)
        obtain ⟨fuel, rfl⟩ : ∃ n, fuel = n + 1 := ⟨fuel - 1, by omega⟩
        have hrec : CncrStr.compareLoop e.ver (fuel + 1) s (curbuf.drop size) k (s.s_bls st).idx
            (s.nxtBlock (s.s_bls st).idx) = _ :=
          ih hnext hrest (by omega) (curbuf.drop size) fuel (by omega)
        have hmem : (s.s_bls st).idx ∈ xs :=
          chain_mem hrest (by rintro rfl; rw [List.length_nil] at hlen; omega)
        rw [if_pos hblock, if_neg (not_not.mpr rfl)]
        simp only [show (s.nxtBlock st).idx = (s.s_bls st).idx from rfl,
          show (s.nxtBlock (s.s_bls st).idx).version = e.ver from (hnext _ hmem).version,
          ne_eq, not_true_eq_false, if_false, Nat.add_sub_cancel_left]
        rw [hrec, hblock, Bool.true_and]
      · simp [hblock]

end Loops

theorem Entry.div_lt (e : Entry size) : e.key.length / size < e.blocks.length := by
  have hpos := e.fits.value_pos
  have henough : e.key.length + e.value.length ≤ e.blocks.length * size := e.enough
  rw [Nat.div_lt_iff_lt_mul e.size_pos]
  omega

theorem Entry.split (e : Entry size) :
    ∃ xs y ys, e.blocks = xs ++ y :: ys ∧ xs.length = e.key.length / size ∧
      (e.value.length < size - e.key.length % size → ys = []) := by
  have hlt := e.div_lt
  refine ⟨e.blocks.take (e.key.length / size), e.blocks[e.key.length / size],
    e.blocks.drop (e.key.length / size + 1), ?_, ?_, fun hvalue => ?_⟩
  · rw [List.getElem_cons_drop, List.take_append_drop]
  · rw [List.length_take, Nat.min_eq_left (by omega)]
  · rw [List.drop_eq_nil_iff, Entry.blocks, List.length_append, List.length_singleton]
    refine Nat.succ_le_succ (Nat.le_of_lt_succ ?_)
    refine Nat.lt_of_mul_lt_mul_right (lt_of_lt_of_le e.needed ?_) (a := size)
    have hdiv := Nat.div_add_mod e.key.length size
    rw [Nat.mul_comm] at hdiv
    rw [Nat.succ_mul]
    omega

theorem sub32_add (a b : ℕ) (h : a + b < 2 ^ 32) : CncrStr.sub32 (a + b) a = b := by
  rw [CncrStr.sub32, show a + b + 2 ^ 32 - a = b + 2 ^ 32 by omega, Nat.add_mod_right,
    Nat.mod_eq_of_lt (by omega)]

theorem len_held (h : Holds s st e) :
    s.len st e.ver = (e.key.length + e.value.length, some e.value.length) := by
  have hst := h.live st h.st_mem
  have hpos := e.fits.value_pos
  rw [CncrStr.len]
  simp only [hst.version, hst.len, h.klen, true_and]
  rw [if_pos (by omega), sub32_add _ _ e.fits.length_lt]

section Reading
variable (h : Holds s st e)
include h

theorem Holds.live_read {j : BitVec 32} (hj : j ∈ e.blocks) : Live ((s.read st).s_bls j) e :=
  (h.live j hj).read (h.idle st h.st_mem)

theorem Holds.chain_read : Chain (fun i => ((s.read st).s_bls i).idx) st e.blocks LIST_END :=
  (chain_congr fun i _ => (read_same i).1).mpr h.chain

theorem Holds.st_ne : st ≠ LIST_END := fun heq => h.notEnd (heq ▸ h.st_mem)

theorem get_held (out : Buffer) {maxlen : ℕ} (hmax : e.value.length ≤ maxlen) :
    ∃ n, e.value.length ≤ n ∧ n ≤ maxlen ∧ s.get st e.ver out maxlen =
      some ((n, out.put 0 ((gather s.s_blks size (ptr size) e.blocks).drop e.key.length) n,
        some n), s) := by
  obtain ⟨xs, y, ys, hblocks, hxs, hlast⟩ := e.split
  have hpos := e.fits.value_pos
  have hsize_pos := e.size_pos
  have hrem := Nat.mod_lt e.key.length hsize_pos
  have hdiv := Nat.div_add_mod e.key.length size
  rw [Nat.mul_comm] at hdiv
  have henough : e.key.length + e.value.length ≤ e.blocks.length * size := e.enough
  have hst := h.live st h.st_mem
  have hchain := h.chain_read
  rw [hblocks] at hchain
  have hlive : ∀ i ∈ xs ++ y :: ys, Live ((s.read st).s_bls i) e :=
    fun i hi => h.live_read (hblocks ▸ hi)
  obtain ⟨c, _, hrest⟩ := chain_append.mp hchain
  obtain ⟨n, hn⟩ : ∃ n, n = min (size - e.key.length % size) e.value.length := ⟨_, rfl⟩
  have hy := hlive y (by simp)
  have hsize : (s.read st).m_blockSize = size := h.size_eq
  refine ⟨min maxlen (n + ys.length * size), ?_, Nat.min_le_left _ _, ?_⟩
  · rw [hblocks, List.length_append, List.length_cons, hxs, Nat.add_mul, Nat.succ_mul] at henough
    omega
  rw [CncrStr.get, if_neg h.st_ne, incReaders_live hst]
  simp only [(read_same st).2.2.1, (read_same st).2.2.2.1, hst.len, h.klen,
    sub32_add _ _ e.fits.length_lt, hsize]
  rw [if_neg (by omega), ← hxs, skipKey_live (fun i hi => hlive i (by simp [hi])) hchain]
  simp only
  rw [readBlock_live hy (if_neg (by omega)).symm, ← hn]
  simp only [Option.bind_some, nxtBlock_live hy, ne_eq, not_true_eq_false, if_false]
  rw [getLoop_live hsize (fun i hi => hlive i (by simp [hi]))
    (fun hmem => h.notEnd (hblocks ▸ by simp [hmem])) hrest.2 (by omega) (by omega)]
  simp only [Option.bind_some, decReaders_live hst, Option.map_some]
  obtain ⟨k, hk⟩ : ∃ k, k = min maxlen (n + ys.length * size) - n := ⟨_, rfl⟩
  have hlens : n + k = min maxlen (n + ys.length * size) := by omega
  have hfull : e.key.length % size + n = size ∨ k = 0 := by
    by_cases hfill : n = size - e.key.length % size
    · exact .inl (by omega)
    · rw [hk, hlast (by omega), List.length_nil]
      omega
  have hcopy : (out.put 0 (s.s_blks.drop (ptr size y + e.key.length % size)) n).put (0 + n)
      (gather s.s_blks size (ptr size) ys) k = _ := put_gather_cons out (by omega) hfull
  rw [Nat.zero_add, hlens] at hcopy
  have hdrop : (gather s.s_blks size (ptr size) e.blocks).drop e.key.length =
      (gather s.s_blks size (ptr size) (y :: ys)).drop (e.key.length % size) :=
    calc
      _ = (gather s.s_blks size (ptr size) e.blocks).drop
          (xs.length * size + e.key.length % size) := by rw [hxs, hdiv]
      _ = _ := by rw [← drop_drop, hblocks, drop_gather_append]
  rw [hdrop, ← hcopy, ← h.blkPtr, ← hk]
  rfl

theorem Holds.key_bytes {j : ℕ} (hj : j < e.key.length) :
    gather s.s_blks size (ptr size) e.blocks j = bytesOf e.key j := by
  rw [h.bytes j (by omega), bytesOf_append_lt hj]

theorem Holds.value_bytes {j : ℕ} (hj : j < e.value.length) :
    Buffer.drop (gather s.s_blks size (ptr size) e.blocks) e.key.length j = bytesOf e.value j := by
  rw [Buffer.drop, h.bytes _ (by omega)]
  exact congrFun (drop_bytesOf_append e.key e.value) j

theorem get_value : s.get st e.ver out e.value.length =
    some ((e.value.length, out.put 0 (bytesOf e.value) e.value.length, some e.value.length),
      s) := by
  obtain ⟨n, hle, hge, hget⟩ := get_held h out (le_refl e.value.length)
  obtain rfl : n = e.value.length := by omega
  rw [hget, put_congr out 0 fun j hj => h.value_bytes hj]

theorem getKey_held {maxlen : ℕ} (hmax : e.key.length ≤ maxlen) :
    s.getKey st e.ver out maxlen =
      some ((e.key.length, out.put 0 (bytesOf e.key) e.key.length), s) := by
  obtain ⟨xs, y, ys, hblocks, hxs, _⟩ := e.split
  have hpos := e.fits.value_pos
  have hsize_pos := e.size_pos
  have hjagged := e.fits.jagged
  have hrem := Nat.mod_lt e.key.length hsize_pos
  have hdiv := Nat.div_add_mod e.key.length size
  rw [Nat.mul_comm] at hdiv
  have hst := h.live st h.st_mem
  have hchain := h.chain_read
  rw [hblocks] at hchain
  have hlive : ∀ i ∈ xs ++ y :: ys, Live ((s.read st).s_bls i) e :=
    fun i hi => h.live_read (hblocks ▸ hi)
  have hy := hlive y (by simp)
  have hsize : (s.read st).m_blockSize = size := h.size_eq
  rw [CncrStr.getKey, if_neg h.st_ne, incReaders_live hst]
  simp only [(read_same st).2.2.1, (read_same st).2.2.2.1, hst.len, h.klen, hsize]
  rw [if_neg (by omega), ← hxs, getKeyLoop_live hsize hsize_pos
    (fun i hi => hlive i (by simp [hi])) (fun hmem => h.notEnd (hblocks ▸ by simp [hmem])) hchain]
  simp only [Option.bind_some, if_true, hsize]
  rw [readBlock_live hy (if_neg hjagged).symm]
  simp only [Option.bind_some, decReaders_live hst, Option.map_some, Nat.zero_add]
  have hread : (out.put 0 (gather s.s_blks size (ptr size) e.blocks) (xs.length * size)).put
      (0 + xs.length * size) (s.s_blks.drop (ptr size y)) (e.key.length % size) =
      out.put 0 (bytesOf e.key) e.key.length := by
    have hlast : ∀ j < e.key.length % size, s.s_blks.drop (ptr size y) j =
        Buffer.drop (gather s.s_blks size (ptr size) e.blocks) (xs.length * size) j := by
      intro j hj
      rw [hblocks, drop_gather_append, gather_cons_lt (by omega), Buffer.drop]
    rw [put_congr _ _ hlast, put_append, hxs, hdiv, put_congr out 0 fun j hj => h.key_bytes hj]
  rw [Nat.zero_add] at hread
  rw [hxs, hdiv, ← hread, ← hblocks, ← hxs, ← h.blkPtr]
  rfl

theorem compare_held (key : List (BitVec 8)) (hash : BitVec 32) :
    s.compare st e.ver (bytesOf key) key.length hash =
      some (if e.hash = hash ∧ e.key = key then .MATCH_TRUE else .MATCH_FALSE, s) := by
  have hst := h.live st h.st_mem
  have hpos := e.fits.value_pos
  have henough : e.key.length + e.value.length ≤ e.blocks.length * size := e.enough
  rw [CncrStr.compare]
  simp only [h.hash, h.klen, nxtBlock_live hst, ne_eq, not_true_eq_false, if_false]
  by_cases hhash : e.hash = hash
  · rw [if_neg (not_not.mpr hhash)]
    by_cases hlen : e.key.length = key.length
    · rw [if_neg (not_not.mpr hlen)]
      have hloop := compareLoop_live h.size_eq e.size_pos h.live h.chain
        (show key.length < e.blocks.length * size by omega) (Nat.lt_succ_self _) (bytesOf key)
      rw [nxtBlock_live hst] at hloop
      rw [hloop, h.blkPtr, agree_congr fun j hj => h.key_bytes (hlen ▸ hj)]
      simp only [agree_bytesOf hlen.symm, hhash, true_and, eq_comm]
    · rw [if_pos hlen, if_neg fun heq => hlen (by rw [heq.2])]
  · rw [if_pos hhash, if_neg fun heq => hhash heq.1]

end Reading
end NvdlaVp.Simdb
