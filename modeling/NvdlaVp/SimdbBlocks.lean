import NvdlaVp.BlockBytes
import NvdlaVp.SimdbFreeList

set_option autoImplicit false

/-!
# `CncrStr`, one call at a time

A key and its value lie one after the other in a list of blocks. `none` stands for a call
that does not return: `findEndSetVersion` runs through the links until it finds an end.
-/
namespace NvdlaVp.Simdb
open ByteMemory BlockBytes

structure VerIdx where
  idx : BitVec 32
  version : BitVec 32
  deriving DecidableEq, Repr

structure KeyReaders where
  isKey : Bool
  isDeleted : Bool
  readers : BitVec 30
  deriving DecidableEq, Repr

structure BlkLst where
  kr : KeyReaders
  idx : BitVec 32
  version : BitVec 32
  len : ℕ
  klen : ℕ
  hash : BitVec 32
  deriving DecidableEq, Repr

inductive Match where
  | MATCH_FALSE
  | MATCH_TRUE
  | MATCH_REMOVED
  deriving DecidableEq, Repr

def BlkLst.new (idx version : BitVec 32) (len : ℕ) : BlkLst :=
  ⟨⟨false, false, 0⟩, idx, version, len, 0, 0⟩

def BlkLst.none : BlkLst := .new 0 0 0

structure CncrStr where
  s_cl : CncrLst
  s_bls : BitVec 32 → BlkLst
  s_blks : Buffer
  s_version : BitVec 64
  m_blockSize : ℕ

def List_End : VerIdx := ⟨LIST_END, 0⟩

namespace CncrStr

def new (blockSize blockCount : ℕ) (bytes : Buffer) : CncrStr where
  s_cl := .new blockCount
  s_bls _ := .none
  s_blks := bytes
  s_version := 1
  m_blockSize := blockSize

def setBlk (s : CncrStr) (blkIdx : BitVec 32) (bl : BlkLst) : CncrStr :=
  { s with s_bls := Function.update s.s_bls blkIdx bl }

def setKr (s : CncrStr) (blkIdx : BitVec 32) (kr : KeyReaders) : CncrStr :=
  s.setBlk blkIdx { s.s_bls blkIdx with kr := kr }

def incReaders (s : CncrStr) (blkIdx version : BitVec 32) : BlkLst × CncrStr :=
  let bl := s.s_bls blkIdx
  if bl.version ≠ version ∨ bl.kr.readers.msb ∨ bl.kr.isDeleted then (.none, s)
  else
    let s' := s.setKr blkIdx { bl.kr with readers := bl.kr.readers + 1 }
    (s'.s_bls blkIdx, s')

def nxtBlock (s : CncrStr) (blkIdx : BitVec 32) : VerIdx :=
  ⟨(s.s_bls blkIdx).idx, (s.s_bls blkIdx).version⟩

def blkPtr (s : CncrStr) (blkIdx : BitVec 32) : ℕ := blkIdx.toNat * s.m_blockSize % 2 ^ 32

def blocksNeeded (s : CncrStr) (len : ℕ) : ℕ :=
  len / s.m_blockSize + if len % s.m_blockSize = 0 then 0 else 1

/-- The loop of `findEndSetVersion`. More steps than there are indices never end. -/
def findEnd (version : BitVec 32) :
    ℕ → (BitVec 32 → BlkLst) → (cur prev : BitVec 32) → Option (BitVec 32 × (BitVec 32 → BlkLst))
  | 0, _, _, _ => Option.none
  | fuel + 1, bls, cur, prev =>
    if cur = LIST_END then some (prev, bls)
    else
      let bls' := Function.update bls prev { bls prev with version := version }
      findEnd version fuel bls' (bls' cur).idx cur

def findEndSetVersion (s : CncrStr) (blkIdx version : BitVec 32) :
    Option (BitVec 32 × (BitVec 32 → BlkLst)) :=
  findEnd version (2 ^ 32) s.s_bls blkIdx blkIdx

def doFree (s : CncrStr) (blkIdx : BitVec 32) : Option CncrStr :=
  (s.findEndSetVersion blkIdx 0).map fun r =>
    { s with s_bls := r.2, s_cl := s.s_cl.free blkIdx r.1 }

def decReadersOrDel (s : CncrStr) (blkIdx version : BitVec 32) (del : Bool) :
    Option (Bool × CncrStr) :=
  let bl := s.s_bls blkIdx
  if bl.version ≠ version then some (false, s)
  else
    let doDelete := if del then bl.kr.readers = 0 ∧ !bl.kr.isDeleted
      else bl.kr.readers = 1 ∧ bl.kr.isDeleted
    let nxt := if del then { bl.kr with isDeleted := true }
      else { bl.kr with readers := bl.kr.readers - 1 }
    let s' := s.setKr blkIdx nxt
    if doDelete then (s'.doFree blkIdx).map fun u => (false, u) else some (true, s')

def writeBlock (s : CncrStr) (blkIdx : BitVec 32) (bytes : Buffer) (len ofst : ℕ) :
    ℕ × CncrStr :=
  let cpyLen := if len = 0 then s.m_blockSize else len
  (cpyLen, { s with s_blks := s.s_blks.put (s.blkPtr blkIdx + ofst) bytes cpyLen })

/-- `b` is where the bytes go in the buffer of the caller. -/
def readBlock (s : CncrStr) (blkIdx version : BitVec 32) (out : Buffer) (b ofst len : ℕ) :
    Option (ℕ × Buffer × CncrStr) :=
  let (bl, s') := s.incReaders blkIdx version
  if bl.version = 0 then some (0, out, s')
  else
    let cpyLen := if len = 0 then s.m_blockSize - ofst else len
    let out' := out.put b (s'.s_blks.drop (s'.blkPtr blkIdx + ofst)) cpyLen
    (s'.decReadersOrDel blkIdx version false).map fun r => (cpyLen, out', r.2)

def free (s : CncrStr) (blkIdx version : BitVec 32) : Option (Bool × CncrStr) :=
  s.decReadersOrDel blkIdx version true

/-- The loop of `alloc`, with the last block, or none if there are not enough of them. -/
def allocLoop (size : ℕ) (ver : BitVec 32) : ℕ → CncrStr → BitVec 32 → Option (BitVec 32) × CncrStr
  | 0, s, cur => (some cur, s)
  | n + 1, s, cur =>
    let (nxt, l) := s.s_cl.nxt
    if nxt = LIST_END then (Option.none, { s with s_cl := l })
    else allocLoop size ver n ({ s with s_cl := l }.setBlk cur (.new nxt ver size)) nxt

def alloc (s : CncrStr) (size klen : ℕ) (hash : BitVec 32) : Option (VerIdx × CncrStr) :=
  let blocks := s.blocksNeeded size
  let (st, l) := s.s_cl.nxt
  let s := { s with s_cl := l }
  if st = LIST_END then some (List_End, s)
  else
    let ver := s.s_version.setWidth 32
    let s := { s with s_version := s.s_version + 1 }
    -- `blocks - 1` of no blocks is the greatest `u32`
    match allocLoop size ver (if blocks = 0 then 2 ^ 32 - 1 else blocks - 1) s st with
    | (Option.none, s) => (s.free st ver).map fun r => (List_End, r.2)
    | (some cur, s) =>
      let s := s.setBlk cur (.new LIST_END ver size)
      let bl := s.s_bls st
      let kr := { bl.kr with isKey := true, isDeleted := false }
      some (⟨st, ver⟩, s.setBlk st { bl with kr := kr, hash := hash, len := size, klen := klen })

/-- Whole blocks of `b`: the state, the next block and what is left of `b`. -/
def putBlocks : ℕ → CncrStr → BitVec 32 → Buffer → CncrStr × BitVec 32 × Buffer
  | 0, s, cur, b => (s, cur, b)
  | n + 1, s, cur, b =>
    let (cpyLen, s) := s.writeBlock cur b 0 0
    putBlocks n s (s.nxtBlock cur).idx (b.drop cpyLen)

def put (s : CncrStr) (blkIdx : BitVec 32) (kbytes : Buffer) (klen : ℕ) (vbytes : Buffer)
    (vlen : ℕ) : CncrStr :=
  let size := s.m_blockSize
  let kjagged := klen % size ≠ 0
  let kblocks := if kjagged then s.blocksNeeded klen - 1 else s.blocksNeeded klen
  let remklen := klen - kblocks * size
  let fillvlen := min vlen (size - remklen)
  let tailvlen := vlen - fillvlen
  let vjagged := tailvlen % size ≠ 0
  let vblocks := if vjagged then s.blocksNeeded tailvlen - 1 else s.blocksNeeded tailvlen
  let remvlen := tailvlen - vblocks * size
  let (s, cur, b) := putBlocks kblocks s blkIdx kbytes
  let (s, cur, b) :=
    if kjagged then
      let s := (s.writeBlock cur b remklen 0).2
      let (cpyLen, s) := s.writeBlock cur vbytes fillvlen remklen
      (s, (s.nxtBlock cur).idx, vbytes.drop cpyLen)
    else (s, cur, b)
  let (s, cur, b) := putBlocks vblocks s cur b
  if vjagged ∧ 0 < remvlen then (s.writeBlock cur b remvlen 0).2 else s

def skipKey (s : CncrStr) (version : BitVec 32) : ℕ → BitVec 32 → Option (BitVec 32)
  | 0, cur => some cur
  | n + 1, cur =>
    if (s.nxtBlock cur).version ≠ version then Option.none
    else skipKey s version n (s.nxtBlock cur).idx

/-- The loop of `get`. Each turn but the last reads a byte or more. -/
def getLoop (version : BitVec 32) (maxlen : ℕ) :
    ℕ → CncrStr → Buffer → ℕ → VerIdx → Option (ℕ × Buffer × CncrStr)
  | 0, _, _, _, _ => Option.none
  | fuel + 1, s, out, len, nxt =>
    if len < maxlen ∧ nxt.idx ≠ LIST_END ∧ nxt.version = version then
      (s.readBlock nxt.idx version out len 0 (min s.m_blockSize (maxlen - len))).bind fun r =>
        if r.1 = 0 then some (len, r.2.1, r.2.2)
        else getLoop version maxlen fuel r.2.2 r.2.1 (len + r.1) (r.2.2.nxtBlock nxt.idx)
    else some (len, out, s)

def sub32 (a b : ℕ) : ℕ := (a + 2 ^ 32 - b) % 2 ^ 32

/-- The length read, the buffer of the caller and, if it is written, `out_readlen`. -/
def get (s : CncrStr) (blkIdx version : BitVec 32) (out : Buffer) (maxlen : ℕ) :
    Option ((ℕ × Buffer × Option ℕ) × CncrStr) :=
  if blkIdx = LIST_END then some ((0, out, Option.none), s)
  else
    let (bl, s) := s.incReaders blkIdx version
    let vlen := sub32 bl.len bl.klen
    if bl.len = 0 ∨ maxlen < vlen then some ((0, out, Option.none), s)
    else
      let close := fun (s : CncrStr) (len : ℕ) (out : Buffer) (readlen : Option ℕ) =>
        (s.decReadersOrDel blkIdx version false).map fun r => ((len, out, readlen), r.2)
      let krem := bl.klen % s.m_blockSize
      match s.skipKey version (bl.klen / s.m_blockSize) blkIdx with
      | Option.none => close s 0 out Option.none
      | some cur =>
        (s.readBlock cur version out 0 krem (min (s.m_blockSize - krem) vlen)).bind fun r =>
          let nxt := r.2.2.nxtBlock cur
          if nxt.version ≠ version then close r.2.2 r.1 r.2.1 Option.none
          else
            (getLoop version maxlen (maxlen + 1) r.2.2 r.2.1 r.1 nxt).bind fun r =>
              close r.2.2 r.1 r.2.1 (some r.1)

/-- The loop of `getKey`: where it stops short of `n` blocks the rest is not read. -/
def getKeyLoop (version : BitVec 32) :
    ℕ → CncrStr → Buffer → ℕ → VerIdx → Option (Bool × ℕ × Buffer × VerIdx × CncrStr)
  | 0, s, out, len, vi => some (true, len, out, vi, s)
  | n + 1, s, out, len, vi =>
    if vi.idx ≠ LIST_END ∧ vi.version = version then
      (s.readBlock vi.idx version out len 0 0).bind fun r =>
        if r.1 = 0 then some (false, len, r.2.1, vi, r.2.2)
        else getKeyLoop version n r.2.2 r.2.1 (len + r.1) (r.2.2.nxtBlock vi.idx)
    else some (true, len, out, vi, s)

def getKey (s : CncrStr) (blkIdx version : BitVec 32) (out : Buffer) (maxlen : ℕ) :
    Option ((ℕ × Buffer) × CncrStr) :=
  if blkIdx = LIST_END then some ((0, out), s)
  else
    let (bl, s) := s.incReaders blkIdx version
    if bl.len = 0 ∨ maxlen < bl.klen then some ((0, out), s)
    else
      let close := fun (s : CncrStr) (len : ℕ) (out : Buffer) =>
        (s.decReadersOrDel blkIdx version false).map fun r => ((len, out), r.2)
      (getKeyLoop version (bl.klen / s.m_blockSize) s out 0 ⟨blkIdx, version⟩).bind fun r =>
        let (whole, len, out, vi, s) := r
        if whole then
          (s.readBlock vi.idx version out len 0 (bl.klen % s.m_blockSize)).bind fun r =>
            close r.2.2 (len + r.1) r.2.1
        else close s len out

def memcmpBlk (s : CncrStr) (blkIdx version : BitVec 32) (buf1 buf2 : Buffer) (len : ℕ) :
    Option (Match × CncrStr) :=
  let (bl, s) := s.incReaders blkIdx version
  if bl.len = 0 then some (.MATCH_REMOVED, s)
  else
    let ret := agree buf1 buf2 len
    (s.decReadersOrDel blkIdx version false).map fun r =>
      (if !r.1 then .MATCH_REMOVED else if ret then .MATCH_TRUE else .MATCH_FALSE, r.2)

/-- The loop of `compare`, which takes a block of the key off `curlen` at each turn. -/
def compareLoop (version : BitVec 32) :
    ℕ → CncrStr → Buffer → ℕ → BitVec 32 → VerIdx → Option (Match × CncrStr)
  | 0, _, _, _, _, _ => Option.none
  | fuel + 1, s, curbuf, curlen, curidx, nxt =>
    let blksz := s.m_blockSize
    let p := s.s_blks.drop (s.blkPtr curidx)
    if blksz > curlen then s.memcmpBlk curidx version curbuf p curlen
    else
      (s.memcmpBlk curidx version curbuf p blksz).bind fun r =>
        if r.1 ≠ .MATCH_TRUE then some r
        else
          let after := r.2.nxtBlock nxt.idx
          if after.version ≠ version then some (.MATCH_FALSE, r.2)
          else compareLoop version fuel r.2 (curbuf.drop blksz) (curlen - blksz) nxt.idx after

def compare (s : CncrStr) (blkIdx version : BitVec 32) (buf : Buffer) (len : ℕ)
    (hash : BitVec 32) : Option (Match × CncrStr) :=
  let bl := s.s_bls blkIdx
  if bl.hash ≠ hash then some (.MATCH_FALSE, s)
  else if (s.nxtBlock blkIdx).version ≠ version then some (.MATCH_FALSE, s)
  else if bl.klen ≠ len then some (.MATCH_FALSE, s)
  else compareLoop version (len + 1) s buf len blkIdx (s.nxtBlock blkIdx)

/-- The whole length and, if it is written, `out_vlen`. -/
def len (s : CncrStr) (blkIdx version : BitVec 32) : ℕ × Option ℕ :=
  let bl := s.s_bls blkIdx
  if version = bl.version ∧ 0 < bl.len then (bl.len, some (sub32 bl.len bl.klen))
  else (0, Option.none)

end CncrStr
end NvdlaVp.Simdb
