import NvdlaVp.SimdbBlocks

set_option autoImplicit false

/-!
# `CncrHsh`, one call at a time

A slot is a word of 64 bits with an index and a version, which are swapped in the odd slots.
`none` stands for a call that does not return.
-/
namespace NvdlaVp.Simdb
open ByteMemory BlockBytes

def fnv_64a_buf (buf : List (BitVec 8)) : BitVec 64 :=
  buf.foldl (fun hval octet =>
    let hval := hval ^^^ octet.setWidth 64
    hval + (hval <<< 1 + hval <<< 4 + hval <<< 5 + hval <<< 7 + hval <<< 8 + hval <<< 40))
    0xCBF29CE484222325

def HashBytes (buf : List (BitVec 8)) : BitVec 32 :=
  let hsh := fnv_64a_buf buf
  (hsh >>> 32 ^^^ (hsh.setWidth 32).setWidth 64).setWidth 32

def EMPTY : BitVec 32 := 0xFFFFFFFF
def DELETED : BitVec 32 := 0xFFFFFFFE

def empty_vi : VerIdx := ⟨EMPTY, 0⟩
def deleted_vi : VerIdx := ⟨DELETED, 0⟩

/-- The bytes of the structure as one number. -/
def VerIdx.asInt (vi : VerIdx) : BitVec 64 := vi.version ++ vi.idx

def lo32 (n : BitVec 64) : BitVec 32 := (n >>> 32).setWidth 32
def hi32 (n : BitVec 64) : BitVec 32 := n.setWidth 32
def swp32 (n : BitVec 64) : BitVec 64 := hi32 n ++ lo32 n

def nextPowerOf2 (v : BitVec 32) : BitVec 32 :=
  let v := v - 1
  let v := v ||| v >>> 1
  let v := v ||| v >>> 2
  let v := v ||| v >>> 4
  let v := v ||| v >>> 8
  let v := v ||| v >>> 16
  v + 1

structure CncrHsh where
  m_sz : ℕ
  s_vis : ℕ → BitVec 64
  m_csp : CncrStr

namespace CncrHsh

/-- The constructor, with `init` where this is the owner of the memory. -/
def new (size : BitVec 32) (cs : CncrStr) (memory : ℕ → BitVec 64) (owner : Bool) : CncrHsh :=
  if owner then
    { m_sz := size.toNat
      s_vis := fun i =>
        if i < size.toNat then
          if i % 2 = 0 then (VerIdx.mk EMPTY 0).asInt else (VerIdx.mk 0 EMPTY).asInt
        else memory i
      m_csp := cs }
  else { m_sz := (nextPowerOf2 size).toNat, s_vis := memory, m_csp := cs }

def nxtIdx (h : CncrHsh) (i : ℕ) : ℕ := (i + 1) % h.m_sz

/-- The index before the first wraps around before the minimum is taken. -/
def prevIdx (h : CncrHsh) (i : ℕ) : ℕ := min ((i + 2 ^ 32 - 1) % 2 ^ 32) (h.m_sz - 1)

def load (h : CncrHsh) (i : ℕ) : VerIdx :=
  let cur := swp32 (h.s_vis i)
  if i % 2 = 1 then ⟨hi32 cur, lo32 cur⟩ else ⟨lo32 cur, hi32 cur⟩

def cmpex_vi (h : CncrHsh) (i : ℕ) (expected desired : VerIdx) : Bool × CncrHsh :=
  let exp := if i % 2 = 1 then swp32 expected.asInt else expected.asInt
  let desi := if i % 2 = 1 then swp32 desired.asInt else desired.asInt
  if h.s_vis i = exp then (true, { h with s_vis := Function.update h.s_vis i desi })
  else (false, h)

def putLoop (hash : BitVec 32) (desired : VerIdx) (key : List (BitVec 8)) (en : ℕ) :
    ℕ → CncrHsh → ℕ → Option (VerIdx × CncrHsh)
  | 0, _, _ => none
  | fuel + 1, h, i =>
    let vi := h.load i
    if DELETED ≤ vi.idx then
      let (success, h) := h.cmpex_vi i vi desired
      if success then some (vi, h)
      else putLoop hash desired key en fuel h (h.nxtIdx (h.prevIdx i))
    else
      (h.m_csp.compare vi.idx vi.version (bytesOf key) key.length hash).bind fun r =>
        let h := { h with m_csp := r.2 }
        if r.1 ≠ .MATCH_TRUE then
          if i = en then some (empty_vi, h)
          else putLoop hash desired key en fuel h (h.nxtIdx i)
        else
          let (success, h) := h.cmpex_vi i vi desired
          if success then some (vi, h)
          else putLoop hash desired key en fuel h (h.nxtIdx (h.prevIdx i))

/-- Without other calls each turn is another slot. -/
def putHashed (h : CncrHsh) (hash : BitVec 32) (lstVi : VerIdx) (key : List (BitVec 8)) :
    Option (VerIdx × CncrHsh) :=
  let i := hash.toNat % h.m_sz
  putLoop hash lstVi key (h.prevIdx i) h.m_sz h i

/-- The loop of `runMatch` and of `len`, with the entry that matches. -/
def matchLoop (hash : BitVec 32) (key : List (BitVec 8)) (en : ℕ) :
    ℕ → CncrHsh → ℕ → Option (Option VerIdx × CncrHsh)
  | 0, _, _ => none
  | fuel + 1, h, i =>
    let vi := h.load i
    let next := fun h : CncrHsh =>
      if i = en then some (none, h) else matchLoop hash key en fuel h (h.nxtIdx i)
    if vi.idx ≠ EMPTY ∧ vi.idx ≠ DELETED then
      (h.m_csp.compare vi.idx vi.version (bytesOf key) key.length hash).bind fun r =>
        let h := { h with m_csp := r.2 }
        if r.1 = .MATCH_TRUE then some (some vi, h) else next h
    else next h

def runMatch (h : CncrHsh) (key : List (BitVec 8)) (hash : BitVec 32) :
    Option (Option VerIdx × CncrHsh) :=
  let i := hash.toNat % h.m_sz
  matchLoop hash key (h.prevIdx i) h.m_sz h i

def delLoop (hash : BitVec 32) (key : List (BitVec 8)) (en : ℕ) :
    ℕ → CncrHsh → ℕ → Option (VerIdx × CncrHsh)
  | 0, _, _ => none
  | fuel + 1, h, i =>
    if i = en then some (empty_vi, h)
    else
      let vi := h.load i
      if DELETED ≤ vi.idx then delLoop hash key en fuel h (h.nxtIdx i)
      else
        (h.m_csp.compare vi.idx vi.version (bytesOf key) key.length hash).bind fun r =>
          let h := { h with m_csp := r.2 }
          if r.1 = .MATCH_TRUE then
            let (success, h) := h.cmpex_vi i vi deleted_vi
            if success then some (vi, h)
            else delLoop hash key en fuel h (h.nxtIdx (h.prevIdx i))
          else if r.1 = .MATCH_REMOVED ∨ i = en then some (empty_vi, h)
          else delLoop hash key en fuel h (h.nxtIdx i)

def delHashed (h : CncrHsh) (key : List (BitVec 8)) (hash : BitVec 32) :
    Option (VerIdx × CncrHsh) :=
  let i := hash.toNat % h.m_sz
  delLoop hash key (h.prevIdx i) h.m_sz h i

/-- The whole length and, where they are written, `out_vlen` and `out_version`. -/
def len (h : CncrHsh) (key : List (BitVec 8)) :
    Option ((ℕ × Option ℕ × Option (BitVec 32)) × CncrHsh) :=
  if key.length < 1 then some ((0, none, none), h)
  else
    (h.runMatch key (HashBytes key)).map fun r =>
      match r.1 with
      | none => ((0, none, none), r.2)
      | some vi =>
        let l := r.2.m_csp.len vi.idx vi.version
        ((l.1, l.2, some vi.version), r.2)

/-- Whether there is an entry, the buffer of the caller and, if written, `out_readlen`. -/
def get (h : CncrHsh) (key : List (BitVec 8)) (out_val : Buffer) (vlen : ℕ) :
    Option ((Bool × Buffer × Option ℕ) × CncrHsh) :=
  if key.length < 1 then some ((false, out_val, none), h)
  else
    (h.runMatch key (HashBytes key)).bind fun r =>
      match r.1 with
      | none => some ((false, out_val, none), r.2)
      | some vi =>
        (r.2.m_csp.get vi.idx vi.version out_val vlen).map fun g =>
          ((true, g.1.2.1, g.1.2.2), { r.2 with m_csp := g.2 })

/-- An entry taken out of a slot is freed by the call that has taken it out. -/
def retire (h : CncrHsh) (vi : VerIdx) : Option CncrHsh :=
  if vi.idx < DELETED then
    (h.m_csp.free vi.idx vi.version).map fun r => { h with m_csp := r.2 }
  else some h

def put (h : CncrHsh) (key value : List (BitVec 8)) : Option (Bool × CncrHsh) :=
  let hash := HashBytes key
  (h.m_csp.alloc ((key.length + value.length) % 2 ^ 32) key.length hash).bind fun r =>
    let h := { h with m_csp := r.2 }
    if r.1.idx = LIST_END then some (false, h)
    else
      let cs := h.m_csp.put r.1.idx (bytesOf key) key.length (bytesOf value) value.length
      let h := { h with m_csp := cs }
      (h.putHashed hash r.1 key).bind fun r => (r.2.retire r.1).map fun h => (true, h)

def del (h : CncrHsh) (key : List (BitVec 8)) : Option (Bool × CncrHsh) :=
  (h.delHashed key (HashBytes key)).bind fun r =>
    (r.2.retire r.1).map fun h => (decide (r.1.idx < DELETED), h)

end CncrHsh
end NvdlaVp.Simdb
