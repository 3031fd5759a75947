import NvdlaVp.Numerals

set_option autoImplicit false

/-!
# `gp2str`

The text of a generic payload. Arrays have the lengths that the payload declares for them,
and `none` stands for an access outside of an array or a failed assertion.
-/
namespace NvdlaVp.Gp2str
open Numerals

abbrev Bytes (n : BitVec 32) := {xs : List (BitVec 8) // xs.length = n.toNat}

/-- What `gp2str` reads of a payload; `response_string` is `get_response_string()`. -/
structure Payload where
  is_write : Bool
  address : BitVec 64
  data_length : BitVec 32
  data_ptr : Option (Bytes data_length)
  byte_enable_length : BitVec 32
  byte_enable_ptr : Option (Bytes byte_enable_length)
  response_string : List Char

namespace Payload
variable (p : Payload)

def data : List (BitVec 8) := (p.data_ptr.map Subtype.val).getD []

def getBe (idx : ℕ) : Option Bool :=
  match p.byte_enable_ptr with
  | none => some true
  | some be =>
    if p.byte_enable_length = 0 then none
    else (be.val[idx % p.byte_enable_length.toNat]?).map fun b => decide (b = 0xff)

/-- `*ptr` is read only if it is valid. -/
def getByte (idx : ℕ) (valid is_first_byte_of_word : Bool) : Option (List Char) :=
  let s := if is_first_byte_of_word then [] else ['_']
  if valid then (p.data[idx]?).map fun b => s ++ padded 16 2 b.toNat
  else some (s ++ ['X', 'X'])

def byteLoop : ℕ → ℕ → Bool → Option (List Char)
  | 0, _, _ => some []
  | n + 1, idx, first => do
    let valid ← p.getBe idx
    let s ← p.getByte idx valid first
    let rest ← byteLoop n (idx + 1) false
    some (s ++ rest)

/-- The loop over `word_enable &= getBe(..)`. -/
def wordEnable : ℕ → ℕ → Option Bool
  | 0, _ => some true
  | n + 1, idx => do
    let valid ← p.getBe idx
    let rest ← wordEnable n (idx + 1)
    some (valid && rest)

/-- The load of `n` bytes on a little-endian host. -/
def load : ℕ → ℕ → Option ℕ
  | 0, _ => some 0
  | n + 1, idx => do
    let b ← p.data[idx]?
    let rest ← load n (idx + 1)
    some (b.toNat + 256 * rest)

/-- `while (remain_len > 0)`. -/
def wordLoop : ℕ → ℕ → Option (List Char)
  | 0, _ => some []
  | remain_len + 4, idx => do
    let word_enable ← p.wordEnable 4 idx
    let s ← if word_enable then (p.load 4 idx).map (padded 16 8) else p.byteLoop 4 idx true
    let rest ← wordLoop remain_len (idx + 4)
    some (' ' :: s ++ rest)
  | remain_len, idx => do
    let s ← p.byteLoop remain_len idx true
    some (' ' :: s)

def headBytes : ℕ := min (4 - p.address.toNat % 4) p.data_length.toNat

def data_oss : Option (List Char) :=
  if p.address.toNat % 4 ≠ 0 then do
    let head ← p.byteLoop p.headBytes 0 true
    let rest ← p.wordLoop (p.data_length.toNat - p.headBytes) p.headBytes
    some ("0x ".toList ++ head ++ rest)
  else do
    let rest ← p.wordLoop p.data_length.toNat 0
    some ("0x".toList ++ rest)

def gp2str : Option (List Char) :=
  if p.byte_enable_ptr.isSome ∧ p.byte_enable_length = 0 then
    some "ERROR GENERIC PAYLOAD: byte_enable_length == 0!".toList
  else if p.byte_enable_ptr.isNone ∧ p.byte_enable_length ≠ 0 then
    some "ERROR GENERIC PAYLOAD: byte_enable_ptr == NULL!".toList
  else if p.data_ptr.isNone ∧ p.data_length ≠ 0 then
    some "ERROR GENERIC PAYLOAD: data_ptr == NULL!".toList
  else do
    let data_oss ← p.data_oss
    some ("GP: iswrite=".toList ++ (if p.is_write then '1' else '0') ::
      " addr=0x".toList ++ Nat.toDigits 16 p.address.toNat ++
      " len=".toList ++ Nat.toDigits 10 p.data_length.toNat ++
      " data=".toList ++ data_oss ++ " resp=".toList ++ p.response_string)

end Payload

def example_payload : Payload where
  is_write := true
  address := 0x1003
  data_length := 6
  data_ptr := some ⟨[0x11, 0x22, 0x33, 0x44, 0x55, 0x66], rfl⟩
  byte_enable_length := 3
  byte_enable_ptr := some ⟨[0xff, 0xff, 0x00], rfl⟩
  response_string := "TLM_OK_RESPONSE".toList

end NvdlaVp.Gp2str
