import NvdlaVp.ByteMemory
import NvdlaVp.Gsgp

set_option autoImplicit false

/-!
# `Gsgp2fpga`

The accesses of a transaction to a PCIe BAR, one word or byte at a time. A BAR answers
each access with the return code of the SDK, 0 for success.
-/
namespace NvdlaVp.FpgaBridge
open ByteMemory Gsgp
variable {δ : Type*}

/-- The four accesses of `fpga_pci.h`; a peek is given the old content of its target. -/
structure PciBar (δ : Type*) where
  fpga_pci_poke : δ → BitVec 64 → BitVec 32 → ℤ × δ
  fpga_pci_poke8 : δ → BitVec 64 → BitVec 8 → ℤ × δ
  fpga_pci_peek : δ → BitVec 64 → BitVec 32 → ℤ × BitVec 32 × δ
  fpga_pci_peek8 : δ → BitVec 64 → BitVec 8 → ℤ × BitVec 8 × δ

def failed (rc : ℤ) : Bool := decide (rc ≠ 0)

def Misshapen (addr : BitVec 64) (len : ℤ) : Prop :=
  4 ≤ len ∧ (len % 4 ≠ 0 ∨ addr &&& 0x3 ≠ 0)

instance (addr : BitVec 64) (len : ℤ) : Decidable (Misshapen addr len) :=
  inferInstanceAs (Decidable (_ ∧ _))

/-- The two loops of `data_write`: words while four bytes are left, then a single byte. -/
def writeLoop (bar : PciBar δ) (addr : BitVec 64) (p_data : Buffer) :
    ℕ → ℕ → Bool → δ → Bool × δ
  | len + 4, index, ret, d =>
    let (poke_ret, d) :=
      bar.fpga_pci_poke d (addr + BitVec.ofNat 64 index) (p_data.drop index).word
    writeLoop bar addr p_data len (index + 4) (ret && failed poke_ret) d
  | 1, index, ret, d =>
    let (poke_ret, d) := bar.fpga_pci_poke8 d (addr + BitVec.ofNat 64 index) (p_data index)
    (ret && failed poke_ret, d)
  | _, _, ret, d => (ret, d)

/-- `SC_REPORT_ERROR` throws, which is its default action. -/
def data_write (bar : PciBar δ) (addr : BitVec 64) (p_data : Buffer) (len : ℤ) (d : δ) :
    Except String Bool × δ :=
  if Misshapen addr len then
    (.error "ERROR: data_write only support 4 byte alignment read, when len is more than 4!\n", d)
  else
    let (ret, d) := writeLoop bar addr p_data len.toNat 0 true d
    (.ok ret, d)

def peekOffset (addr : BitVec 64) (index : ℕ) : BitVec 64 :=
  (addr + BitVec.ofNat 64 index) &&& 0xfffffffc

def readLoop (bar : PciBar δ) (addr : BitVec 64) :
    ℕ → ℕ → Bool → Buffer → δ → Bool × Buffer × δ
  | len + 4, index, ret, p_data, d =>
    let (peek_ret, value, d) :=
      bar.fpga_pci_peek d (peekOffset addr index) (p_data.drop index).word
    readLoop bar addr len (index + 4) (ret && failed peek_ret)
      (p_data.put index (byteOf value) 4) d
  | 1, index, ret, p_data, d =>
    let (peek_ret, value, d) :=
      bar.fpga_pci_peek8 d (addr + BitVec.ofNat 64 index) (p_data index)
    (ret && failed peek_ret, p_data.put index (fun _ => value) 1, d)
  | _, _, ret, p_data, d => (ret, p_data, d)

def data_read (bar : PciBar δ) (addr : BitVec 64) (p_data : Buffer) (len : ℤ) (d : δ) :
    Except String Bool × Buffer × δ :=
  if Misshapen addr len then
    (.error "ERROR: data_read only support 4 byte alignment read, when len is more than 4!\n",
      p_data, d)
  else
    let (ret, p_data, d) := readLoop bar addr len.toNat 0 true p_data d
    (.ok ret, p_data, d)

structure Gsgp2fpga where
  base_addr : BitVec 64
  addr_offset : BitVec 64

def b_transact (g : Gsgp2fpga) (bar : PciBar δ) (mCmd : MCmd) (mAddr : BitVec 64)
    (mData : Buffer) (size : BitVec 32) (d : δ) : Except String Unit × Buffer × δ :=
  if size = 0 then (.ok (), mData, d)
  else
    let address := mAddr - g.base_addr + g.addr_offset
    match mCmd with
    | .wr =>
      match data_write bar address mData size.toInt d with
      | (.error e, d) => (.error e, mData, d)
      | (.ok ret, d) =>
        (if ret then .error "ERROR on data write!\n" else .ok (), mData, d)
    | .rd =>
      match data_read bar address mData size.toInt d with
      | (.error e, mData, d) => (.error e, mData, d)
      | (.ok ret, mData, d) =>
        (if ret then .error "ERROR on data read!\n" else .ok (), mData, d)

end NvdlaVp.FpgaBridge
