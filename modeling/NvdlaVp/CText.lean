import NvdlaVp.Numerals

set_option autoImplicit false

namespace NvdlaVp.CText
open Numerals

def isspace (c : Char) : Bool :=
  c = ' ' || c = '\t' || c = '\n' || c.toNat = 11 || c.toNat = 12 || c = '\r'

def autoBase : List Char → ℕ
  | '0' :: 'x' :: c :: cs =>
    if (digit 16 c).isSome then (readDigits 16 0 (c :: cs)).1 else 0
  | '0' :: 'X' :: c :: cs =>
    if (digit 16 c).isSome then (readDigits 16 0 (c :: cs)).1 else 0
  | '0' :: cs => (readDigits 8 0 cs).1
  | cs => (readDigits 10 0 cs).1

/-- `ULONG_MAX` stands for everything above it; a sign is applied modulo the width. -/
def strtoul (nptr : List Char) : BitVec 64 :=
  let value (n : ℕ) (signed : BitVec 64) : BitVec 64 :=
    if n < 2 ^ 64 then signed else BitVec.allOnes 64
  match nptr.dropWhile isspace with
  | '-' :: cs => value (autoBase cs) (-BitVec.ofNat 64 (autoBase cs))
  | '+' :: cs => value (autoBase cs) (BitVec.ofNat 64 (autoBase cs))
  | cs => value (autoBase cs) (BitVec.ofNat 64 (autoBase cs))

theorem head_toDigits {n : ℕ} (hn : 0 < n) :
    ∃ d cs, Nat.toDigits 10 n = d.digitChar :: cs ∧ 0 < d ∧ d < 10 := by
  induction n using Nat.strong_induction_on with
  | _ n ih =>
    rw [Nat.toDigits_eq_if (by decide)]
    split
    · exact ⟨n, [], rfl, hn, by assumption⟩
    · obtain ⟨d, cs, heq, hlo, hhi⟩ := ih (n / 10) (by omega) (by omega)
      exact ⟨d, cs ++ [(n % 10).digitChar], by rw [heq]; rfl, hlo, hhi⟩

theorem autoBase_toDigits (n : ℕ) : autoBase (Nat.toDigits 10 n) = n := by
  rcases Nat.eq_zero_or_pos n with rfl | hn
  · decide
  · have hread : (readDigits 10 0 (Nat.toDigits 10 n)).1 = n := by
      have h := readDigits_toDigits (b := 10) (by decide) (by decide) n []
      rw [List.append_nil] at h
      rw [h]
      rfl
    obtain ⟨d, cs, heq, hlo, hhi⟩ := head_toDigits hn
    rw [heq] at hread ⊢
    rw [← hread]
    interval_cases d <;> rfl

theorem strtoul_toDigits {n : ℕ} (hn : n < 2 ^ 64) :
    strtoul (Nat.toDigits 10 n) = BitVec.ofNat 64 n := by
  rcases Nat.eq_zero_or_pos n with rfl | hpos
  · decide
  · have hvalue := autoBase_toDigits n
    obtain ⟨d, cs, heq, hlo, hhi⟩ := head_toDigits hpos
    rw [heq] at hvalue ⊢
    have hread : strtoul (d.digitChar :: cs) =
        if autoBase (d.digitChar :: cs) < 2 ^ 64 then
          BitVec.ofNat 64 (autoBase (d.digitChar :: cs))
        else BitVec.allOnes 64 := by
      interval_cases d <;> rfl
    rw [hread, hvalue, if_pos hn]

end NvdlaVp.CText
