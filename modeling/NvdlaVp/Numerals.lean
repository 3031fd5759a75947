import Mathlib.Data.Nat.Digits.Defs
import Mathlib.Tactic.IntervalCases

set_option autoImplicit false

namespace NvdlaVp.Numerals

def digitValue (c : Char) : Option ℕ :=
  if '0' ≤ c ∧ c ≤ '9' then some (c.toNat - '0'.toNat)
  else if 'a' ≤ c ∧ c ≤ 'z' then some (c.toNat - 'a'.toNat + 10)
  else if 'A' ≤ c ∧ c ≤ 'Z' then some (c.toNat - 'A'.toNat + 10)
  else none

def digit (b : ℕ) (c : Char) : Option ℕ := (digitValue c).filter (· < b)

/-- Continues the number `acc` by the digits that come next, and returns the rest. -/
def readDigits (b : ℕ) : ℕ → List Char → ℕ × List Char
  | acc, [] => (acc, [])
  | acc, c :: cs =>
    match digit b c with
    | some d => readDigits b (acc * b + d) cs
    | none => (acc, c :: cs)

def padded (b w n : ℕ) : List Char := (Nat.toDigits b n).leftpad w '0'

variable {b n w d : ℕ} {c : Char} {rest : List Char}

theorem digit_digitChar (hd : d < b) (hb : b ≤ 16) : digit b d.digitChar = some d := by
  have hvalue : digitValue d.digitChar = some d := by
    have hd16 : d < 16 := by omega
    interval_cases d <;> decide
  simp [digit, hvalue, hd]

theorem readDigits_cons (hc : digit b c = some d) (acc : ℕ) :
    readDigits b acc (c :: rest) = readDigits b (acc * b + d) rest := by
  simp only [readDigits, hc]

theorem readDigits_stop (h : ∀ c ∈ rest.head?, digit b c = none) (acc : ℕ) :
    readDigits b acc rest = (acc, rest) := by
  cases rest with
  | nil => rfl
  | cons c cs => simp only [readDigits, h c rfl]

theorem readDigits_toDigits (hb : 1 < b) (hb16 : b ≤ 16) (n : ℕ) (rest : List Char) :
    readDigits b 0 (Nat.toDigits b n ++ rest) = readDigits b n rest := by
  induction n using Nat.strong_induction_on generalizing rest with
  | _ n ih =>
    rw [Nat.toDigits_eq_if hb]
    split
    · rename_i hn
      rw [List.singleton_append, readDigits_cons (digit_digitChar hn hb16), Nat.zero_mul,
        Nat.zero_add]
    · rename_i hn
      have hd : n % b < b := Nat.mod_lt n (by omega)
      rw [List.append_assoc, ih (n / b) (Nat.div_lt_self (by omega) hb), List.singleton_append,
        readDigits_cons (digit_digitChar hd hb16), Nat.div_add_mod']

theorem digit_zero (hb : 1 < b) : digit b '0' = some 0 := by
  have hpos : 0 < b := by omega
  simp [digit, show digitValue '0' = some 0 by decide, hpos]

theorem readDigits_zeros (hb : 1 < b) (k : ℕ) (rest : List Char) :
    readDigits b 0 (List.replicate k '0' ++ rest) = readDigits b 0 rest := by
  induction k with
  | zero => rfl
  | succ k ih =>
    rw [List.replicate_succ, List.cons_append, readDigits_cons (digit_zero hb), Nat.zero_mul, ih]

theorem readDigits_padded (hb : 1 < b) (hb16 : b ≤ 16) (w n : ℕ) (rest : List Char) :
    readDigits b 0 (padded b w n ++ rest) = readDigits b n rest := by
  rw [padded, List.leftpad, List.append_assoc, readDigits_zeros hb, readDigits_toDigits hb hb16]

theorem isSome_digit_of_mem_toDigits (hb : 1 < b) (hb16 : b ≤ 16)
    (hc : c ∈ Nat.toDigits b n) : (digit b c).isSome := by
  induction n using Nat.strong_induction_on with
  | _ n ih =>
    rw [Nat.toDigits_eq_if hb] at hc
    split at hc
    · rename_i hn
      rw [List.mem_singleton.mp hc, digit_digitChar hn hb16]
      rfl
    · rename_i hn
      rcases List.mem_append.mp hc with hc | hc
      · exact ih (n / b) (Nat.div_lt_self (by omega) hb) hc
      · rw [List.mem_singleton.mp hc, digit_digitChar (Nat.mod_lt n (by omega)) hb16]
        rfl

theorem isSome_digit_of_mem_padded (hb : 1 < b) (hb16 : b ≤ 16) (hc : c ∈ padded b w n) :
    (digit b c).isSome := by
  rcases List.mem_append.mp hc with hc | hc
  · rw [List.eq_of_mem_replicate hc, digit_zero hb]
    rfl
  · exact isSome_digit_of_mem_toDigits hb hb16 hc

theorem length_padded (hb : 1 < b) (hw : 0 < w) (hn : n < b ^ w) : (padded b w n).length = w := by
  have hle := (Nat.length_toDigits_le_iff hb hw).mpr hn
  simp only [padded, List.length_leftpad]
  omega

end NvdlaVp.Numerals
