import Mathlib

/-!
# Numbers in decimal

Numbers of 64 bits are written in decimal and read back.  Reading takes a plus sign before the
digits, and refuses what does not fit in 64 bits.
-/

namespace Bytes

/-- Read a number as `str::parse` does. -/
def parseU64 (cs : List Char) : Option ℕ :=
  let digits := if cs.head? = some '+' then cs.tail else cs
  if digits ≠ [] ∧ digits.all Char.isDigit ∧ Nat.ofDigitChars 10 digits 0 < 2 ^ 64 then
    some (Nat.ofDigitChars 10 digits 0)
  else none

theorem head?_ne_plus {cs : List Char} (h : ∀ c ∈ cs, c.isDigit) :
  cs.head? ≠ some '+'
  := by
  intro hplus
  have hdigit := h '+' (List.mem_of_head? hplus)
  revert hdigit
  decide

/-- Digits are read as the number they are. -/
theorem parseU64_of_digits {cs : List Char} (hne : cs ≠ []) (h : ∀ c ∈ cs, c.isDigit) :
  parseU64 cs = if Nat.ofDigitChars 10 cs 0 < 2 ^ 64 then some (Nat.ofDigitChars 10 cs 0)
    else none
  := by
  have hall : cs.all Char.isDigit := List.all_eq_true.mpr h
  rw [parseU64, if_neg (head?_ne_plus h)]
  simp only [hne, hall, ne_eq, not_false_eq_true, true_and]

/-- A number that was written is read back. -/
theorem parseU64_toDigits {n : ℕ} (h : n < 2 ^ 64) :
  parseU64 (Nat.toDigits 10 n) = some n
  := by
  have hdigits (c : Char) (hc : c ∈ Nat.toDigits 10 n) : c.isDigit :=
    Nat.isDigit_of_mem_toDigits (by decide) (by decide) hc
  rw [parseU64_of_digits Nat.toDigits_ne_nil hdigits, Nat.ofDigitChars_ten_toDigits, if_pos h]

end Bytes
