import Mathlib.Data.Nat.Basic
import Mathlib.Data.List.Basic

/-!
# Numerals in a base of at most sixteen

Printing writes lowercase digits, padded on the left with zeros to a minimal width. Reading
accepts either case. Printing and reading agree, and a printed numeral has at least one
digit and nothing but digits.
-/

namespace Common

/-- The value of a digit, in either case. -/
def digitValue (c : Char) : Option ℕ :=
  if '0' ≤ c ∧ c ≤ '9' then some (c.toNat - '0'.toNat)
  else if 'a' ≤ c ∧ c ≤ 'f' then some (c.toNat - 'a'.toNat + 10)
  else if 'A' ≤ c ∧ c ≤ 'F' then some (c.toNat - 'A'.toNat + 10)
  else none

/-- The character is a digit of the base. -/
def isDigitIn (base : ℕ) (c : Char) : Bool := (digitValue c).any fun d => d < base

/-- The value of a list of digits. -/
def numeralValue (base : ℕ) (digits : List Char) : ℕ :=
  digits.foldl (fun value c => base * value + (digitValue c).getD 0) 0

/-- A number in a base, padded with zeros to a minimal width. -/
def printNumeral (base width n : ℕ) : List Char := (Nat.toDigits base n).leftpad width '0'

/-- Reading back the digit of a value. -/
theorem digitValue_digitChar : ∀ d < 16, digitValue (Nat.digitChar d) = some d := by decide

/-- The digits of a number are digits of the base. -/
theorem exists_digit_of_mem_toDigits {base n : ℕ} (hbase : 1 < base) {c : Char}
    (hc : c ∈ Nat.toDigits base n) : ∃ d < base, c = Nat.digitChar d := by
  induction n using Nat.strongRecOn with
  | ind n ih =>
    by_cases hsmall : n < base
    · rw [Nat.toDigits_of_lt_base hsmall, List.mem_singleton] at hc
      exact ⟨n, hsmall, hc⟩
    · rw [Nat.toDigits_of_base_le hbase (Nat.le_of_not_lt hsmall), List.mem_append] at hc
      cases hc with
      | inl hhigh => exact ih (n / base) (Nat.div_lt_self (by omega) hbase) hhigh
      | inr hlow => exact ⟨n % base, Nat.mod_lt _ (by omega), List.mem_singleton.mp hlow⟩

/-- Appending a digit multiplies the value by the base and adds the digit. -/
theorem numeralValue_append_singleton (base : ℕ) (digits : List Char) (c : Char) :
    numeralValue base (digits ++ [c]) =
      base * numeralValue base digits + (digitValue c).getD 0 := by
  simp [numeralValue]

/-- Leading zeros do not change the value. -/
theorem numeralValue_replicate_zero_append (base count : ℕ) (digits : List Char) :
    numeralValue base (List.replicate count '0' ++ digits) = numeralValue base digits := by
  induction count with
  | zero => rfl
  | succ count ih =>
    rw [List.replicate_succ, List.cons_append, ← ih]
    simp [numeralValue, digitValue]

/-- A printed numeral is not empty. -/
theorem printNumeral_ne_nil (base width n : ℕ) : printNumeral base width n ≠ [] := by
  simp [printNumeral, List.leftpad, Nat.toDigits_ne_nil]

section Printed

variable {base : ℕ} (hbase : 1 < base)
include hbase

/-- A padded zero or a digit of the number. -/
theorem exists_digit_of_mem_printNumeral {width n : ℕ} {c : Char}
    (hc : c ∈ printNumeral base width n) : ∃ d < base, c = Nat.digitChar d := by
  cases List.mem_append.mp hc with
  | inl hpad => exact ⟨0, by omega, List.eq_of_mem_replicate hpad⟩
  | inr hdigit => exact exists_digit_of_mem_toDigits hbase hdigit

variable (hsixteen : base ≤ 16)
include hsixteen

/-- A printed numeral consists of digits of its base. -/
theorem isDigitIn_of_mem_printNumeral {width n : ℕ} {c : Char}
    (hc : c ∈ printNumeral base width n) : isDigitIn base c = true := by
  obtain ⟨d, hd, rfl⟩ := exists_digit_of_mem_printNumeral hbase hc
  simp [isDigitIn, digitValue_digitChar d (by omega), hd]

/-- Reading a printed numeral gives the number. -/
theorem numeralValue_printNumeral (width n : ℕ) :
    numeralValue base (printNumeral base width n) = n := by
  rw [printNumeral, List.leftpad, numeralValue_replicate_zero_append]
  induction n using Nat.strongRecOn with
  | ind n ih =>
    by_cases hsmall : n < base
    · rw [Nat.toDigits_of_lt_base hsmall]
      simp [numeralValue, digitValue_digitChar n (by omega)]
    · have hlow : n % base < base := Nat.mod_lt _ (by omega)
      rw [Nat.toDigits_of_base_le hbase (Nat.le_of_not_lt hsmall), numeralValue_append_singleton,
        ih (n / base) (Nat.div_lt_self (by omega) hbase), digitValue_digitChar _ (by omega),
        Option.getD_some]
      exact Nat.div_add_mod n base

end Printed

end Common
