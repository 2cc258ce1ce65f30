import Bwap.Common.Scanf
import Mathlib.Algebra.Order.Floor.Ring
import Mathlib.Data.Char
import Mathlib.Data.List.Induction
import Mathlib.Data.List.Lex
import Mathlib.Data.Prod.Lex
import Mathlib.Data.Rat.Floor
import Mathlib.Tactic.FieldSimp
import Mathlib.Tactic.Linarith
import Mathlib.Tactic.Ring
import Mathlib.Tactic.SplitIfs

/-!
# Decimal numbers in texts

A number is printed with one digit behind the point, rounded to the nearest tenth. It is read back
as the C library does, from the longest prefix that makes sense, and lines are sorted by the number
they start with. Reading what was printed gives the tenth, and so does the number it is sorted by.
-/

namespace Common

/-! ## Rounding to tenths -/

section Rounding

variable {K : Type*} [Field K] [LinearOrder K] [IsStrictOrderedRing K] [FloorRing K]

/-- The nearest integer; of two, the even one. -/
def roundEven (x : K) : ℤ :=
  if x - ⌊x⌋ < ⌊x⌋ + 1 - x then ⌊x⌋
  else if ⌊x⌋ + 1 - x < x - ⌊x⌋ then ⌊x⌋ + 1
  else if ⌊x⌋ % 2 = 0 then ⌊x⌋ else ⌊x⌋ + 1

/-- Rounding moves a number by at most one half. -/
theorem abs_roundEven_sub_le (x : K) : |(roundEven x : K) - x| ≤ 1 / 2 := by
  have hlow := Int.floor_le x
  have hhigh := Int.lt_floor_add_one x
  unfold roundEven
  rw [abs_le]
  split_ifs
  all_goals
    push_cast
    constructor <;> linarith

omit [IsStrictOrderedRing K] in
/-- A nonnegative number is not rounded below zero. -/
theorem roundEven_nonneg {x : K} (hx : 0 ≤ x) : 0 ≤ roundEven x := by
  have hfloor := Int.floor_nonneg.mpr hx
  unfold roundEven
  split_ifs <;> omega

end Rounding

/-- The tenths of a number, without its sign. -/
def tenths (x : ℚ) : ℕ := (roundEven (|x| * 10)).toNat

/-- The nearest tenth. -/
def toTenth (x : ℚ) : ℚ := (if x < 0 then -1 else 1) * (tenths x / 10)

/-- The tenths are off by at most one half. -/
theorem abs_tenths_sub_le (x : ℚ) : |(tenths x : ℚ) - |x| * 10| ≤ 1 / 2 := by
  have hnonneg : 0 ≤ roundEven (|x| * 10) := roundEven_nonneg (by positivity)
  have hcast : (tenths x : ℚ) = roundEven (|x| * 10) := by
    exact_mod_cast Int.toNat_of_nonneg hnonneg
  rw [hcast]
  exact abs_roundEven_sub_le _

/-- The nearest tenth is off by at most one half of a tenth. -/
theorem abs_toTenth_sub_le (x : ℚ) : |toTenth x - x| ≤ 1 / 20 := by
  have hround := abs_tenths_sub_le x
  rw [abs_le] at hround ⊢
  unfold toTenth
  split_ifs with hneg
  · rw [abs_of_neg hneg] at hround
    constructor <;> linarith
  · rw [abs_of_nonneg (not_lt.mp hneg)] at hround
    constructor <;> linarith

/-- A nonnegative number has a nonnegative tenth. -/
theorem toTenth_nonneg {x : ℚ} (hx : 0 ≤ x) : 0 ≤ toTenth x := by
  unfold toTenth
  rw [if_neg (not_lt.mpr hx)]
  positivity

/-! ## Printing and reading -/

/-- A number with one digit behind the point. -/
def printTenths (x : ℚ) : List Char :=
  (if x < 0 then ['-'] else []) ++ printNumeral 10 1 (tenths x / 10) ++
    '.' :: printNumeral 10 1 (tenths x % 10)

/-- A number without a sign, digits with or without a point among them: its value and the rest, if
there is a digit. -/
def readUnsignedDecimal (text : List Char) : Option (ℚ × List Char) :=
  let whole := text.takeWhile (isDigitIn 10)
  let (fraction, rest) := match text.dropWhile (isDigitIn 10) with
    | '.' :: more => (more.takeWhile (isDigitIn 10), more.dropWhile (isDigitIn 10))
    | rest => ([], rest)
  if whole ++ fraction = [] then none
  else some ((numeralValue 10 (whole ++ fraction) : ℚ) / 10 ^ fraction.length, rest)

/-- The exponent a text starts with. -/
def readExponent : List Char → ℤ
  | 'e' :: text | 'E' :: text =>
    let (negated, unsigned) := readSign text
    (if negated then -1 else 1) * numeralValue 10 (unsigned.takeWhile (isDigitIn 10))
  | _ => 0

/-- `atof` on a decimal number. -/
def atof (text : List Char) : ℚ :=
  let (negated, unsigned) := readSign (skipSpaces text)
  match readUnsignedDecimal unsigned with
  | none => 0
  | some (value, rest) => (if negated then -1 else 1) * (value * 10 ^ readExponent rest)

/-- The integer a text starts with. -/
def readInteger (text : List Char) : Option ℤ :=
  let (negated, unsigned) := readSign (skipSpaces text)
  let digits := unsigned.takeWhile (isDigitIn 10)
  if digits = [] then none
  else some ((if negated then -1 else 1) * numeralValue 10 digits)

/-- `atoi`: a `long`, saturated, and then its lower 32 bits. -/
def atoi (text : List Char) : ℤ :=
  (BitVec.ofInt 32 (max (-2 ^ 63) (min (2 ^ 63 - 1) ((readInteger text).getD 0)))).toInt

/-- The exceptions of `std::stoi`. -/
inductive StoiError
  | invalidArgument
  | outOfRange
deriving DecidableEq, Repr

/-- `std::stoi`. -/
def stoi (text : List Char) : Except StoiError ℤ :=
  match readInteger text with
  | none => .error .invalidArgument
  | some n => if -2 ^ 31 ≤ n ∧ n < 2 ^ 31 then .ok n else .error .outOfRange

/-- The characters that `sort` skips at the start of a line. -/
def isBlank (c : Char) : Bool := c = ' ' || c = '\t'

/-- An optional minus sign: whether there is one, and the rest. -/
def readMinus : List Char → Bool × List Char
  | '-' :: rest => (true, rest)
  | rest => (false, rest)

/-- The number that `sort -n` compares a line by. -/
def sortKey (line : List Char) : ℚ :=
  let (negated, unsigned) := readMinus (line.dropWhile isBlank)
  (if negated then -1 else 1) * ((readUnsignedDecimal unsigned).map Prod.fst).getD 0

/-- `sort -n`: by these numbers, and lines with the same one by their characters. -/
def sortNumeric (lines : List (List Char)) : List (List Char) :=
  lines.mergeSort fun a b => decide (toLex (sortKey a, a) ≤ toLex (sortKey b, b))

/-! ## Reading digits -/

/-- Digits after digits: those in front count for more. -/
theorem numeralValue_append (base : ℕ) (high low : List Char) :
    numeralValue base (high ++ low) =
      base ^ low.length * numeralValue base high + numeralValue base low := by
  induction low using List.reverseRecOn with
  | nil => simp [numeralValue]
  | append_singleton low c ih =>
    rw [← List.append_assoc, numeralValue_append_singleton, numeralValue_append_singleton, ih,
      List.length_append, List.length_singleton, pow_succ]
    ring

/-- What stops the digits of a text is left. -/
theorem takeWhile_digits {digits rest : List Char} (hdigits : ∀ c ∈ digits, isDigitIn 10 c = true)
    (hrest : ∀ c ∈ rest.head?, isDigitIn 10 c = false) :
    (digits ++ rest).takeWhile (isDigitIn 10) = digits ∧
      (digits ++ rest).dropWhile (isDigitIn 10) = rest := by
  induction digits with
  | nil =>
    cases rest with
    | nil => exact ⟨rfl, rfl⟩
    | cons c rest => simp [hrest c rfl]
  | cons c digits ih =>
    rw [List.forall_mem_cons] at hdigits
    obtain ⟨htake, hdrop⟩ := ih hdigits.2
    simp [hdigits.1, htake, hdrop]

/-- Digits, a point and digits are read as what they say. -/
theorem readUnsignedDecimal_digits {whole fraction rest : List Char}
    (hwhole : ∀ c ∈ whole, isDigitIn 10 c = true) (hne : whole ≠ [])
    (hfraction : ∀ c ∈ fraction, isDigitIn 10 c = true)
    (hrest : ∀ c ∈ rest.head?, isDigitIn 10 c = false) :
    readUnsignedDecimal (whole ++ '.' :: (fraction ++ rest)) =
      some ((numeralValue 10 whole : ℚ) + numeralValue 10 fraction / 10 ^ fraction.length,
        rest) := by
  have hpoint : ∀ c ∈ ('.' :: (fraction ++ rest)).head?, isDigitIn 10 c = false := by
    intro c hc
    obtain rfl : '.' = c := by simpa using hc
    decide
  obtain ⟨htake, hdrop⟩ := takeWhile_digits hwhole hpoint
  obtain ⟨htake', hdrop'⟩ := takeWhile_digits hfraction hrest
  have hvalue : (numeralValue 10 (whole ++ fraction) : ℚ) / 10 ^ fraction.length =
      numeralValue 10 whole + numeralValue 10 fraction / 10 ^ fraction.length := by
    rw [numeralValue_append]
    push_cast
    field_simp
  simp only [readUnsignedDecimal, htake, hdrop, htake', hdrop']
  rw [if_neg (by simp [hne]), hvalue]

/-- An integer is read up to what stops its digits. -/
theorem readInteger_digits {digits rest : List Char} (hne : digits ≠ [])
    (hdigits : ∀ c ∈ digits, isDigitIn 10 c = true)
    (hrest : ∀ c ∈ rest.head?, isDigitIn 10 c = false) :
    readInteger (digits ++ rest) = some (numeralValue 10 digits : ℤ) := by
  obtain ⟨c, more, rfl⟩ := List.exists_cons_of_ne_nil hne
  obtain ⟨d, -, hd⟩ := exists_digitValue (hdigits c List.mem_cons_self)
  simp only [readInteger, List.cons_append, readSign_skipSpaces_digit hd]
  rw [← List.cons_append, (takeWhile_digits hdigits hrest).1, if_neg hne]
  simp

/-- A number that fits is read back. -/
theorem atoi_printNumeral {n : ℕ} (hn : n < 2 ^ 31) {rest : List Char}
    (hrest : ∀ c ∈ rest.head?, isDigitIn 10 c = false) :
    atoi (printNumeral 10 1 n ++ rest) = n := by
  have hread := readInteger_digits (printNumeral_ne_nil 10 1 n)
    (fun c hc => isDigitIn_of_mem_printNumeral (by norm_num) (by norm_num) hc) hrest
  rw [numeralValue_printNumeral (by norm_num) (by norm_num)] at hread
  have hclamp : max (-2 ^ 63 : ℤ) (min (2 ^ 63 - 1) n) = n := by omega
  rw [atoi, hread, Option.getD_some, hclamp, BitVec.toInt_ofInt]
  have hbmod := @Int.bmod_eq_of_le n (2 ^ 32) (by omega) (by omega)
  exact hbmod

/-- None of the digits of a number is a blank, ends a line or ends a text. -/
theorem visible_of_mem_printNumeral {n : ℕ} {c : Char} (hc : c ∈ printNumeral 10 1 n) :
    c ≠ ' ' ∧ c ≠ '\n' ∧ c ≠ Char.ofNat 0 := by
  obtain ⟨d, -, hd⟩ :=
    exists_digitValue (isDigitIn_of_mem_printNumeral (by norm_num) (by norm_num) hc)
  refine ⟨?_, ?_, ?_⟩
  all_goals
    rintro rfl
    exact absurd hd (by simp [digitValue])

/-- `stoi` succeeds on what starts with an `int`. -/
theorem stoi_eq_ok_iff {text : List Char} {n : ℤ} :
    stoi text = .ok n ↔ readInteger text = some n ∧ -2 ^ 31 ≤ n ∧ n < 2 ^ 31 := by
  unfold stoi
  cases hread : readInteger text with
  | none => simp
  | some k =>
    simp only [Option.some.injEq]
    split_ifs with hfits
    · simp only [Except.ok.injEq]
      exact ⟨fun h => h ▸ ⟨rfl, hfits⟩, fun h => h.1⟩
    · exact iff_of_false (by simp) fun h => hfits (h.1 ▸ h.2)

/-! ## Reading what was printed -/

/-- One digit is printed for the tenths. -/
theorem printNumeral_mod_ten (n : ℕ) :
    printNumeral 10 1 (n % 10) = [Nat.digitChar (n % 10)] := by
  have hsmall : n % 10 < 10 := Nat.mod_lt _ (by norm_num)
  rw [printNumeral, Nat.toDigits_of_lt_base hsmall]
  rfl

/-- The digits of a printed number are read as its tenths. -/
theorem readUnsignedDecimal_tenths (n : ℕ) {rest : List Char}
    (hrest : ∀ c ∈ rest.head?, isDigitIn 10 c = false) :
    readUnsignedDecimal (printNumeral 10 1 (n / 10) ++ '.' :: printNumeral 10 1 (n % 10) ++ rest) =
      some ((n : ℚ) / 10, rest) := by
  have hdigits (k : ℕ) : ∀ c ∈ printNumeral 10 1 k, isDigitIn 10 c = true :=
    fun c hc => isDigitIn_of_mem_printNumeral (by norm_num) (by norm_num) hc
  have hvalue (k : ℕ) : numeralValue 10 (printNumeral 10 1 k) = k :=
    numeralValue_printNumeral (by norm_num) (by norm_num) 1 k
  have hread := readUnsignedDecimal_digits (hdigits (n / 10)) (printNumeral_ne_nil _ _ _)
    (hdigits (n % 10)) hrest
  have hlength : (printNumeral 10 1 (n % 10)).length = 1 := by rw [printNumeral_mod_ten]; rfl
  have hsplit : (n : ℚ) / 10 = (n / 10 : ℕ) + (n % 10 : ℕ) / 10 := by
    have hn : (n : ℚ) = 10 * (n / 10 : ℕ) + (n % 10 : ℕ) := by
      exact_mod_cast (Nat.div_add_mod n 10).symm
    rw [hn]
    ring_nf
  rw [hvalue, hvalue, hlength, pow_one] at hread
  rw [List.append_assoc, List.cons_append, hread, hsplit]

/-- A printed number is its sign, the digits of its integer part, a point and one digit. -/
theorem exists_printTenths_eq (x : ℚ) :
    ∃ c more, (digitValue c).isSome ∧ printNumeral 10 1 (tenths x / 10) = c :: more := by
  obtain ⟨c, more, hdigits⟩ := List.exists_cons_of_ne_nil (printNumeral_ne_nil 10 1 (tenths x / 10))
  have hc := @isDigitIn_of_mem_printNumeral 10 (by norm_num) (by norm_num) 1 (tenths x / 10) c
    (by rw [hdigits]; exact List.mem_cons_self)
  obtain ⟨d, -, hd⟩ := exists_digitValue hc
  exact ⟨c, more, by rw [hd, Option.isSome_some], hdigits⟩

/-- A printed number is not empty. -/
theorem printTenths_ne_nil (x : ℚ) : printTenths x ≠ [] := by simp [printTenths]

/-- The sign of a printed number, and what is behind it. -/
theorem readSign_printTenths (x : ℚ) (rest : List Char) :
    readSign (skipSpaces (printTenths x ++ rest)) = (decide (x < 0),
      printNumeral 10 1 (tenths x / 10) ++ '.' :: printNumeral 10 1 (tenths x % 10) ++ rest) := by
  obtain ⟨c, more, hc, hdigits⟩ := exists_printTenths_eq x
  obtain ⟨d, hd⟩ := Option.isSome_iff_exists.mp hc
  unfold printTenths
  by_cases hneg : x < 0
  · rw [if_pos hneg, decide_eq_true hneg]
    rfl
  · rw [if_neg hneg, decide_eq_false hneg, List.nil_append, hdigits]
    exact readSign_skipSpaces_digit hd _

/-- A printed number is read back as its nearest tenth. -/
theorem atof_printTenths (x : ℚ) : atof (printTenths x) = toTenth x := by
  have hsign := readSign_printTenths x []
  have hread := @readUnsignedDecimal_tenths (tenths x) [] (by simp)
  rw [List.append_nil] at hsign
  simp only [atof, hsign, hread, toTenth, readExponent, zpow_zero, mul_one, decide_eq_true_eq]

/-- The sign that `sort` finds in front of a printed number, and what is behind it. -/
theorem readMinus_printTenths (x : ℚ) (rest : List Char) :
    readMinus ((printTenths x ++ rest).dropWhile isBlank) = (decide (x < 0),
      printNumeral 10 1 (tenths x / 10) ++ '.' :: printNumeral 10 1 (tenths x % 10) ++ rest) := by
  obtain ⟨c, more, hc, hdigits⟩ := exists_printTenths_eq x
  have hblank : isBlank c = false := by
    by_contra h
    simp only [isBlank, Bool.not_eq_false, Bool.or_eq_true, decide_eq_true_eq] at h
    rcases h with rfl | rfl <;> exact absurd hc (by decide)
  have hminus : c ≠ '-' := by
    rintro rfl
    exact absurd hc (by decide)
  unfold printTenths
  by_cases hneg : x < 0
  · rw [if_pos hneg, decide_eq_true hneg]
    rfl
  · rw [if_neg hneg, decide_eq_false hneg, List.nil_append, hdigits, List.append_assoc,
      List.cons_append, List.dropWhile_cons_of_neg (by simp [hblank]), readMinus]
    exact fun _ h => hminus (List.cons.inj h).1

/-- A line is sorted by the number printed at its start. -/
theorem sortKey_printTenths (x : ℚ) {rest : List Char}
    (hrest : ∀ c ∈ rest.head?, isDigitIn 10 c = false) :
    sortKey (printTenths x ++ rest) = toTenth x := by
  simp only [sortKey, readMinus_printTenths, readUnsignedDecimal_tenths (tenths x) hrest,
    toTenth, Option.map_some, Option.getD_some, decide_eq_true_eq]

/-- None of the characters of a printed number is a blank, ends a line or ends a text. -/
theorem visible_of_mem_printTenths {x : ℚ} {c : Char} (hc : c ∈ printTenths x) :
    c ≠ ' ' ∧ c ≠ '\n' ∧ c ≠ Char.ofNat 0 := by
  have hdigit {k : ℕ} (hk : c ∈ printNumeral 10 1 k) : c ≠ ' ' ∧ c ≠ '\n' ∧ c ≠ Char.ofNat 0 :=
    visible_of_mem_printNumeral hk
  unfold printTenths at hc
  rcases List.mem_append.mp hc with hfront | htenth
  · rcases List.mem_append.mp hfront with hsign | hwhole
    · split_ifs at hsign
      · obtain rfl := List.mem_singleton.mp hsign
        decide
      · exact absurd hsign List.not_mem_nil
    · exact hdigit hwhole
  · rcases List.mem_cons.mp htenth with rfl | hlast
    · decide
    · exact hdigit hlast

/-! ## Sorting -/

/-- Sorting keeps the lines. -/
theorem sortNumeric_perm (lines : List (List Char)) : (sortNumeric lines).Perm lines :=
  List.mergeSort_perm _ _

/-- Sorted lines start with ascending numbers. -/
theorem sortNumeric_ascending (lines : List (List Char)) :
    (sortNumeric lines).Pairwise fun a b => sortKey a ≤ sortKey b := by
  have hsorted := @List.pairwise_mergeSort _
    (fun a b => decide (toLex (sortKey a, a) ≤ toLex (sortKey b, b)))
    (fun a b c hab hbc => by simpa using le_trans (of_decide_eq_true hab) (of_decide_eq_true hbc))
    (fun a b => by simpa using le_total (toLex (sortKey a, a)) (toLex (sortKey b, b))) lines
  refine hsorted.imp fun {a b} h => ?_
  rcases Prod.Lex.le_iff.mp (of_decide_eq_true h) with hless | hequal
  · exact hless.le
  · exact hequal.1.le

end Common
