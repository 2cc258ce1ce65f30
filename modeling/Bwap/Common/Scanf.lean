import Bwap.Common.Numerals
import Mathlib.Algebra.Group.Nat.Defs
import Mathlib.Data.List.TakeWhile

/-!
# Formatted input

A scan walks a format and an input side by side and stops at the first directive that does
not match. What it stored before that point is kept. Integer conversions skip white space
and read as the C library does: an optional sign, an optional prefix in base sixteen, as
many digits as there are, saturated at the largest 64-bit value and truncated to the width of
the variable. A position is recorded without reading, and a suppressed conversion reads
without storing.
-/

namespace Common

/-- White space of the C locale. -/
def isSpace (c : Char) : Bool :=
  c = ' ' || c = '\t' || c = '\n' || c = '\x0b' || c = '\x0c' || c = '\r'

/-- The input after white space. -/
def skipSpaces (input : List Char) : List Char := input.dropWhile isSpace

/-- The directives of a format. -/
inductive Directive
  | space
  | literal (c : Char)
  | unsigned (base bits : ℕ)
  | word (width : ℕ)
  | skipTo (stop : Char)
  | position
deriving DecidableEq, Repr

/-- What a directive stored. -/
inductive Stored
  | number (value : ℕ)
  | text (chars : List Char)
  | position (offset : ℕ)
deriving DecidableEq, Repr

/-- An optional sign: whether the number is negated, and the rest. -/
def readSign : List Char → Bool × List Char
  | '-' :: rest => (true, rest)
  | '+' :: rest => (false, rest)
  | rest => (false, rest)

/-- An optional prefix of a base sixteen number. -/
def readPrefix (base : ℕ) : List Char → List Char
  | '0' :: 'x' :: rest => if base = 16 then rest else '0' :: 'x' :: rest
  | '0' :: 'X' :: rest => if base = 16 then rest else '0' :: 'X' :: rest
  | rest => rest

/-- The value an unsigned variable of some bits receives. -/
def storeUnsigned (bits : ℕ) (negated : Bool) (value : ℕ) : ℕ :=
  (if 2 ^ 64 ≤ value then 2 ^ 64 - 1 else if negated then 2 ^ 64 - value else value) % 2 ^ bits

/-- An unsigned conversion: the stored value and the rest, if there is a digit. -/
def readUnsigned (base bits : ℕ) (input : List Char) : Option (ℕ × List Char) :=
  let (negated, unsigned) := readSign (skipSpaces input)
  let start := readPrefix base unsigned
  let digits := start.takeWhile (isDigitIn base)
  if digits = [] then none
  else
    some (storeUnsigned bits negated (numeralValue base digits), start.dropWhile (isDigitIn base))

/-- A word conversion of a width: the characters up to white space or the width, if any. -/
def readWord (width : ℕ) (input : List Char) : Option (List Char × List Char) :=
  let start := skipSpaces input
  let chars := (start.take width).takeWhile fun c => !isSpace c
  if chars = [] then none else some (chars, start.drop chars.length)

/-- A scan of what is left of an input of some length. -/
def scanFrom (total : ℕ) : List Directive → List Char → List Stored
  | [], _ => []
  | .space :: format, input => scanFrom total format (skipSpaces input)
  | .literal _ :: _, [] => []
  | .literal c :: format, a :: rest => if a = c then scanFrom total format rest else []
  | .unsigned base bits :: format, input =>
    match readUnsigned base bits input with
    | none => []
    | some (value, rest) => .number value :: scanFrom total format rest
  | .word width :: format, input =>
    match readWord width input with
    | none => []
    | some (chars, rest) => .text chars :: scanFrom total format rest
  | .skipTo stop :: format, input =>
    if input.takeWhile (· != stop) = [] then []
    else scanFrom total format (input.dropWhile (· != stop))
  | .position :: format, input => .position (total - input.length) :: scanFrom total format input

/-- A scan of a whole input. -/
def scan (format : List Directive) (input : List Char) : List Stored :=
  scanFrom input.length format input

/-- The number of conversions stored, which is what `sscanf` returns unless the input ends
before the first of them. -/
def conversions (stored : List Stored) : ℕ :=
  stored.countP fun s => match s with
    | .position _ => false
    | _ => true

/-- The stored numbers, in order. -/
def numbers (stored : List Stored) : List ℕ :=
  stored.filterMap fun s => match s with
    | .number value => some value
    | _ => none

/-- The recorded positions, in order. -/
def positions (stored : List Stored) : List ℕ :=
  stored.filterMap fun s => match s with
    | .position offset => some offset
    | _ => none

/-! ## Reading numbers -/

/-- The character ends a number in the base. -/
def EndsNumber (base : ℕ) (c : Char) : Prop := isDigitIn base c = false ∧ c ≠ 'x' ∧ c ≠ 'X'

instance (base : ℕ) (c : Char) : Decidable (EndsNumber base c) :=
  inferInstanceAs (Decidable (_ ∧ _ ∧ _))

/-- White space, a sign or the letter of a prefix is no digit. -/
theorem digitValue_eq_none {c : Char}
    (h : isSpace c = true ∨ c = '-' ∨ c = '+' ∨ c = 'x' ∨ c = 'X') : digitValue c = none := by
  simp only [isSpace, Bool.or_eq_true, decide_eq_true_eq] at h
  obtain ((((((rfl | rfl) | rfl) | rfl) | rfl) | rfl) | rfl | rfl | rfl | rfl) := h <;> decide

/-- A digit is no white space. -/
theorem isSpace_of_digitValue {c : Char} {d : ℕ} (h : digitValue c = some d) :
    isSpace c = false := by
  rw [← Bool.not_eq_true]
  intro hspace
  rw [digitValue_eq_none (Or.inl hspace)] at h
  exact absurd h (by simp)

/-- Neither white space nor a sign is skipped before a digit. -/
theorem readSign_skipSpaces_digit {c : Char} {d : ℕ} (h : digitValue c = some d)
    (rest : List Char) : readSign (skipSpaces (c :: rest)) = (false, c :: rest) := by
  have hskip : skipSpaces (c :: rest) = c :: rest := by
    rw [skipSpaces, List.dropWhile_cons_of_neg (by simp [isSpace_of_digitValue h])]
  have hminus : c ≠ '-' := fun hc => by simp [digitValue_eq_none, hc] at h
  have hplus : c ≠ '+' := fun hc => by simp [digitValue_eq_none, hc] at h
  rw [hskip, readSign]
  · exact fun _ hc => hminus (List.cons.inj hc).1
  · exact fun _ hc => hplus (List.cons.inj hc).1

/-- No prefix is read where the second character is not its letter. -/
theorem readPrefix_eq_self {base : ℕ} {input : List Char}
    (h : ∀ c ∈ input.tail.head?, c ≠ 'x' ∧ c ≠ 'X') : readPrefix base input = input := by
  unfold readPrefix
  split
  · exact absurd rfl (h 'x' (by simp)).1
  · exact absurd rfl (h 'X' (by simp)).2
  · rfl

/-- A digit of a base has a value below it. -/
theorem exists_digitValue {base : ℕ} {c : Char} (h : isDigitIn base c = true) :
    ∃ d < base, digitValue c = some d := by
  obtain ⟨d, hvalue, hd⟩ := (Option.any_eq_true _ _).mp h
  exact ⟨d, by simpa using hd, hvalue⟩

/-- Digits are read up to the character that ends the number. -/
theorem readUnsigned_digits {base : ℕ} (bits : ℕ) {digits rest : List Char} (hne : digits ≠ [])
    (hdigits : ∀ c ∈ digits, isDigitIn base c = true)
    (hrest : ∀ c ∈ rest.head?, EndsNumber base c) :
    readUnsigned base bits (digits ++ rest) =
      some (storeUnsigned bits false (numeralValue base digits), rest) := by
  obtain ⟨c, more, rfl⟩ := List.exists_cons_of_ne_nil hne
  obtain ⟨d, -, hvalue⟩ := exists_digitValue (hdigits c List.mem_cons_self)
  have hletter : ∀ a ∈ (c :: more ++ rest).tail.head?, a ≠ 'x' ∧ a ≠ 'X' := by
    intro a ha
    cases more with
    | nil => exact (hrest a ha).2
    | cons b others =>
      obtain rfl : b = a := by simpa using ha
      obtain ⟨e, -, he⟩ := exists_digitValue (hdigits b (by simp))
      exact ⟨fun hx => by simp [digitValue_eq_none, hx] at he,
        fun hx => by simp [digitValue_eq_none, hx] at he⟩
  have hstop : rest.takeWhile (isDigitIn base) = [] ∧ rest.dropWhile (isDigitIn base) = rest := by
    cases rest with
    | nil => exact ⟨rfl, rfl⟩
    | cons a others =>
      have ha := (hrest a rfl).1
      exact ⟨by simp [ha], by simp [ha]⟩
  have hsign : readSign (skipSpaces (c :: more ++ rest)) = (false, c :: more ++ rest) :=
    readSign_skipSpaces_digit hvalue (more ++ rest)
  simp only [readUnsigned, hsign, readPrefix_eq_self hletter]
  rw [List.takeWhile_append_of_pos hdigits, List.dropWhile_append_of_pos hdigits, hstop.1, hstop.2,
    List.append_nil, if_neg hne]

/-- Nothing is read where the input begins with the digit of a larger base. -/
theorem readUnsigned_eq_none {base : ℕ} (bits : ℕ) (hbase : 0 < base) {c : Char} {d : ℕ}
    (h : digitValue c = some d) (hlarge : base ≤ d) (rest : List Char) :
    readUnsigned base bits (c :: rest) = none := by
  have hzero : c ≠ '0' := by
    intro hc
    rw [hc] at h
    have hd : d = 0 := (Option.some.inj h).symm
    omega
  have hself : readPrefix base (c :: rest) = c :: rest := by
    unfold readPrefix
    split
    case h_1 hinput => exact absurd (List.cons.inj hinput).1 hzero
    case h_2 hinput => exact absurd (List.cons.inj hinput).1 hzero
    case h_3 => rfl
  have hdigit : isDigitIn base c = false := by simp [isDigitIn, h, hlarge]
  simp only [readUnsigned, readSign_skipSpaces_digit h, hself]
  rw [List.takeWhile_cons_of_neg (by simp [hdigit]), if_pos rfl]

/-- Where a number of a larger base has a digit of its own, a conversion in the smaller base
reads nothing or stops at such a digit. -/
theorem readUnsigned_larger_base {base larger : ℕ} (bits : ℕ) (hbase : 0 < base)
    {digits : List Char} (hdigits : ∀ c ∈ digits, isDigitIn larger c = true)
    (hown : ¬ ∀ c ∈ digits, isDigitIn base c = true) (rest : List Char) :
    readUnsigned base bits (digits ++ rest) = none ∨
      ∃ value c d more, digitValue c = some d ∧ base ≤ d ∧
        readUnsigned base bits (digits ++ rest) = some (value, c :: more) := by
  have hsplit := @List.takeWhile_append_dropWhile _ (isDigitIn base) digits
  have hlow : ∀ c ∈ digits.takeWhile (isDigitIn base), isDigitIn base c = true :=
    fun c hc => List.mem_takeWhile_imp hc
  cases hhigh : digits.dropWhile (isDigitIn base) with
  | nil =>
    rw [hhigh, List.append_nil] at hsplit
    exact absurd (fun c hc => hlow c (hsplit.symm ▸ hc)) hown
  | cons c more =>
    have hmem : c ∈ digits := by
      rw [← hsplit, hhigh]
      simp
    have hc : isDigitIn base c = false := by
      simpa [hhigh] using List.head?_dropWhile_not (isDigitIn base) digits
    obtain ⟨d, -, hd⟩ := exists_digitValue (hdigits c hmem)
    have hlarge : base ≤ d := by simpa [isDigitIn, hd] using hc
    have hinput : digits ++ rest = digits.takeWhile (isDigitIn base) ++ (c :: (more ++ rest)) := by
      conv_lhs => rw [← hsplit, hhigh]
      simp
    rw [hinput]
    by_cases hempty : digits.takeWhile (isDigitIn base) = []
    · rw [hempty]
      exact Or.inl (readUnsigned_eq_none bits hbase hd hlarge _)
    · have hletter : c ≠ 'x' ∧ c ≠ 'X' :=
        ⟨fun hx => by simp [digitValue_eq_none, hx] at hd,
          fun hx => by simp [digitValue_eq_none, hx] at hd⟩
      have hends : ∀ a ∈ (c :: (more ++ rest)).head?, EndsNumber base a :=
        fun a ha => Option.some.inj ha ▸ ⟨hc, hletter⟩
      exact Or.inr ⟨_, c, d, _, hd, hlarge, readUnsigned_digits bits hempty hlow hends⟩

/-! ## Reading the rest of a format -/

/-- A word shorter than the width is read up to the white space after it. -/
theorem readWord_visible {width : ℕ} {chars rest : List Char} {c : Char} (hne : chars ≠ [])
    (hwidth : chars.length < width) (hvisible : ∀ a ∈ chars, isSpace a = false)
    (hc : isSpace c = true) :
    readWord width (chars ++ c :: rest) = some (chars, c :: rest) := by
  have hskip : skipSpaces (chars ++ c :: rest) = chars ++ c :: rest := by
    obtain ⟨a, more, rfl⟩ := List.exists_cons_of_ne_nil hne
    exact List.dropWhile_cons_of_neg (by simp [hvisible a List.mem_cons_self])
  have htake : (chars ++ c :: rest).take width =
      chars ++ (c :: rest).take (width - chars.length) := by
    rw [List.take_append, List.take_of_length_le (Nat.le_of_lt hwidth)]
  have hword : ((chars ++ c :: rest).take width).takeWhile (fun a => !isSpace a) = chars := by
    obtain ⟨n, hn⟩ := Nat.exists_eq_add_of_lt hwidth
    rw [htake, List.takeWhile_append_of_pos (by simpa using hvisible)]
    have hleft : width - chars.length = n + 1 := by omega
    simp [hleft, hc]
  simp only [readWord, hskip, hword, if_neg hne, List.drop_left]

/-- White space is skipped up to the first visible character. -/
theorem skipSpaces_append {spaces rest : List Char} (hspaces : ∀ c ∈ spaces, isSpace c = true)
    (hrest : ∀ c ∈ rest.head?, isSpace c = false) : skipSpaces (spaces ++ rest) = rest := by
  rw [skipSpaces, List.dropWhile_append_of_pos hspaces]
  cases rest with
  | nil => rfl
  | cons c more => exact List.dropWhile_cons_of_neg (by simp [hrest c rfl])

/-- A value that fits is stored as it is. -/
theorem storeUnsigned_of_lt {bits value : ℕ} (hbits : bits ≤ 64) (hvalue : value < 2 ^ bits) :
    storeUnsigned bits false value = value := by
  have hword : value < 2 ^ 64 := Nat.lt_of_lt_of_le hvalue (Nat.pow_le_pow_right (by decide) hbits)
  rw [storeUnsigned, if_neg (by omega)]
  exact Nat.mod_eq_of_lt hvalue

/-- An unsigned conversion reads back a printed number that fits its variable. -/
theorem scanFrom_printNumeral {base bits width value : ℕ} (hbase : 1 < base) (hsixteen : base ≤ 16)
    (hbits : bits ≤ 64) (hvalue : value < 2 ^ bits) {rest : List Char}
    (hrest : ∀ c ∈ rest.head?, EndsNumber base c) (total : ℕ) (format : List Directive) :
    scanFrom total (.unsigned base bits :: format) (printNumeral base width value ++ rest) =
      .number value :: scanFrom total format rest := by
  rw [scanFrom, readUnsigned_digits bits (printNumeral_ne_nil base width value)
    (fun c hc => isDigitIn_of_mem_printNumeral hbase hsixteen hc) hrest,
    numeralValue_printNumeral hbase hsixteen, storeUnsigned_of_lt hbits hvalue]

/-- A blank of the format matches one blank before a visible character. -/
theorem scanFrom_space (total : ℕ) (format : List Directive) {rest : List Char}
    (hrest : ∀ c ∈ rest.head?, isSpace c = false) :
    scanFrom total (.space :: format) (' ' :: rest) = scanFrom total format rest := by
  rw [scanFrom, show ' ' :: rest = [' '] ++ rest from rfl,
    skipSpaces_append (by simp [isSpace]) hrest]

/-- A printed number begins with a visible character. -/
theorem head_printNumeral_visible {base width value : ℕ} (hbase : 1 < base) (hsixteen : base ≤ 16)
    (rest : List Char) :
    ∀ c ∈ (printNumeral base width value ++ rest).head?, isSpace c = false := by
  intro c hc
  rw [List.head?_append_of_ne_nil _ (printNumeral_ne_nil base width value)] at hc
  obtain ⟨d, -, hd⟩ := exists_digitValue
    (isDigitIn_of_mem_printNumeral hbase hsixteen (List.mem_of_mem_head? hc))
  exact isSpace_of_digitValue hd

end Common
