import Mathlib.Data.List.Basic
import Mathlib.Data.List.TakeWhile

/-!
# Lines and tokens

A text is read line by line, each line with its terminator; the last line may lack one. A token
of a line is taken as `strtok_r` does: after any delimiters, up to the next delimiter, which is
consumed too. A line has a second token exactly when a delimiter stands between two other
characters.
-/

namespace Common

variable {α : Type*} [DecidableEq α]

/-! ## Lines -/

/-- The lines of a text, each with its terminator; the last one may lack it. -/
def readLines (stop : α) : List α → List (List α)
  | [] => []
  | c :: rest =>
    if c = stop then [c] :: readLines stop rest
    else match readLines stop rest with
      | [] => [[c]]
      | line :: more => (c :: line) :: more

/-- A line without its terminator. -/
def chomp (stop : α) (line : List α) : List α := line.takeWhile (· ≠ stop)

/-- What is left has no terminator. -/
theorem notMem_chomp (stop : α) (line : List α) : stop ∉ chomp stop line := by
  intro hmem
  have hother := List.mem_takeWhile_imp hmem
  simp at hother

/-- A terminated line is read first. -/
theorem readLines_append {stop : α} {line : List α} (hline : stop ∉ line) (rest : List α) :
    readLines stop (line ++ stop :: rest) = (line ++ [stop]) :: readLines stop rest := by
  induction line with
  | nil => simp [readLines]
  | cons c line ih =>
    rw [List.mem_cons, not_or] at hline
    rw [List.cons_append, readLines, if_neg (Ne.symm hline.1), ih hline.2]
    rfl

/-- A text of terminated lines is read as these lines. -/
theorem readLines_flatMap {stop : α} {lines : List (List α)}
    (hlines : ∀ line ∈ lines, stop ∉ line) :
    readLines stop (lines.flatMap (· ++ [stop])) = lines.map (· ++ [stop]) := by
  induction lines with
  | nil => rfl
  | cons line lines ih =>
    rw [List.forall_mem_cons] at hlines
    rw [List.flatMap_cons, List.append_assoc, List.singleton_append,
      readLines_append hlines.1, ih hlines.2, List.map_cons]

/-- Without its terminator, a line is what stands before it. -/
theorem chomp_append {stop : α} {line : List α} (hline : stop ∉ line) :
    chomp stop (line ++ [stop]) = line := by
  induction line with
  | nil => simp [chomp]
  | cons c line ih =>
    rw [List.mem_cons, not_or] at hline
    rw [chomp, List.cons_append, List.takeWhile_cons_of_pos (by simpa using Ne.symm hline.1)]
    exact congrArg (c :: ·) (ih hline.2)

/-! ## Tokens -/

/-- `strtok_r` with one delimiter: the next token, if there is one, and where the search goes on. -/
def nextToken (delimiter : α) (text : List α) : Option (List α) × List α :=
  let token := text.dropWhile (· = delimiter)
  if token = [] then (none, [])
  else (some (token.takeWhile (· ≠ delimiter)), (token.dropWhile (· ≠ delimiter)).drop 1)

/-- What stands in front of a delimiter is the first token. -/
theorem nextToken_append {delimiter : α} {token : List α} (hne : token ≠ [])
    (htoken : delimiter ∉ token) (rest : List α) :
    nextToken delimiter (token ++ delimiter :: rest) = (some token, rest) := by
  have hkept : ∀ c ∈ token, decide (c ≠ delimiter) = true := fun c hc => by
    simpa using fun h : c = delimiter => htoken (h ▸ hc)
  obtain ⟨c, more, rfl⟩ := List.exists_cons_of_ne_nil hne
  have hskip (tail : List α) : (c :: tail).dropWhile (· = delimiter) = c :: tail :=
    List.dropWhile_cons_of_neg (by simpa using hkept c List.mem_cons_self)
  simp only [nextToken]
  rw [List.cons_append, hskip, ← List.cons_append, List.takeWhile_append_of_pos hkept,
    List.dropWhile_append_of_pos hkept, if_neg (by simp), List.takeWhile_cons_of_neg (by simp),
    List.dropWhile_cons_of_neg (by simp), List.append_nil, List.drop_one, List.tail_cons]

/-- A text without a delimiter is a token. -/
theorem nextToken_last {delimiter : α} {token : List α} (hne : token ≠ [])
    (htoken : delimiter ∉ token) : nextToken delimiter token = (some token, []) := by
  have hkept : ∀ c ∈ token, decide (c ≠ delimiter) = true := fun c hc => by
    simpa using fun h : c = delimiter => htoken (h ▸ hc)
  obtain ⟨c, more, rfl⟩ := List.exists_cons_of_ne_nil hne
  have hskip : (c :: more).dropWhile (· = delimiter) = c :: more :=
    List.dropWhile_cons_of_neg (by simpa using hkept c List.mem_cons_self)
  simp only [nextToken]
  rw [hskip, if_neg (by simp), List.takeWhile_eq_self_iff.mpr hkept,
    List.dropWhile_eq_nil_iff.mpr hkept, List.drop_nil]

/-- There is a token exactly when there is a character other than the delimiter. -/
theorem nextToken_isSome_iff (delimiter : α) (text : List α) :
    (nextToken delimiter text).1.isSome ↔ ∃ c ∈ text, c ≠ delimiter := by
  have hnone : text.dropWhile (· = delimiter) = [] ↔ ∀ c ∈ text, c = delimiter := by
    simp [List.dropWhile_eq_nil_iff]
  simp only [nextToken]
  by_cases hempty : text.dropWhile (· = delimiter) = []
  · rw [if_pos hempty]
    simpa using hnone.mp hempty
  · rw [if_neg hempty]
    simpa using hnone.not.mp hempty

omit [DecidableEq α] in
/-- Dropping stops at an entry that is not to be dropped. -/
theorem head_of_dropWhile_eq {p : α → Bool} {text rest : List α} {c : α}
    (h : text.dropWhile p = c :: rest) : p c = false := by
  have hhead := List.head?_dropWhile_not p text
  rwa [h] at hhead

omit [DecidableEq α] in
/-- Dropping a prefix keeps what starts after it. -/
theorem sublist_dropWhile {p : α → Bool} {a : α} (ha : p a = false) {l text : List α}
    (h : (a :: l).Sublist text) : (a :: l).Sublist (text.dropWhile p) := by
  induction text with
  | nil => exact h
  | cons c rest ih =>
    by_cases hc : p c = true
    · rw [List.dropWhile_cons_of_pos hc]
      cases h with
      | cons _ hrest => exact ih hrest
      | cons_cons _ _ => exact absurd hc (by simp [ha])
    · rwa [List.dropWhile_cons_of_neg hc]

/-- Where there is no token, nothing is left to search. -/
theorem nextToken_of_none {delimiter : α} {text : List α}
    (h : (nextToken delimiter text).1 = none) : nextToken delimiter text = (none, []) := by
  simp only [nextToken] at h ⊢
  by_cases hempty : text.dropWhile (· = delimiter) = []
  · rw [if_pos hempty]
  · rw [if_neg hempty] at h
    exact absurd h (by simp)

/-- What comes after the first delimiter of a text comes after a delimiter of it. -/
theorem sublist_of_mem_tail_dropWhile {delimiter b : α} {text : List α}
    (hb : b ∈ (text.dropWhile (· ≠ delimiter)).tail) : [delimiter, b].Sublist text := by
  have hne : text.dropWhile (· ≠ delimiter) ≠ [] := by
    intro hnil
    rw [hnil] at hb
    exact absurd hb List.not_mem_nil
  obtain ⟨c, more, hmore⟩ := List.exists_cons_of_ne_nil hne
  have hc : c = delimiter := by simpa using head_of_dropWhile_eq hmore
  have hpair : [delimiter, b].Sublist (text.dropWhile (· ≠ delimiter)) := by
    rw [hmore, List.tail_cons] at hb
    rw [hmore, hc]
    exact (List.singleton_sublist.mpr hb).cons_cons delimiter
  exact hpair.trans (List.dropWhile_sublist _)

/-- There is a second token exactly when a delimiter stands between two other characters. -/
theorem second_isSome_iff (delimiter : α) (text : List α) :
    (nextToken delimiter (nextToken delimiter text).2).1.isSome ↔
      ∃ a b, a ≠ delimiter ∧ b ≠ delimiter ∧ [a, delimiter, b].Sublist text := by
  rw [nextToken_isSome_iff]
  let token := text.dropWhile (· = delimiter)
  let after := token.dropWhile (· ≠ delimiter)
  have hrest : (nextToken delimiter text).2 = if token = [] then [] else after.tail := by
    simp only [nextToken, token, after, List.drop_one]
    split_ifs with hempty
    · rfl
    · rfl
  rw [hrest]
  apply Iff.intro
  · intro h
    obtain ⟨b, hb, hb'⟩ := h
    by_cases hempty : token = []
    · rw [if_pos hempty] at hb
      exact absurd hb List.not_mem_nil
    · rw [if_neg hempty] at hb
      obtain ⟨a, rest, htoken⟩ := List.exists_cons_of_ne_nil hempty
      have ha : a ≠ delimiter := by simpa using head_of_dropWhile_eq htoken
      have hafter : after = rest.dropWhile (· ≠ delimiter) := by
        simp only [after, htoken]
        rw [List.dropWhile_cons_of_pos (by simpa using ha)]
      rw [hafter] at hb
      have htriple : [a, delimiter, b].Sublist token := by
        rw [htoken]
        exact (sublist_of_mem_tail_dropWhile hb).cons_cons a
      exact ⟨a, b, ha, hb', htriple.trans (List.dropWhile_sublist _)⟩
  · intro h
    obtain ⟨a, b, ha, hb, hsub⟩ := h
    have htoken : [a, delimiter, b].Sublist token := sublist_dropWhile (by simpa using ha) hsub
    have hafter : [delimiter, b].Sublist after :=
      sublist_dropWhile (by simp) ((List.sublist_cons_self _ _).trans htoken)
    have hempty : token ≠ [] := by
      rintro hnil
      rw [hnil] at htoken
      exact absurd htoken.length_le (by simp)
    rw [if_neg hempty]
    exact ⟨b, hafter.tail.subset List.mem_cons_self, hb⟩

end Common
