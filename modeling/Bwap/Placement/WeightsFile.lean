import Bwap.Common.Fallible
import Bwap.Common.Tokens
import Mathlib.Data.Rat.Defs

/-!
# Reading the weights

`read_weights` sorts a file and stores one record for each of its lines, however many there are
and whatever they hold. It keeps inside `nodes_info`, and fills it, exactly for a file of
`MAX_NODES` lines with two tokens each. The two number conversions of the C library and the
order in which `sort` leaves the lines are parameters: nothing depends on them.
-/

namespace Bwap

open Common

/-- A `RECORD` as it is stored, with any `int` for the node number. -/
structure StoredRecord where
  id : ℤ
  weight : ℚ
deriving DecidableEq

/-- What goes wrong with a line: a null token is passed on, or a record is stored outside the
table. -/
inductive WeightsFault
  | nullToken
  | outOfBounds
deriving DecidableEq, Repr

/-- How a call of `read_weights` ends. -/
inductive WeightsRun
  | exited (message : String)
  | faulted (fault : WeightsFault)
  | returned (nodesInfo : List StoredRecord)
deriving DecidableEq

/-- A line as the functions for strings see it: up to the first null character. -/
def cString (line : List Char) : List Char := line.takeWhile (· ≠ Char.ofNat 0)

section Parameters

variable (atof : List Char → ℚ) (atoi : List Char → ℤ)
  (sort : List (List Char) → List (List Char))

/-- One pass of the loop of `read_weights`, with `j` records stored before. -/
def readWeightsLine (state : ℕ × List StoredRecord) (line : List Char) :
    Except WeightsFault (ℕ × List StoredRecord) :=
  let (j, nodesInfo) := state
  let (token, rest) := nextToken ' ' (cString line)
  match token with
  | none => .error .nullToken
  | some token =>
    if j < nodesInfo.length then
      let nodesInfo := nodesInfo.modify j fun node => { node with weight := atof token }
      match (nextToken ' ' rest).1 with
      | none => .error .nullToken
      | some token =>
        .ok (j + 1, nodesInfo.modify j fun node => { node with id := atoi token })
    else .error .outOfBounds

/-- The lines of a file, without the characters that end them. -/
def fileLines (content : List Char) : List (List Char) :=
  (readLines '\n' content).map (chomp '\n')

/-- A file after `sort -n -o`: its lines in some order, each one ended. -/
def sortFile (content : List Char) : List Char := (sort (fileLines content)).flatMap (· ++ ['\n'])

/-- `read_weights`, from the value that `system` returns, the file that `fopen` opens, if any, as it
is before it is sorted, and the table it finds. -/
def readWeights (retcode : ℤ) (opened : Option (List Char)) (nodesInfo : List StoredRecord) :
    WeightsRun :=
  if retcode = -1 then .exited "Unable to sort the weights!"
  else match opened with
    | none => .exited "Weights have not been provided, empty file or wrong file name!\n"
    | some content =>
      match (readLines '\n' (sortFile sort content)).foldlM (readWeightsLine atof atoi)
        (0, nodesInfo) with
      | .error fault => .faulted fault
      | .ok (_, nodesInfo) => .returned nodesInfo

/-! ## The records of a file -/

/-- The record of a line, if it has two tokens. -/
def lineRecord (line : List Char) : Option StoredRecord :=
  let (first, rest) := nextToken ' ' (cString (line ++ ['\n']))
  match first, (nextToken ' ' rest).1 with
  | some weight, some id => some ⟨atoi id, atof weight⟩
  | _, _ => none

/-- A line has two tokens: a blank stands between two other characters. -/
def TwoTokens (line : List Char) : Prop :=
  ∃ a b, a ≠ ' ' ∧ b ≠ ' ' ∧ [a, ' ', b].Sublist (cString (line ++ ['\n']))

/-- The call ends the process with a message, or it returns with a table that holds exactly the
records of the lines of the file. -/
def ReadSafely (opened : Option (List Char)) (nodesInfo : List StoredRecord) (run : WeightsRun) :
    Prop :=
  (∃ message, run = .exited message) ∨
    ∃ content records, opened = some content ∧ run = .returned records ∧
      records.length = nodesInfo.length ∧
      (records.map some).Perm ((fileLines content).map (lineRecord atof atoi))

end Parameters

section Loop

variable {atof : List Char → ℚ} {atoi : List Char → ℤ}

/-- A line has a record exactly when it has two tokens. -/
theorem lineRecord_isSome_iff (line : List Char) :
    (lineRecord atof atoi line).isSome ↔ TwoTokens line := by
  rw [TwoTokens, ← second_isSome_iff, lineRecord]
  cases hfirst : nextToken ' ' (cString (line ++ ['\n'])) with
  | mk first rest =>
    cases first with
    | none =>
      have hrest : rest = [] := by
        have hnone := nextToken_of_none (congrArg Prod.fst hfirst)
        rw [hfirst] at hnone
        exact congrArg Prod.snd hnone
      simp [hrest, nextToken]
    | some weight =>
      cases hsecond : (nextToken ' ' rest).1 with
      | none => simp [hsecond]
      | some id => simp [hsecond]

/-- A pass succeeds exactly when its line has a record and the table has room for it. -/
theorem readWeightsLine_eq_ok_iff {j : ℕ} {nodesInfo : List StoredRecord} {line : List Char}
    {state : ℕ × List StoredRecord} :
    readWeightsLine atof atoi (j, nodesInfo) (line ++ ['\n']) = .ok state ↔
      ∃ record, lineRecord atof atoi line = some record ∧ j < nodesInfo.length ∧
        state = (j + 1, nodesInfo.set j record) := by
  have hstore (weight id : List Char) :
      (nodesInfo.modify j fun node => { node with weight := atof weight }).modify j
        (fun node => { node with id := atoi id }) = nodesInfo.set j ⟨atoi id, atof weight⟩ := by
    refine List.ext_getElem (by simp) fun i hi _ => ?_
    rw [List.getElem_modify, List.getElem_modify, List.getElem_set]
    split_ifs <;> rfl
  rw [readWeightsLine, lineRecord]
  cases hfirst : nextToken ' ' (cString (line ++ ['\n'])) with
  | mk first rest =>
    cases first with
    | none => simp
    | some weight =>
      by_cases hj : j < nodesInfo.length
      · cases hsecond : (nextToken ' ' rest).1 with
        | none => simp [hsecond, hj]
        | some id => simp [hsecond, hj, hstore, eq_comm]
      · simp [hj]

/-- The table after one record and then others. -/
theorem take_set_append (nodesInfo : List StoredRecord) {j : ℕ} (hj : j < nodesInfo.length)
    (record : StoredRecord) (records : List StoredRecord) (n : ℕ) :
    (nodesInfo.set j record).take (j + 1) ++ records ++ (nodesInfo.set j record).drop (j + 1 + n) =
      nodesInfo.take j ++ (record :: records) ++ nodesInfo.drop (j + (n + 1)) := by
  have hset : j < (nodesInfo.set j record).length := by rwa [List.length_set]
  have hcount : j + 1 + n = j + (n + 1) := by omega
  rw [List.take_succ_eq_append_getElem hset, List.getElem_set_self, List.take_set_of_le le_rfl,
    List.drop_set_of_lt (by omega), hcount, List.append_assoc (nodesInfo.take j),
    List.singleton_append]

/-- The loop succeeds exactly when every line has a record and the table has room for all of them,
and then it has stored them in order. -/
theorem foldlM_readWeightsLine_iff {lines : List (List Char)} {j : ℕ}
    {nodesInfo : List StoredRecord} (hj : j ≤ nodesInfo.length) {state : ℕ × List StoredRecord} :
    (lines.map (· ++ ['\n'])).foldlM (readWeightsLine atof atoi) (j, nodesInfo) = .ok state ↔
      ∃ records, lines.map (lineRecord atof atoi) = records.map some ∧
        j + lines.length ≤ nodesInfo.length ∧ state = (j + lines.length,
          nodesInfo.take j ++ records ++ nodesInfo.drop (j + lines.length)) := by
  induction lines generalizing j nodesInfo with
  | nil =>
    have hdone : nodesInfo.take j ++ nodesInfo.drop j = nodesInfo := List.take_append_drop j _
    apply Iff.intro
    · intro h
      exact ⟨[], rfl, hj, by simpa [hdone, eq_comm] using h⟩
    · intro h
      obtain ⟨records, hrecords, -, rfl⟩ := h
      obtain rfl : records = [] := List.map_eq_nil_iff.mp hrecords.symm
      simp [hdone]
  | cons line lines ih =>
    have hnext (hroom : j < nodesInfo.length) (record : StoredRecord) :
        j + 1 ≤ (nodesInfo.set j record).length := by rwa [List.length_set]
    have hstate (hroom : j < nodesInfo.length) (record : StoredRecord)
        (records : List StoredRecord) : (j + 1 + lines.length,
          (nodesInfo.set j record).take (j + 1) ++ records ++
            (nodesInfo.set j record).drop (j + 1 + lines.length)) =
          (j + (line :: lines).length, nodesInfo.take j ++ (record :: records) ++
            nodesInfo.drop (j + (line :: lines).length)) := by
      rw [take_set_append nodesInfo hroom, List.length_cons, Nat.add_right_comm j 1, Nat.add_assoc]
    rw [List.map_cons, foldlM_cons_eq_ok_iff]
    apply Iff.intro
    · intro h
      obtain ⟨next, hfirst, hrest⟩ := h
      obtain ⟨record, hrecord, hroom, rfl⟩ := readWeightsLine_eq_ok_iff.mp hfirst
      obtain ⟨records, hrecords, hfits, rfl⟩ := (ih (hnext hroom record)).mp hrest
      rw [List.length_set] at hfits
      refine ⟨record :: records, by simp [hrecord, hrecords], ?_, hstate hroom record records⟩
      rw [List.length_cons]
      omega
    · intro h
      obtain ⟨all, hall, hfits, rfl⟩ := h
      cases all with
      | nil => simp at hall
      | cons record records =>
        rw [List.map_cons, List.map_cons, List.cons.injEq] at hall
        rw [List.length_cons] at hfits
        have hroom : j < nodesInfo.length := by omega
        have hfits' : j + 1 + lines.length ≤ (nodesInfo.set j record).length := by
          rw [List.length_set]
          omega
        exact ⟨_, readWeightsLine_eq_ok_iff.mpr ⟨record, hall.1, hroom, rfl⟩,
          (ih (hnext hroom record)).mpr
            ⟨records, hall.2, hfits', (hstate hroom record records).symm⟩⟩

end Loop

/-- Entries that are all there, taken out and put back. -/
theorem map_some_pmap {entries : List (Option StoredRecord)}
    (h : ∀ entry ∈ entries, entry.isSome) : (entries.pmap Option.get h).map some = entries := by
  simp [List.map_pmap]

/-- A file after the sort is read as its lines in that order. -/
theorem readLines_sortFile {sort : List (List Char) → List (List Char)}
    (hsort : ∀ lines, (sort lines).Perm lines) (content : List Char) :
    readLines '\n' (sortFile sort content) = (sort (fileLines content)).map (· ++ ['\n']) := by
  refine readLines_flatMap fun line hline => ?_
  obtain ⟨whole, -, rfl⟩ := List.mem_map.mp ((hsort _).mem_iff.mp hline)
  exact notMem_chomp '\n' whole

section File

variable {atof : List Char → ℚ} {atoi : List Char → ℤ}
  {sort : List (List Char) → List (List Char)} (hsort : ∀ lines, (sort lines).Perm lines)
  {retcode : ℤ} (hretcode : retcode ≠ -1) {content : List Char} {nodesInfo : List StoredRecord}

include hretcode in
/-- Once the file is open, there is no message. -/
theorem readWeights_ne_exited (message : String) :
    readWeights atof atoi sort retcode (some content) nodesInfo ≠ .exited message := by
  simp only [readWeights, if_neg hretcode]
  split <;> simp

include hsort hretcode in
/-- The call returns exactly when every line has a record and the table has room for all of them;
they come first in the table, in the order of the sorted file. -/
theorem readWeights_eq_returned_iff {table : List StoredRecord} :
    readWeights atof atoi sort retcode (some content) nodesInfo = .returned table ↔
      ∃ records, (sort (fileLines content)).map (lineRecord atof atoi) = records.map some ∧
        (fileLines content).length ≤ nodesInfo.length ∧
        table = records ++ nodesInfo.drop (fileLines content).length := by
  have hrun (state : ℕ × List StoredRecord) :
      ((sort (fileLines content)).map (· ++ ['\n'])).foldlM (readWeightsLine atof atoi)
        (0, nodesInfo) = .ok state ↔ _ := foldlM_readWeightsLine_iff (Nat.zero_le _)
  simp only [(hsort (fileLines content)).length_eq, Nat.zero_add, List.take_zero,
    List.nil_append] at hrun
  simp only [readWeights, if_neg hretcode, readLines_sortFile hsort content]
  cases hloop : ((sort (fileLines content)).map (· ++ ['\n'])).foldlM
      (readWeightsLine atof atoi) (0, nodesInfo) with
  | error fault =>
    refine iff_of_false (by simp) fun h => ?_
    obtain ⟨records, hrecords, hfits, -⟩ := h
    have hreturns := (hrun _).mpr ⟨records, hrecords, hfits, rfl⟩
    exact absurd (hloop.symm.trans hreturns) (by simp)
  | ok state =>
    obtain ⟨records, hrecords, hfits, rfl⟩ := (hrun state).mp hloop
    apply Iff.intro
    · intro h
      exact ⟨records, hrecords, hfits, (WeightsRun.returned.inj h).symm⟩
    · intro h
      obtain ⟨records', hrecords', -, rfl⟩ := h
      have hsame : records = records' :=
        List.map_injective_iff.mpr (fun _ _ => Option.some.inj) (hrecords.symm.trans hrecords')
      rw [hsame]

end File

/-- `read_weights` exits with a message, or returns with exactly the records of the file in the
table, just when it can start `sort` but not open the file, or cannot start it, or the file has
as many lines as the table has records and each of them has two tokens. -/
theorem readWeights_safe_iff (atof : List Char → ℚ) (atoi : List Char → ℤ)
    (sort : List (List Char) → List (List Char)) (hsort : ∀ lines, (sort lines).Perm lines)
    (retcode : ℤ) (opened : Option (List Char)) (nodesInfo : List StoredRecord) :
    ReadSafely atof atoi opened nodesInfo (readWeights atof atoi sort retcode opened nodesInfo) ↔
      retcode = -1 ∨ ∀ content, opened = some content →
        (fileLines content).length = nodesInfo.length ∧
          ∀ line ∈ fileLines content, TwoTokens line := by
  by_cases hretcode : retcode = -1
  · simp only [readWeights, if_pos hretcode]
    exact iff_of_true (Or.inl ⟨_, rfl⟩) (Or.inl hretcode)
  · rw [or_iff_right hretcode]
    cases opened with
    | none =>
      simp only [readWeights, if_neg hretcode]
      exact iff_of_true (Or.inl ⟨_, rfl⟩) (by simp)
    | some content =>
      have hperm := hsort (fileLines content)
      apply Iff.intro
      · intro hsafe content' hsame
        obtain rfl := Option.some.inj hsame
        rcases hsafe with ⟨message, hexit⟩ | ⟨file, table, hfile, -, hfull, htable⟩
        · exact absurd hexit (readWeights_ne_exited hretcode message)
        · obtain rfl := Option.some.inj hfile
          have hcount := htable.length_eq
          rw [List.length_map, List.length_map, hfull] at hcount
          refine ⟨hcount.symm, fun line hline => ?_⟩
          have hmem := htable.symm.subset (List.mem_map_of_mem hline)
          obtain ⟨record, -, hrecord⟩ := List.mem_map.mp hmem
          exact (lineRecord_isSome_iff line).mp (by rw [← hrecord, Option.isSome_some])
      · intro hcondition
        obtain ⟨hcount, htokens⟩ := hcondition content rfl
        have hsome : ∀ entry ∈ (sort (fileLines content)).map (lineRecord atof atoi),
            entry.isSome := by
          intro entry hentry
          obtain ⟨line, hline, rfl⟩ := List.mem_map.mp hentry
          exact (lineRecord_isSome_iff line).mpr (htokens line (hperm.mem_iff.mp hline))
        obtain ⟨records, hrecords⟩ : ∃ records : List StoredRecord, records.map some =
            (sort (fileLines content)).map (lineRecord atof atoi) :=
          ⟨_, map_some_pmap hsome⟩
        have hreturns := (readWeights_eq_returned_iff hsort hretcode).mpr
          ⟨records, hrecords.symm, hcount.le, rfl⟩
        have hfull : records.length = nodesInfo.length := by
          have hlengths := congrArg List.length hrecords
          rw [List.length_map, List.length_map, hperm.length_eq] at hlengths
          omega
        rw [List.drop_of_length_le hcount.ge, List.append_nil] at hreturns
        exact Or.inr ⟨content, records, rfl, hreturns, hfull, hrecords ▸ hperm.map _⟩

/-- Two lines and a table of two records. -/
theorem readWeights_safe_two_lines :
    let atof : List Char → ℚ := fun token => if token = ['4', '0'] then 40 else 60
    let atoi : List Char → ℤ := fun token => if token = ['1', '\n'] then 1 else 0
    let opened := some ['4', '0', ' ', '1', '\n', '6', '0', ' ', '0']
    ReadSafely atof atoi opened [⟨0, 0⟩, ⟨0, 0⟩]
      (readWeights atof atoi id 0 opened [⟨0, 0⟩, ⟨0, 0⟩]) := by
  intro atof atoi opened
  refine (readWeights_safe_iff atof atoi id (fun _ => .refl _) 0 opened _).mpr (Or.inr ?_)
  intro content hcontent
  obtain rfl := Option.some.inj hcontent
  have hlines : fileLines ['4', '0', ' ', '1', '\n', '6', '0', ' ', '0'] =
      [['4', '0', ' ', '1'], ['6', '0', ' ', '0']] := by decide
  rw [hlines]
  refine ⟨rfl, List.forall_mem_cons.mpr ⟨⟨'0', '1', by decide, by decide, by decide⟩,
    List.forall_mem_singleton.mpr ⟨'0', '0', by decide, by decide, by decide⟩⟩⟩

/-- The eight lines that the generator of weights writes, and a table of two records: the third
record is stored behind it. -/
theorem readWeights_eight_lines :
    let atof : List Char → ℚ := fun _ => 25 / 2
    let atoi : List Char → ℤ := fun token => (token.head?.elim 0 fun c => c.toNat - 48 : ℕ)
    let opened := some ((List.range 8).flatMap fun i =>
      ['1', '2', '.', '5', ' ', Char.ofNat (48 + i), '\n'])
    readWeights atof atoi id 0 opened [⟨0, 0⟩, ⟨0, 0⟩] = .faulted .outOfBounds ∧
      ¬ReadSafely atof atoi opened [⟨0, 0⟩, ⟨0, 0⟩]
        (readWeights atof atoi id 0 opened [⟨0, 0⟩, ⟨0, 0⟩]) := by
  intro atof atoi opened
  have hrun : readWeights atof atoi id 0 opened [⟨0, 0⟩, ⟨0, 0⟩] = .faulted .outOfBounds := by
    decide +kernel
  refine ⟨hrun, fun hsafe => ?_⟩
  rw [hrun] at hsafe
  rcases hsafe with ⟨message, hexit⟩ | ⟨content, records, -, hreturn, -⟩
  · simp at hexit
  · simp at hreturn

end Bwap
