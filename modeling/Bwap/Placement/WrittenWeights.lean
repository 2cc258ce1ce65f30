import Bwap.Common.Decimals
import Bwap.Placement.WeightsFile

/-!
# Weights written and read back

The search writes the weights of the nodes to a file, one line for each with its weight in tenths
and its number, and the library reads them back after sorting. It gets every node with its weight
rounded to a tenth, in ascending order, if its table has room for all of them.
-/

namespace Bwap

open Common

/-- What `insert_file` prints for node `i`. -/
def weightsLine (i : ℕ) (weight : ℚ) : List Char :=
  printTenths weight ++ ' ' :: printNumeral 10 1 i

/-- The file that `insert_file` writes. -/
def insertFile (weights : List ℚ) : List Char :=
  weights.zipIdx.flatMap fun entry => weightsLine entry.2 entry.1 ++ ['\n']

/-- The records the file stands for. -/
def writtenRecords (weights : List ℚ) : List StoredRecord :=
  weights.zipIdx.map fun entry => ⟨entry.2, toTenth entry.1⟩

/-! ## A line -/

/-- No character of a line ends it or ends a text. -/
theorem visible_of_mem_weightsLine {i : ℕ} {weight : ℚ} {c : Char}
    (hc : c ∈ weightsLine i weight) : c ≠ '\n' ∧ c ≠ Char.ofNat 0 := by
  rcases List.mem_append.mp hc with hweight | hrest
  · exact (visible_of_mem_printTenths hweight).2
  · rcases List.mem_cons.mp hrest with rfl | hnumber
    · decide
    · exact (visible_of_mem_printNumeral hnumber).2

/-- A line is read as the number of its node and the tenth of its weight. -/
theorem lineRecord_weightsLine {i : ℕ} (hi : i < 2 ^ 31) (weight : ℚ) :
    lineRecord atof atoi (weightsLine i weight) = some ⟨i, toTenth weight⟩ := by
  have hstring : cString (weightsLine i weight ++ ['\n']) =
      printTenths weight ++ ' ' :: (printNumeral 10 1 i ++ ['\n']) := by
    rw [cString, List.takeWhile_eq_self_iff.mpr, weightsLine, List.append_assoc, List.cons_append]
    intro c hc
    rcases List.mem_append.mp hc with hline | hend
    · simpa using (visible_of_mem_weightsLine hline).2
    · obtain rfl := List.mem_singleton.mp hend
      decide
  have hfirst := nextToken_append (printTenths_ne_nil weight)
    (fun h => (visible_of_mem_printTenths h).1 rfl) (printNumeral 10 1 i ++ ['\n'])
  have hnumber : ' ' ∉ printNumeral 10 1 i ++ ['\n'] := by
    intro h
    rcases List.mem_append.mp h with hnumber | hend
    · exact (visible_of_mem_printNumeral hnumber).1 rfl
    · exact absurd (List.mem_singleton.mp hend) (by decide)
  have hlast := nextToken_last (by simp) hnumber
  have hid := @atoi_printNumeral i hi ['\n'] (by simp; decide)
  rw [lineRecord, hstring, hfirst]
  simp only [hlast, hid, atof_printTenths]

/-- A line is sorted by the tenth of its weight. -/
theorem sortKey_weightsLine (i : ℕ) (weight : ℚ) :
    sortKey (weightsLine i weight) = toTenth weight :=
  sortKey_printTenths weight (by simp; decide)

/-! ## The file -/

/-- The lines of the file. -/
theorem fileLines_insertFile (weights : List ℚ) :
    fileLines (insertFile weights) =
      weights.zipIdx.map fun entry => weightsLine entry.2 entry.1 := by
  let lines := weights.zipIdx.map fun entry => weightsLine entry.2 entry.1
  have hends : ∀ line ∈ lines, '\n' ∉ line := by
    intro line hline hmem
    obtain ⟨entry, -, rfl⟩ := List.mem_map.mp hline
    exact (visible_of_mem_weightsLine hmem).1 rfl
  have hfile : insertFile weights = lines.flatMap (· ++ ['\n']) := by
    rw [insertFile, List.flatMap_map]
  rw [fileLines, hfile, readLines_flatMap hends, List.map_map]
  calc lines.map (chomp '\n' ∘ (· ++ ['\n'])) = lines.map id :=
        List.map_congr_left fun line hline => chomp_append (hends line hline)
    _ = lines := List.map_id lines

/-- There is one line for each node. -/
theorem length_fileLines_insertFile (weights : List ℚ) :
    (fileLines (insertFile weights)).length = weights.length := by
  rw [fileLines_insertFile, List.length_map, List.length_zipIdx]

/-- The record of a line that has one. -/
def recordOf (line : List Char) : StoredRecord := (lineRecord atof atoi line).getD ⟨0, 0⟩

/-- The records of the lines after sorting. -/
def sortedRecords (weights : List ℚ) : List StoredRecord :=
  (sortNumeric (fileLines (insertFile weights))).map recordOf

section Written

variable {weights : List ℚ} (hcount : weights.length ≤ 2 ^ 31)
include hcount

/-- The record of the line for a node. -/
theorem lineRecord_entry {entry : ℚ × ℕ} (hentry : entry ∈ weights.zipIdx) :
    lineRecord atof atoi (weightsLine entry.2 entry.1) = some ⟨entry.2, toTenth entry.1⟩ :=
  lineRecord_weightsLine ((List.snd_lt_of_mem_zipIdx hentry).trans_le (by omega)) entry.1

/-- Every line of the file has a record, and its weight is what the line is sorted by. -/
theorem recordOf_line {line : List Char} (hline : line ∈ fileLines (insertFile weights)) :
    lineRecord atof atoi line = some (recordOf line) ∧ (recordOf line).weight = sortKey line := by
  rw [fileLines_insertFile] at hline
  obtain ⟨entry, hentry, rfl⟩ := List.mem_map.mp hline
  have hrecord := lineRecord_entry hcount hentry
  rw [recordOf, hrecord, sortKey_weightsLine]
  exact ⟨rfl, rfl⟩

/-- The records of the lines are those that were written. -/
theorem recordOf_lines :
    (fileLines (insertFile weights)).map recordOf = writtenRecords weights := by
  rw [fileLines_insertFile, List.map_map]
  refine List.map_congr_left fun entry hentry => ?_
  rw [Function.comp_apply, recordOf, lineRecord_entry hcount hentry, Option.getD_some]

/-- They are what is stored, in the order of the sorted file. -/
theorem sortedRecords_perm : (sortedRecords weights).Perm (writtenRecords weights) := by
  rw [← recordOf_lines hcount]
  exact (sortNumeric_perm _).map recordOf

/-- Their weights ascend. -/
theorem sortedRecords_ascending :
    (sortedRecords weights).Pairwise fun a b => a.weight ≤ b.weight := by
  have hperm := sortNumeric_perm (fileLines (insertFile weights))
  rw [sortedRecords, List.pairwise_map]
  refine (sortNumeric_ascending _).imp_of_mem fun {a b} ha hb hle => ?_
  rwa [(recordOf_line hcount (hperm.mem_iff.mp ha)).2,
    (recordOf_line hcount (hperm.mem_iff.mp hb)).2]

/-- Reading returns exactly where the table has room, with these records in front. -/
theorem readWeights_insertFile_iff {retcode : ℤ} (hretcode : retcode ≠ -1)
    {nodesInfo table : List StoredRecord} :
    readWeights atof atoi sortNumeric retcode (some (insertFile weights)) nodesInfo =
        .returned table ↔
      weights.length ≤ nodesInfo.length ∧
        table = sortedRecords weights ++ nodesInfo.drop weights.length := by
  have hperm := sortNumeric_perm (fileLines (insertFile weights))
  have hsome : (sortNumeric (fileLines (insertFile weights))).map (lineRecord atof atoi) =
      (sortedRecords weights).map some := by
    rw [sortedRecords, List.map_map]
    exact List.map_congr_left fun line hline => (recordOf_line hcount (hperm.mem_iff.mp hline)).1
  rw [readWeights_eq_returned_iff sortNumeric_perm hretcode, hsome, length_fileLines_insertFile]
  constructor
  · rintro ⟨records, hrecords, hfits, rfl⟩
    rw [List.map_injective_iff.mpr (Option.some_injective _) hrecords]
    exact ⟨hfits, rfl⟩
  · rintro ⟨hfits, rfl⟩
    exact ⟨_, rfl, hfits, rfl⟩

end Written

/-- Weights that are written are read back in tenths, each with its node and in ascending order,
by a table with room for them, and overrun a smaller one. -/
theorem readWeights_insertFile (weights : List ℚ) (hcount : weights.length ≤ 2 ^ 31)
    (retcode : ℤ) (hretcode : retcode ≠ -1) (nodesInfo : List StoredRecord) :
    let run := readWeights atof atoi sortNumeric retcode (some (insertFile weights)) nodesInfo
    ((∃ table, run = .returned table) ↔ weights.length ≤ nodesInfo.length) ∧
      ∀ table, run = .returned table → ∃ records, records.Perm (writtenRecords weights) ∧
        (records.Pairwise fun a b => a.weight ≤ b.weight) ∧
        table = records ++ nodesInfo.drop weights.length := by
  intro run
  have hreturned (table : List StoredRecord) : run = .returned table ↔ _ :=
    readWeights_insertFile_iff hcount hretcode
  refine ⟨by simp [hreturned], fun table htable => ?_⟩
  exact ⟨_, sortedRecords_perm hcount, sortedRecords_ascending hcount,
    ((hreturned table).mp htable).2⟩

/-- Two thirds and one third of the whole, and a table of two records. -/
theorem readWeights_insertFile_two_thirds :
    ∃ records, records.Perm (writtenRecords [200 / 3, 100 / 3]) ∧
      (records.Pairwise fun a b => a.weight ≤ b.weight) ∧
      readWeights atof atoi sortNumeric 0 (some (insertFile [200 / 3, 100 / 3]))
        [⟨0, 0⟩, ⟨0, 0⟩] = .returned records := by
  obtain ⟨hroom, htable⟩ := readWeights_insertFile [200 / 3, 100 / 3] (by decide) 0 (by decide)
    [⟨0, 0⟩, ⟨0, 0⟩]
  obtain ⟨table, hreturned⟩ := hroom.mpr (by decide)
  obtain ⟨records, hperm, hsorted, rfl⟩ := htable table hreturned
  rw [List.drop_of_length_le (by decide), List.append_nil] at hreturned
  exact ⟨records, hperm, hsorted, hreturned⟩

end Bwap
