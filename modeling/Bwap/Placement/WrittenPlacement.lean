import Bwap.Placement.WeightSums
import Bwap.Placement.WeightedShares
import Bwap.Placement.WrittenWeights

/-!
# Written weights in use

What the library does with weights that were written to a file and read back in tenths. Few enough
of them pass its check, and its sums are those of the written weights up to half a tenth for each
node. Weighted interleaving then places a segment only as far as the tenths add up to 100, and a
node receives what its tenth says.
-/

namespace Bwap

open Common

/-- The table after the file is read. -/
def writtenTable (weights : List ℚ) : List Record :=
  (sortedRecords weights).map StoredRecord.toRecord

/-- What the tenths add up to. -/
def totalTenths (weights : List ℚ) : ℚ := (weights.map toTenth).sum

/-- The tenths add up to what the weights add up to, up to half a tenth for each. -/
theorem abs_totalTenths_sub_le (weights : List ℚ) :
    |totalTenths weights - weights.sum| ≤ weights.length / 20 := by
  have herror := abs_sum_sub_le (l := weights) (f := toTenth) (g := id)
    fun x _ => abs_toTenth_sub_le x
  rw [List.map_id] at herror
  calc |totalTenths weights - weights.sum| ≤ weights.length * (1 / 20) := herror
    _ = weights.length / 20 := by ring

section Table

variable {weights : List ℚ} (hcount : weights.length ≤ 2 ^ 31)
include hcount

/-- The records of the table, in the order in which they were written. -/
theorem writtenTable_perm :
    (writtenTable weights).Perm (weights.zipIdx.map fun entry => ⟨entry.2, toTenth entry.1⟩) := by
  have hrecords : (writtenRecords weights).map StoredRecord.toRecord =
      weights.zipIdx.map fun entry => ⟨entry.2, toTenth entry.1⟩ := by
    rw [writtenRecords, List.map_map]
    refine List.map_congr_left fun entry hentry => ?_
    have hindex : entry.2 < 2 ^ 32 := (List.snd_lt_of_mem_zipIdx hentry).trans_le (by omega)
    have hid : (BitVec.ofInt 32 (entry.2 : ℤ)).toNat = entry.2 := by
      rw [BitVec.ofInt_natCast, BitVec.toNat_ofNat, Nat.mod_eq_of_lt hindex]
    exact congrArg (fun id => (⟨id, toTenth entry.1⟩ : Record)) hid
  rw [← hrecords]
  exact (sortedRecords_perm hcount).map StoredRecord.toRecord

/-- There is a record for each weight. -/
theorem length_writtenTable : (writtenTable weights).length = weights.length := by
  rw [(writtenTable_perm hcount).length_eq, List.length_map, List.length_zipIdx]

/-- Every node has one. -/
theorem writtenTable_ids :
    ((writtenTable weights).map Record.id).Perm (List.range (writtenTable weights).length) := by
  have hids := (writtenTable_perm hcount).map Record.id
  have hindices : (weights.zipIdx.map fun entry => (⟨entry.2, toTenth entry.1⟩ : Record)).map
      Record.id = List.range' 0 weights.length := by
    rw [List.map_map]
    exact List.zipIdx_map_snd 0 weights
  rwa [hindices, ← List.range_eq_range', ← length_writtenTable hcount] at hids

/-- The weights add up to the sum of the tenths. -/
theorem sum_writtenTable :
    ((writtenTable weights).map Record.weight).sum = totalTenths weights := by
  have hweights := ((writtenTable_perm hcount).map Record.weight).sum_eq
  have htenths : (weights.zipIdx.map fun entry => (⟨entry.2, toTenth entry.1⟩ : Record)).map
      Record.weight = (weights.zipIdx.map Prod.fst).map toTenth := by
    rw [List.map_map, List.map_map]
    rfl
  rw [hweights, htenths, List.zipIdx_map_fst, totalTenths]

/-- The record of a node holds the tenth of its weight. -/
theorem mem_writtenTable {i : ℕ} (hi : i < weights.length) :
    (⟨i, toTenth weights[i]⟩ : Record) ∈ writtenTable weights := by
  refine (writtenTable_perm hcount).mem_iff.mpr (List.mem_map.mpr ⟨(weights[i], i), ?_, rfl⟩)
  rw [List.mk_mem_zipIdx_iff_getElem?]
  exact List.getElem?_eq_getElem hi

/-- Weights that are not negative are not negative in tenths. -/
theorem writtenTable_nonneg (hnonneg : ∀ w ∈ weights, 0 ≤ w) :
    ∀ node ∈ writtenTable weights, 0 ≤ node.weight := by
  intro node hnode
  obtain ⟨entry, hentry, rfl⟩ :=
    List.mem_map.mp ((writtenTable_perm hcount).mem_iff.mp hnode)
  exact toTenth_nonneg (hnonneg _ (List.fst_mem_of_mem_zipIdx hentry))

/-- The weights of the table ascend. -/
theorem writtenTable_ascending :
    (writtenTable weights).Pairwise fun a b => a.weight ≤ b.weight :=
  List.pairwise_map.mpr (sortedRecords_ascending hcount)

/-- The sum over the worker class is the tenth of its weight, and the other class has the rest. -/
theorem tableSums_writtenTable {worker : ℕ} (hworker : worker < weights.length) :
    tableSums worker (writtenTable weights) =
      ⟨toTenth weights[worker], totalTenths weights - toTenth weights[worker]⟩ := by
  have hww : (tableSums worker (writtenTable weights)).ww = toTenth weights[worker] :=
    sum_worker (ids_nodup (writtenTable_ids hcount)) (mem_writtenTable hcount hworker)
  have htotal := tableSums_total worker (writtenTable weights)
  rw [sum_writtenTable hcount, hww] at htotal
  rw [← htotal, add_sub_cancel_left, ← hww]

end Table

/-- A check of sums that are off by less than one half passes. -/
theorem roundToInt_near_hundred {x : ℚ} (hx : |x - 100| < 1 / 2) : roundToInt x = 100 := by
  have hround : roundAway x = 100 := roundAway_eq (n := 100) (by exact_mod_cast hx)
  rw [roundToInt, hround]
  decide

/-- From sums of nothing, the check of at most nine weights with a sum of 100 passes, and leaves
the tenths of the two classes. -/
theorem getSum_sortedRecords {weights : List ℚ} (htotal : weights.sum = 100)
    (hcount : weights.length ≤ 9) {workers : ℤ} {worker : ℕ}
    (hworker : workerNode workers = some worker) (hnode : worker < weights.length) :
    SumsState.getSum ⟨sortedRecords weights, ⟨0, 0⟩, none⟩ workers =
      ⟨sortedRecords weights, ⟨toTenth weights[worker],
        totalTenths weights - toTenth weights[worker]⟩, none⟩ := by
  have hlarge : weights.length ≤ 2 ^ 31 := hcount.trans (by norm_num)
  have hrecords : (⟨sortedRecords weights, ⟨0, 0⟩, none⟩ : SumsState).records =
      writtenTable weights := rfl
  have hcheck : roundToInt (((sortedRecords weights).map StoredRecord.weight).sum) = 100 := by
    have herror := abs_totalTenths_sub_le weights
    have hnine : (weights.length : ℚ) ≤ 9 := by exact_mod_cast hcount
    have hsum : ((sortedRecords weights).map StoredRecord.weight).sum = totalTenths weights := by
      rw [← sum_writtenTable hlarge, ← hrecords, sum_records]
    rw [htotal] at herror
    rw [hsum]
    exact roundToInt_near_hundred (herror.trans_lt (by linarith))
  have hsums := @getSum_eq ⟨sortedRecords weights, ⟨0, 0⟩, none⟩ workers worker hworker
  simp only [hrecords, tableSums_writtenTable hlarge hnode, zero_add] at hsums
  rwa [if_pos hcheck] at hsums

/-- At most nine weights with a sum of 100 are accepted after they were written and read: the sums
are those of the written weights up to half a tenth for each node. -/
theorem getSum_insertFile (weights : List ℚ) (htotal : weights.sum = 100)
    (hcount : weights.length ≤ 9) {retcode : ℤ} (hretcode : retcode ≠ -1) {workers : ℤ}
    {worker : ℕ} (hworker : workerNode workers = some worker) (hnode : worker < weights.length)
    {table : List StoredRecord}
    (hread : readWeights atof atoi sortNumeric retcode (some (insertFile weights))
      (SumsState.start weights.length).nodesInfo = .returned table) :
    let s := SumsState.getSum { SumsState.start weights.length with nodesInfo := table } workers
    s.exited = none ∧ |s.sums.ww - weights[worker]| ≤ 1 / 20 ∧
      |s.sums.nww - (100 - weights[worker])| ≤ (weights.length + 1) / 20 := by
  intro s
  have hlarge : weights.length ≤ 2 ^ 31 := hcount.trans (by norm_num)
  have hfull : (SumsState.start weights.length).nodesInfo.drop weights.length = [] :=
    List.drop_of_length_le (by simp [SumsState.start])
  obtain ⟨-, htable⟩ := (readWeights_insertFile_iff hlarge hretcode).mp hread
  rw [hfull, List.append_nil] at htable
  subst htable
  have hcall : s = ⟨sortedRecords weights, ⟨toTenth weights[worker],
      totalTenths weights - toTenth weights[worker]⟩, none⟩ :=
    getSum_sortedRecords htotal hcount hworker hnode
  have hwhole := abs_le.mp (abs_totalTenths_sub_le weights)
  have hpart := abs_le.mp (abs_toTenth_sub_le weights[worker])
  rw [htotal] at hwhole
  rw [hcall]
  refine ⟨rfl, abs_toTenth_sub_le _, abs_le.mpr ?_⟩
  constructor <;> linarith

/-- Two thirds and one third of the whole: the sums are 66.7 and 33.3. -/
theorem getSum_insertFile_two_thirds :
    let weights : List ℚ := [200 / 3, 100 / 3]
    let s := SumsState.getSum
      { SumsState.start weights.length with nodesInfo := sortedRecords weights } 1
    s.exited = none ∧ |s.sums.ww - 200 / 3| ≤ 1 / 20 ∧ |s.sums.nww - (100 - 200 / 3)| ≤ 3 / 20 := by
  intro weights s
  have hread : readWeights atof atoi sortNumeric 0 (some (insertFile weights))
      (SumsState.start weights.length).nodesInfo = .returned (sortedRecords weights) :=
    (readWeights_insertFile_iff (by decide) (by decide)).mpr
      ⟨by decide, (List.append_nil _).symm⟩
  have hworker : workerNode 1 = some 0 := rfl
  have hnode : 0 < weights.length := by decide
  have hsum : weights.sum = 100 := by norm_num [weights]
  obtain ⟨hgoes, hww, hnww⟩ :=
    getSum_insertFile weights hsum (by decide) (by decide) hworker hnode hread
  exact ⟨hgoes, hww, hnww.trans (by norm_num [weights])⟩

/-! ## Placing a segment -/

section Placing

variable {weights : List ℚ} (hnonneg : ∀ w ∈ weights, 0 ≤ w) (htotal : weights.sum = 100)
  (hcount : weights.length ≤ 9)

include hcount in
/-- The number of the weights is small. -/
theorem length_le_of_le_nine : weights.length ≤ 2 ^ 31 := hcount.trans (by norm_num)

include hnonneg hcount in
/-- No share is negative. -/
theorem idealShare_writtenTable_nonneg (size i : ℕ) :
    0 ≤ idealShare (writtenTable weights) size i := by
  have hlarge := length_le_of_le_nine hcount
  by_cases hi : i < (writtenTable weights).length
  · exact idealShare_nonneg_of_le size (weightBefore_le_succ
      (writtenTable_nonneg hlarge hnonneg) (writtenTable_ascending hlarge) hi)
  · rw [idealShare, if_neg hi]

include hcount in
/-- All shares together. -/
theorem sum_idealShare_writtenTable (size : ℕ) :
    ∑ i ∈ Finset.range weights.length, idealShare (writtenTable weights) size i =
      totalTenths weights * size / 100 := by
  have hlarge := length_le_of_le_nine hcount
  rw [← length_writtenTable hlarge, sum_idealShare_all, sum_writtenTable hlarge]

include hnonneg htotal hcount in
/-- No share is much larger than the segment. -/
theorem idealShare_writtenTable_le (size i : ℕ) :
    idealShare (writtenTable weights) size i ≤ 2 * size := by
  have hlarge := length_le_of_le_nine hcount
  have hsize : (0 : ℚ) ≤ size := Nat.cast_nonneg size
  by_cases hi : i < weights.length
  · have hsingle := Finset.single_le_sum
      (fun j _ => idealShare_writtenTable_nonneg hnonneg hcount size j) (Finset.mem_range.mpr hi)
    rw [sum_idealShare_writtenTable hcount] at hsingle
    have herror := (abs_le.mp (abs_totalTenths_sub_le weights)).2
    have hnine : (weights.length : ℚ) ≤ 9 := by exact_mod_cast hcount
    have hbound : totalTenths weights * size ≤ 200 * size :=
      mul_le_mul_of_nonneg_right (by linarith) hsize
    linarith
  · rw [idealShare, if_neg (by rwa [length_writtenTable hlarge])]
    positivity

include hnonneg htotal hcount in
/-- On a segment that an address space has room for, sizes are converted without loss. -/
theorem wordDemand_writtenTable (P : PageSize) {size : ℕ} (hsize : size < 2 ^ 62) :
    wordDemand P (idealShare (writtenTable weights) size) =
      roundedShare P.bytes (idealShare (writtenTable weights) size) := by
  funext i
  have hpage : P.bytes ≤ 2 ^ 31 := Nat.pow_le_pow_right (by norm_num) P.shift_lt.le
  have hbound := idealShare_writtenTable_le hnonneg htotal hcount size i
  have hsize' : (size : ℚ) < 2 ^ 62 := by exact_mod_cast hsize
  have hpage' : (P.bytes : ℚ) ≤ 2 ^ 31 := by exact_mod_cast hpage
  exact wordDemand_eq_roundedShare (idealShare_writtenTable_nonneg hnonneg hcount size i)
    (by linarith)

end Placing

/-- With weights that were written and read back, weighted interleaving places the front of a
segment: all of it where the tenths add up to 100 or more, and otherwise the part that they
add up to, up to a page for each node. -/
theorem placePagesWeightedInitial_insertFile (weights : List ℚ) (hnonneg : ∀ w ∈ weights, 0 ≤ w)
    (htotal : weights.sum = 100) (hcount : weights.length ≤ 9) {retcode : ℤ}
    (hretcode : retcode ≠ -1) {nodesInfo table : List StoredRecord}
    (hroom : nodesInfo.length = weights.length)
    (hread : readWeights atof atoi sortNumeric retcode (some (insertFile weights)) nodesInfo =
      .returned table)
    (P : PageSize) (hpage : weights.length ≤ P.bytes) (mbind : MbindCall → Bool) (addr len : Word)
    (hlen : P.bytes ∣ len.toNat) (hsize : len.toNat < 2 ^ 62)
    (hok : (placePagesWeightedInitial P mbind (table.map StoredRecord.toRecord) addr len).aborted =
      false) :
    let issued :=
      (placePagesWeightedInitial P mbind (table.map StoredRecord.toRecord) addr len).issued
    let part := totalTenths weights * len.toNat / 100
    |totalTenths weights - 100| ≤ weights.length / 20 ∧
      ∃ placed : ℕ, (∀ x, (∃ call ∈ issued, InRange call.start call.len x) ↔
          (x - addr).toNat < placed) ∧
        (100 ≤ totalTenths weights → placed = len.toNat) ∧
        (totalTenths weights < 100 → part - weights.length ≤ placed ∧
          placed ≤ part + weights.length * (P.bytes - 1)) := by
  intro issued part
  have hlarge := length_le_of_le_nine hcount
  obtain ⟨-, htable⟩ := (readWeights_insertFile_iff hlarge hretcode).mp hread
  have hrecords : table.map StoredRecord.toRecord = writtenTable weights := by
    rw [htable, List.drop_of_length_le hroom.le, List.append_nil, writtenTable]
  have herror := abs_totalTenths_sub_le weights
  rw [htotal] at herror
  have hdemand := wordDemand_writtenTable hnonneg htotal hcount P hsize
  have hloop := interleaveLoop_all P mbind (writtenTable weights) addr len
  have hissued : issued = (List.range weights.length).filterMap
      (loopCalls P (writtenTable weights) addr len.toNat) := by
    simp only [issued, placePagesWeightedInitial, hrecords] at hok ⊢
    rw [hloop] at hok ⊢
    rw [Placement.issueAll_issued mbind _ hok, length_writtenTable hlarge]
  have hideal := sum_idealShare_writtenTable hcount len.toNat
  have hshare := idealShare_writtenTable_nonneg hnonneg hcount len.toNat
  have hsize' : (0 : ℚ) ≤ len.toNat := Nat.cast_nonneg _
  let share := idealShare (writtenTable weights) len.toNat
  refine ⟨herror, filled len.toNat (roundedShare P.bytes share) weights.length, fun x => ?_,
    fun hfull => ?_, fun hshort => ⟨?_, ?_⟩⟩
  · rw [hissued, loopCalls, hdemand]
    exact inRange_sliceCalls_iff _ _ _ _ len.isLt weights.length x
  · refine filled_eq_budget P.bytes_pos share hlen hpage ?_
    have hpart : 100 * (len.toNat : ℚ) ≤ totalTenths weights * len.toNat :=
      mul_le_mul_of_nonneg_right hfull hsize'
    rw [hideal]
    linarith
  · have hpart : totalTenths weights * len.toNat ≤ 100 * (len.toNat : ℚ) :=
      mul_le_mul_of_nonneg_right hshort.le hsize'
    have hbudget : ∑ i ∈ Finset.range weights.length, share i ≤ (len.toNat : ℚ) := by
      rw [hideal]
      linarith
    have hbelow := ideal_le_filled P.bytes_pos share hbudget
    rwa [hideal] at hbelow
  · have habove := filled_le_ideal P.bytes_pos share hshare len.toNat weights.length
    rwa [hideal] at habove

/-- Two thirds and one third of the whole add up to 100 in tenths, so all ten pages are placed. -/
theorem placePagesWeightedInitial_insertFile_two_thirds :
    let weights : List ℚ := [200 / 3, 100 / 3]
    let issued := (placePagesWeightedInitial ⟨12, by decide⟩ (fun _ => true)
      ((sortedRecords weights).map StoredRecord.toRecord) 0x10000 0xa000).issued
    ∃ placed : ℕ, (∀ x, (∃ call ∈ issued, InRange call.start call.len x) ↔
      (x - 0x10000).toNat < placed) ∧ placed = 0xa000 := by
  intro weights issued
  have hroom : [(⟨0, 0⟩ : StoredRecord), ⟨0, 0⟩].length = weights.length := rfl
  have hread : readWeights atof atoi sortNumeric 0 (some (insertFile weights))
      [⟨0, 0⟩, ⟨0, 0⟩] = .returned (sortedRecords weights) :=
    (readWeights_insertFile_iff (by decide) (by decide)).mpr
      ⟨by decide, (List.append_nil _).symm⟩
  have hok : (placePagesWeightedInitial ⟨12, by decide⟩ (fun _ => true)
      ((sortedRecords weights).map StoredRecord.toRecord) 0x10000 0xa000).aborted = false := by
    rw [placePagesWeightedInitial, interleaveLoop_all]
    exact Placement.issueAll_aborted _ _ fun call _ => rfl
  have hfull : 100 ≤ totalTenths weights := by decide +kernel
  obtain ⟨-, placed, hplaced, hwhole, -⟩ := placePagesWeightedInitial_insertFile weights
    (by norm_num [weights]) (by norm_num [weights]) (by decide) (by decide) hroom hread
    ⟨12, by decide⟩ (by decide) (fun _ => true) 0x10000 0xa000 (by decide) (by decide) hok
  exact ⟨placed, hplaced, hwhole hfull⟩

end Bwap
