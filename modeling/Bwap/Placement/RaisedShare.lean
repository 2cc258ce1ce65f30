import Bwap.Placement.EvenSplit
import Bwap.Placement.NewWeights

/-!
# The raised share of the worker node

`place_pages_weighted_s` raises the weight of the worker node and lowers the others, and hands
the new weights to an algorithm for ascending ones without sorting them again. The worker node
is in the mask of every slice up to its own; its slice is the smaller one of what its new weight
asks for and of what is left, so that the node never gets more than an even share of what the
nodes before it leave, however far its weight was raised.
-/

namespace Bwap

open Common

/-! ## The table of the new weights -/

/-- Rounding to a tenth moves a percentage by at most a twentieth. -/
theorem abs_roundTenth_sub_le (x : ℚ) : |roundTenth x - x| ≤ 1 / 20 := by
  have hround := abs_le.mp (abs_roundAway_sub_le (x * 10))
  rw [roundTenth, abs_le]
  constructor <;> linarith

/-- No percentage is rounded below zero. -/
theorem roundTenth_nonneg {x : ℚ} (hx : 0 ≤ x) : 0 ≤ roundTenth x :=
  div_nonneg (Int.cast_nonneg (roundAway_nonneg (by linarith))) (by norm_num)

/-- Rounding to a tenth is monotone. -/
theorem roundTenth_mono {x y : ℚ} (hxy : x ≤ y) : roundTenth x ≤ roundTenth y := by
  have hround := roundAway_mono (show x * 10 ≤ y * 10 by linarith)
  exact div_le_div_of_nonneg_right (Int.cast_le.mpr hround) (by norm_num)

/-- The new weight of a node in `place_pages_weighted_s`, before it is rounded. -/
def raisedWeight (sums : WeightSums) (s : ℚ) (worker : ℕ) (node : Record) : ℚ :=
  if node.id = worker then node.weight / sums.ww * (sums.ww + s)
  else node.weight / sums.nww * (100 - (sums.ww + s))

/-- The table of the new weights. -/
def raisedTable (sums : WeightSums) (s : ℚ) (worker : ℕ) (records : List Record) : List Record :=
  records.map fun node => ⟨node.id, roundTenth (raisedWeight sums s worker node)⟩

section Raised

variable {table : WeightTable} {workers : ℤ} {sums : WeightSums} {s : ℚ} {k : ℕ}

/-- The table keeps the node numbers. -/
theorem raisedTable_ids (sums : WeightSums) (s : ℚ) (worker : ℕ) (records : List Record) :
    (raisedTable sums s worker records).map Record.id = records.map Record.id := by
  rw [raisedTable, List.map_map]
  rfl

/-- The loop fills the table with the new weights. -/
theorem mapM_weightS (hww : 0 < sums.ww) (hnww : 0 < sums.nww) {worker : ℕ}
    (hworker : workerNode workers = some worker) (records : List Record) :
    records.mapM (newRecord workers (weightS sums s)) =
      .ok (raisedTable sums s worker records) := by
  refine mapM_newRecord hworker (fun node => roundTenth (raisedWeight sums s worker node))
    fun node _ => ?_
  by_cases hid : node.id = worker
  · simp [weightS, raisedWeight, quotient, hid, hww.ne']
  · simp [weightS, raisedWeight, quotient, hid, hnww.ne']

section Sums

variable (htwo : 2 ≤ table.records.length)
  (hsums : getSumNwwWw ⟨0, 0⟩ table.records workers = .ok sums) (hww : 0 < sums.ww)
  (hnww : 0 < sums.nww)

include htwo hsums hww hnww in
/-- Before they are rounded, the new weights add up to 100. -/
theorem sum_raisedWeight {worker : ℕ} (hworker : workerNode workers = some worker) :
    (table.records.map (raisedWeight sums s worker)).sum = 100 := by
  obtain ⟨node, -, -, -, htotal⟩ := getSumNwwWw_ok htwo hsums
  obtain ⟨other, hother, hfold⟩ := getSumNwwWw_fold hsums
  obtain rfl : worker = other := Option.some.inj (hworker.symm.trans hother)
  have hscaled := sum_scaled worker ((sums.ww + s) / sums.ww) ((100 - (sums.ww + s)) / sums.nww)
    table.records ⟨0, 0⟩
  rw [hfold, div_mul_cancel₀ _ hww.ne', div_mul_cancel₀ _ hnww.ne'] at hscaled
  have hterm : raisedWeight sums s worker = fun node : Record =>
      if node.id = worker then (sums.ww + s) / sums.ww * node.weight
      else (100 - (sums.ww + s)) / sums.nww * node.weight := by
    funext node
    rw [raisedWeight]
    split_ifs <;> ring
  rw [hterm]
  linarith

include htwo hsums hww hnww in
/-- Rounding them moves their sum by at most a twentieth for each node. -/
theorem abs_sum_raisedTable_sub_le {worker : ℕ} (hworker : workerNode workers = some worker) :
    |((raisedTable sums s worker table.records).map Record.weight).sum - 100| ≤
      table.records.length * (1 / 20) := by
  have hclose := abs_sum_sub_le (l := table.records) fun node _ =>
    abs_roundTenth_sub_le (raisedWeight sums s worker node)
  rw [sum_raisedWeight htwo hsums hww hnww hworker] at hclose
  rw [raisedTable, List.map_map]
  exact hclose

include htwo hsums hww hnww in
/-- For at most nine nodes they pass the check. -/
theorem checkSum_raisedTable (hnine : table.records.length ≤ 9) {worker : ℕ}
    (hworker : workerNode workers = some worker) :
    checkSum (raisedTable sums s worker table.records) = 100 := by
  have hclose := abs_sum_raisedTable_sub_le (s := s) htwo hsums hww hnww hworker
  have hfew : (table.records.length : ℚ) ≤ 9 := by exact_mod_cast hnine
  have hround :
      roundAway ((raisedTable sums s worker table.records).map Record.weight).sum = 100 := by
    apply roundAway_eq
    push_cast
    linarith
  rw [checkSum, roundToInt_eq_hundred_iff, hround]
  exact dvd_zero _

include htwo hsums hww hnww in
/-- On the first call of a round, the calls of the algorithm on the new table are issued. -/
theorem placePagesWeightedS_eq (hnine : table.records.length ≤ 9) {worker : ℕ}
    (hworker : workerNode workers = some worker) (P : PageSize) (mbind : MbindCall → Bool)
    {state : NewWeights} (hfirst : state.initialized = false) (addr len : Word) :
    let temp := raisedTable sums s worker table.records
    placePagesWeightedS P mbind sums workers table.records state addr len s =
      .ok (⟨temp, true⟩, Placement.issueAll mbind
        ((List.range temp.length).filterMap (loopCalls P temp addr len.toNat))) := by
  intro temp
  have hupdate := update_eq hfirst (mapM_weightS (s := s) hww hnww hworker table.records)
  rw [if_pos (checkSum_raisedTable htwo hsums hww hnww hnine hworker)] at hupdate
  rw [placePagesWeightedS, hupdate]
  change Except.ok (_, placePagesWeighted P mbind temp addr len) = _
  rw [placePagesWeighted, interleaveLoop_all]

variable (hk : k < table.records.length) (hworker : workerNode workers = some table.records[k].id)
  (hs : 0 ≤ s) (hs' : s ≤ sums.nww)

include htwo hsums hww hworker in
/-- The worker node is raised to the target. -/
theorem raisedWeight_worker :
    raisedWeight sums s table.records[k].id table.records[k] = sums.ww + s ∧
      table.records[k].weight = sums.ww := by
  obtain ⟨node, hnode, hid, hweight, -⟩ := getSumNwwWw_ok htwo hsums
  have hsame : node = table.records[k] :=
    List.inj_on_of_nodup_map (ids_nodup table.ids) hnode (List.getElem_mem hk)
      (Option.some.inj (hid.symm.trans hworker))
  rw [raisedWeight, if_pos rfl, ← hsame, ← hweight, div_self hww.ne', one_mul]
  exact ⟨rfl, rfl⟩

include htwo hsums hnww hs hs' in
/-- Every other node keeps the same part of its weight. -/
theorem raisedWeight_other : ∃ kept : ℚ, 0 ≤ kept ∧ kept ≤ 1 ∧ ∀ (worker : ℕ) (node : Record),
    node.id ≠ worker → raisedWeight sums s worker node = kept * node.weight := by
  obtain ⟨-, -, -, -, htotal⟩ := getSumNwwWw_ok htwo hsums
  refine ⟨(sums.nww - s) / sums.nww, div_nonneg (by linarith) hnww.le,
    (div_le_one hnww).mpr (by linarith), fun worker node hid => ?_⟩
  have hrest : 100 - (sums.ww + s) = sums.nww - s := by linarith
  rw [raisedWeight, if_neg hid, hrest]
  ring

include htwo hsums hww hnww hk hworker hs hs' in
/-- No new weight is negative or exceeds 100 before it is rounded. -/
theorem raisedWeight_mem {node : Record} (hnode : node ∈ table.records) :
    0 ≤ raisedWeight sums s table.records[k].id node ∧
      raisedWeight sums s table.records[k].id node ≤ 100 := by
  obtain ⟨-, -, -, -, htotal⟩ := getSumNwwWw_ok htwo hsums
  obtain ⟨kept, hkept, hkept', hother⟩ := raisedWeight_other htwo hsums hnww hs hs'
  by_cases hid : node.id = table.records[k].id
  · obtain ⟨hraised, -⟩ := raisedWeight_worker (s := s) htwo hsums hww hk hworker
    have hsame : node = table.records[k] :=
      List.inj_on_of_nodup_map (ids_nodup table.ids) hnode (List.getElem_mem hk) hid
    rw [hsame, hraised]
    constructor <;> linarith
  · have hnonneg := table.nonneg node hnode
    rw [hother _ node hid]
    exact ⟨mul_nonneg hkept hnonneg,
      (mul_le_of_le_one_left hnonneg hkept').trans (table.weight_le hnode)⟩

include htwo hsums hnww hs hs' in
/-- Among the other nodes the new weights ascend. -/
theorem raisedWeight_mono (hsorted : table.Ascending) {worker i j : ℕ} (hij : i < j)
    {hi : i < table.records.length} (hj : j < table.records.length)
    (hi' : table.records[i].id ≠ worker) (hj' : table.records[j].id ≠ worker) :
    raisedWeight sums s worker table.records[i] ≤ raisedWeight sums s worker table.records[j] := by
  obtain ⟨kept, hkept, -, hother⟩ := raisedWeight_other htwo hsums hnww hs hs'
  have hstep : table.records[i].weight ≤ table.records[j].weight :=
    List.pairwise_iff_getElem.mp hsorted i j hi hj hij
  rw [hother _ _ hi', hother _ _ hj']
  exact mul_le_mul_of_nonneg_left hstep hkept

include htwo hsums hww hnww hworker hs hs' in
/-- Up to the worker node they do, too. -/
theorem raisedWeight_le_succ (hsorted : table.Ascending) {i : ℕ} (hi : i < k) :
    raisedWeight sums s table.records[k].id table.records[i] ≤
      raisedWeight sums s table.records[k].id table.records[i + 1] := by
  have hbefore : table.records[i].id ≠ table.records[k].id := fun hid =>
    hi.ne (eq_of_id_eq table.ids hk hid)
  by_cases hlast : i + 1 = k
  · -- the step to the worker node, whose weight grows while the other one shrinks
    obtain ⟨hraised, hweight⟩ := raisedWeight_worker (s := s) htwo hsums hww hk hworker
    obtain ⟨kept, -, hkept', hother⟩ := raisedWeight_other htwo hsums hnww hs hs'
    have hstep : table.records[i].weight ≤ table.records[i + 1].weight :=
      List.pairwise_iff_getElem.mp hsorted i (i + 1) (by omega) (by omega) (by omega)
    have hshrinks : kept * table.records[i].weight ≤ table.records[i].weight :=
      mul_le_of_le_one_left (table.nonneg _ (List.getElem_mem _)) hkept'
    have hnext : table.records[i + 1] = table.records[k] := by simp only [hlast]
    have hgrows : table.records[k].weight ≤ sums.ww + s := by linarith
    rw [hnext] at hstep
    rw [hother _ _ hbefore, hnext, hraised]
    exact hshrinks.trans (hstep.trans hgrows)
  · have hafter : table.records[i + 1].id ≠ table.records[k].id := fun hid =>
      hlast (eq_of_id_eq table.ids hk hid)
    exact raisedWeight_mono htwo hsums hnww hs hs' hsorted (by omega) (by omega) hbefore hafter

/-- The weight before the next node is the new one of this node. -/
theorem weightBefore_raisedTable (sums : WeightSums) (s : ℚ) (worker : ℕ) {records : List Record}
    {i : ℕ} (hi : i < records.length) :
    weightBefore (raisedTable sums s worker records) (i + 1) =
      roundTenth (raisedWeight sums s worker records[i]) := by
  have hnode : (raisedTable sums s worker records)[i]? =
      some ⟨records[i].id, roundTenth (raisedWeight sums s worker records[i])⟩ := by
    rw [raisedTable, List.getElem?_map, List.getElem?_eq_getElem hi]
    rfl
  exact weightBefore_succ hnode

include htwo hsums hww hnww hworker hs hs' in
/-- So the algorithm for ascending weights gives no negative share up to the worker node. -/
theorem raisedTable_ascends (hsorted : table.Ascending) {i : ℕ} (hi : i ≤ k) :
    let temp := raisedTable sums s table.records[k].id table.records
    weightBefore temp i ≤ weightBefore temp (i + 1) := by
  intro temp
  cases i with
  | zero =>
    have hmem := raisedWeight_mem htwo hsums hww hnww hk hworker hs hs' (List.getElem_mem
      (show 0 < table.records.length by omega))
    rw [weightBefore_raisedTable sums s _ (by omega)]
    exact roundTenth_nonneg hmem.1
  | succ i =>
    rw [weightBefore_raisedTable sums s _ (by omega), weightBefore_raisedTable sums s _ (by omega)]
    exact roundTenth_mono (raisedWeight_le_succ htwo hsums hww hnww hk hworker hs hs' hsorted hi)

include htwo hsums hww hnww hworker hs hs' in
/-- No node after the worker is given less than the node before it. -/
theorem raisedTable_later (hsorted : table.Ascending) (j : ℕ) (hj : k < j)
    (hj' : j < table.records.length) :
    let temp := raisedTable sums s table.records[k].id table.records
    weightBefore temp k ≤ weightBefore temp (j + 1) := by
  intro temp
  rw [weightBefore_raisedTable sums s _ hj']
  cases k with
  | zero =>
    exact roundTenth_nonneg (raisedWeight_mem htwo hsums hww hnww hk hworker hs hs'
      (List.getElem_mem hj')).1
  | succ i =>
    have hbefore : table.records[i].id ≠ table.records[i + 1].id := fun hid => by
      have hsame := eq_of_id_eq table.ids hk hid
      omega
    have hafter : table.records[j].id ≠ table.records[i + 1].id := fun hid =>
      hj.ne' (eq_of_id_eq table.ids hk hid)
    rw [weightBefore_raisedTable sums s _ (by omega)]
    exact roundTenth_mono (raisedWeight_mono htwo hsums hnww hs hs' hsorted (by omega) hj' hbefore
      hafter)

include htwo hsums hww hnww hk hworker hs hs' in
/-- For at most nine nodes no share exceeds as many segments as there are nodes by a whole one. -/
theorem idealShare_raisedTable_le (hnine : table.records.length ≤ 9) (size : ℕ) {i : ℕ}
    (hi : i < table.records.length) :
    idealShare (raisedTable sums s table.records[k].id table.records) size i ≤
      ((table.records.length : ℚ) + 1) * size := by
  have hmem := raisedWeight_mem htwo hsums hww hnww hk hworker hs hs' (List.getElem_mem hi)
  have hround := abs_le.mp (abs_roundTenth_sub_le
    (raisedWeight sums s table.records[k].id table.records[i]))
  have hbefore : 0 ≤ weightBefore (raisedTable sums s table.records[k].id table.records) i := by
    cases i with
    | zero => exact le_rfl
    | succ i =>
      rw [weightBefore_raisedTable sums s _ (by omega)]
      exact roundTenth_nonneg (raisedWeight_mem htwo hsums hww hnww hk hworker hs hs'
        (List.getElem_mem _)).1
  have hcount : (raisedTable sums s table.records[k].id table.records).length =
      table.records.length := List.length_map _
  have hleft : 0 ≤ (table.records.length : ℚ) - i := sub_nonneg.mpr (Nat.cast_le.mpr hi.le)
  have hfew : (table.records.length : ℚ) ≤ 9 := by exact_mod_cast hnine
  have hi0 : (0 : ℚ) ≤ i := Nat.cast_nonneg i
  have hpart : (roundTenth (raisedWeight sums s table.records[k].id table.records[i]) -
      weightBefore (raisedTable sums s table.records[k].id table.records) i) / 100 ≤
        2001 / 2000 := by linarith
  have hproduct := mul_le_mul_of_nonneg_left hpart hleft
  rw [idealShare, if_pos (by rwa [hcount]), hcount, weightBefore_raisedTable sums s _ hi]
  exact mul_le_mul_of_nonneg_right (hproduct.trans (by linarith)) (Nat.cast_nonneg _)

end Sums

end Raised

/-- The tolerance makes up for a weight rounded to a tenth, for a sum of them and for the rounding
to pages. -/
theorem tolerance_bounds {goal weight total n k len page : ℚ} (hweight : |weight - goal| ≤ 1 / 20)
    (htotal : |total - 100| ≤ n * (1 / 20)) (hn : 2 ≤ n) (hk : k ≤ n) (hlen : 0 ≤ len)
    (hpage : 1 ≤ page) :
    weight * len / 100 + n * (page - 1) ≤ goal * len / 100 + (n * len / 1000 + n * page) ∧
      goal * len / 100 - (n * len / 1000 + n * page) ≤ weight * len / 100 - n ∧
      goal * len / 100 - (n * len / 1000 + n * page) ≤
        weight * len / 100 - (total - 100) * len / 100 - k * (page - 1) := by
  obtain ⟨hbelow, habove⟩ := abs_le.mp hweight
  have hlow := mul_le_mul_of_nonneg_right hbelow hlen
  have hhigh := mul_le_mul_of_nonneg_right habove hlen
  have hexcess := mul_le_mul_of_nonneg_right (abs_le.mp htotal).2 hlen
  have hpages := mul_le_mul_of_nonneg_right hk (show 0 ≤ page - 1 by linarith)
  have hunits := mul_le_mul_of_nonneg_left hpage (show 0 ≤ n by linarith)
  have htenths := mul_le_mul_of_nonneg_right hn hlen
  refine ⟨?_, ?_, ?_⟩ <;> linarith

/-- What exceeds a goal by no more than a tolerance is near it if it falls short by no more. -/
theorem abs_sub_le_iff_of_le {x goal tolerance : ℚ} (hupper : x ≤ goal + tolerance) :
    |x - goal| ≤ tolerance ↔ goal - tolerance ≤ x := by
  rw [abs_sub_le_iff, and_iff_right (sub_le_iff_le_add'.mpr hupper), sub_le_comm]

/-- On the first call of a round the worker node gets its raised share, up to a tolerance, exactly
when an even split, among it and the nodes after it, of what the nodes before it do not ask for
reaches that share; where the conversion to `size_t` could overflow, what it is left and what
it asks for have to reach it. -/
theorem placePagesWeightedS_share_iff (P : PageSize) (mbind : MbindCall → Bool)
    (table : WeightTable) (hsorted : table.Ascending) (htwo : 2 ≤ table.records.length)
    (hnine : table.records.length ≤ 9) {workers : ℤ} {sums : WeightSums}
    (hsums : getSumNwwWw ⟨0, 0⟩ table.records workers = .ok sums) (hww : 0 < sums.ww)
    (hnww : 0 < sums.nww) {state : NewWeights} (hfirst : state.initialized = false) {s : ℚ}
    (hs : 0 ≤ s) (hs' : s ≤ sums.nww) (addr len : Word) {k : ℕ} (hk : k < table.records.length)
    (hworker : workerNode workers = some table.records[k].id) :
    let n : ℚ := table.records.length
    let worker := table.records[k].id
    let temp := raisedTable sums s worker table.records
    let target : ℚ := (sums.ww + s) * len.toNat / 100
    let tolerance : ℚ := n * len.toNat / 1000 + n * P.bytes
    ∃ placement, placePagesWeightedS P mbind sums workers table.records state addr len s =
        .ok (⟨temp, true⟩, placement) ∧
      (placement.aborted = false →
        (|creditedBytes placement.issued worker - target| ≤ tolerance ↔
          if (n + 1) * len.toNat + P.bytes ≤ 2 ^ 64 then
            target - tolerance ≤ evenShare P temp len.toNat k
          else target - tolerance ≤
            min (leftShare P temp len.toNat k) (askedShare P temp len.toNat k))) := by
  intro n worker temp target tolerance
  have hcount : temp.length = table.records.length := List.length_map _
  have hids : (temp.map Record.id).Perm (List.range temp.length) := by
    rw [raisedTable_ids, hcount]
    exact table.ids
  have hktemp : k < temp.length := by rwa [hcount]
  have hid : temp[k].id = worker := by simp [temp, raisedTable, worker]
  have hweight : |temp[k].weight - (sums.ww + s)| ≤ 1 / 20 := by
    obtain ⟨hraised, -⟩ := raisedWeight_worker (s := s) htwo hsums hww hk hworker
    simp only [temp, raisedTable, List.getElem_map, worker, hraised]
    exact abs_roundTenth_sub_le _
  have htotal := abs_sum_raisedTable_sub_le (s := s) htwo hsums hww hnww hworker
  obtain ⟨habove, hbelow, hbelow'⟩ := tolerance_bounds hweight htotal (Nat.ofNat_le_cast.mpr htwo)
    (Nat.cast_le.mpr hk.le) (Nat.cast_nonneg len.toNat) (Nat.one_le_cast.mpr P.bytes_pos)
  have hnonneg : ∀ i ≤ k, 0 ≤ idealShare temp len.toNat i := fun i hi =>
    idealShare_nonneg_of_le len.toNat
      (raisedTable_ascends htwo hsums hww hnww hk hworker hs hs' hsorted hi)
  have hlater : ∀ j, k < j → j < temp.length →
      weightBefore temp k ≤ weightBefore temp (j + 1) := fun j hj hj' =>
    raisedTable_later htwo hsums hww hnww hk hworker hs hs' hsorted j hj (by rwa [hcount] at hj')
  have hasked : askedShare P temp len.toNat k ≤ _ := askedShare_le hktemp hnonneg
  rw [hcount] at hasked
  -- the worker never gets too much, so only the lower bound counts
  have hupper := (min_le_right (leftShare P temp len.toNat k) _).trans (hasked.trans habove)
  refine ⟨_, placePagesWeightedS_eq htwo hsums hww hnww hnine hworker P mbind hfirst addr len,
    fun hok => ?_⟩
  rw [Placement.issueAll_issued mbind _ hok, ← hid, creditedBytes_eq_min hids len.isLt hktemp,
    abs_sub_le_iff_of_le hupper]
  split_ifs with hsmall
  · have hfit : ∀ i ≤ k, idealShare temp len.toNat i + P.bytes ≤ 2 ^ 64 := fun i hi =>
      (add_le_add_left (idealShare_raisedTable_le htwo hsums hww hnww hk hworker hs hs' hnine
        len.toNat (show i < table.records.length by omega)) _).trans hsmall
    have hbytes : target - tolerance ≤ temp[k].weight * len.toNat / 100 - temp.length := by
      rw [hcount]
      exact hbelow
    exact le_min_iff_le_evenShare hktemp hnonneg hfit hlater hbytes hbelow'
  · exact Iff.rfl

/-- Two nodes, the worker raised from 60 to 80 percent of ten pages: the new weights still
ascend. -/
theorem placePagesWeightedS_share_two_nodes :
    ∃ placement, placePagesWeightedS .fourKiB (fun _ => true) ⟨60, 40⟩ 1
        WeightTable.twoNodeTable.records ⟨[], false⟩ 0x10000 0xa000 20 =
          .ok (⟨[⟨1, 20⟩, ⟨0, 80⟩], true⟩, placement) ∧
      |creditedBytes placement.issued 0 - (60 + 20) * 0xa000 / 100| ≤
        2 * 0xa000 / 1000 + 2 * 0x1000 := by
  obtain ⟨placement, hcall, hshare⟩ := placePagesWeightedS_share_iff .fourKiB (fun _ => true)
    WeightTable.twoNodeTable WeightTable.twoNodeTable_ascending (by decide) (by decide)
    (show getSumNwwWw ⟨0, 0⟩ WeightTable.twoNodeTable.records 1 = .ok ⟨60, 40⟩ by decide +kernel)
    (by norm_num) (by norm_num) (show (⟨[], false⟩ : NewWeights).initialized = false from rfl)
    (show (0 : ℚ) ≤ 20 by norm_num) (by norm_num) 0x10000 0xa000
    (show 1 < WeightTable.twoNodeTable.records.length by decide) rfl
  have htable : raisedTable ⟨60, 40⟩ 20 WeightTable.twoNodeTable.records[1].id
      WeightTable.twoNodeTable.records = [⟨1, 20⟩, ⟨0, 80⟩] := by decide +kernel
  have hrun : (placePagesWeightedS .fourKiB (fun _ => true) ⟨60, 40⟩ 1
      WeightTable.twoNodeTable.records ⟨[], false⟩ 0x10000 0xa000 20).map
        (fun result => result.2.aborted) = .ok false := by decide +kernel
  rw [hcall] at hrun
  rw [htable] at hcall
  exact ⟨placement, hcall, (hshare (Except.ok.inj hrun)).mpr (by decide +kernel)⟩

/-- Two nodes, the worker first in the table and raised from 40 to 100 percent of 256 pages: the
whole segment is interleaved over both nodes, and it gets only half. -/
theorem placePagesWeightedS_gives_half :
    let records : List Record := [⟨0, 40⟩, ⟨1, 60⟩]
    getSumNwwWw ⟨0, 0⟩ records 1 = .ok ⟨40, 60⟩ ∧
      placePagesWeightedS .fourKiB (fun _ => true) ⟨40, 60⟩ 1 records ⟨[], false⟩ 0x10000 0x100000
        60 = .ok (⟨[⟨0, 100⟩, ⟨1, 0⟩], true⟩,
          ⟨[⟨⟨0x10000, 0x100000, .interleave, {0, 1}⟩, 0⟩], false⟩) ∧
      creditedBytes [⟨⟨0x10000, 0x100000, .interleave, {0, 1}⟩, 0⟩] 0 = 0x80000 ∧
      ¬|creditedBytes [⟨⟨0x10000, 0x100000, .interleave, {0, 1}⟩, 0⟩] 0 -
          (40 + 60) * 0x100000 / 100| ≤ 2 * 0x100000 / 1000 + 2 * 0x1000 := by
  exact ⟨by decide +kernel, by decide +kernel, by decide +kernel, by decide +kernel⟩

end Bwap
