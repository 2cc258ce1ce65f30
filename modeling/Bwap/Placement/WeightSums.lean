import Bwap.Common.Runs
import Bwap.Placement.NewWeights
import Bwap.Placement.WeightsFile

/-!
# The two sums over a history of calls

`get_sum_nww_ww` adds the weights of the table to `sum_ww` and `sum_nww`, which are global and
which nothing sets back. The first call after a table is read leaves in them what the table
holds. Every later one adds a table once more, whether or not another one was read in between,
and exits because the two add up to 200.
-/

namespace Bwap

open Common

/-- A stored record as `get_sum_nww_ww` compares it, by the 32 bits of its node number. -/
def StoredRecord.toRecord (node : StoredRecord) : Record :=
  ⟨(BitVec.ofInt 32 node.id).toNat, node.weight⟩

/-- `nodes_info`, `sum_ww` and `sum_nww`, and why the process exited, if it did. -/
structure SumsState where
  nodesInfo : List StoredRecord
  sums : WeightSums
  exited : Option WeightExit
deriving DecidableEq

/-- The globals as they are initialized. -/
def SumsState.start (maxNodes : ℕ) : SumsState :=
  ⟨List.replicate maxNodes ⟨0, 0⟩, ⟨0, 0⟩, none⟩

/-- The table as `get_sum_nww_ww` compares its records. -/
def SumsState.records (s : SumsState) : List Record := s.nodesInfo.map StoredRecord.toRecord

/-- A call of `get_sum_nww_ww` on the globals. -/
def SumsState.getSum (s : SumsState) (workers : ℤ) : SumsState :=
  match getSumNwwWw s.sums s.records workers with
  | .ok sums => { s with sums }
  | .error reason => { s with exited := some reason }

/-- The calls of a history: a table is read, from the value that `system` returns and the file, or
the sums are taken. -/
inductive SumsCall
  | readWeights (retcode : ℤ) (content : List Char)
  | getSum (workers : ℤ)
deriving DecidableEq

/-- Whether a call takes the sums. -/
def SumsCall.isGetSum : SumsCall → Bool
  | .readWeights _ _ => false
  | .getSum _ => true

/-- One call: `read_weights` leaves a table of nonnegative weights that add up to 100, or
`get_sum_nww_ww` is called for one or two workers. -/
inductive SumsStep (atof : List Char → ℚ) (atoi : List Char → ℤ)
    (sort : List (List Char) → List (List Char)) : SumsState → SumsCall → SumsState → Prop
  | readWeights {s : SumsState} {retcode : ℤ} {content : List Char} {table : List StoredRecord}
      (hrunning : s.exited = none)
      (hread : readWeights atof atoi sort retcode (some content) s.nodesInfo = .returned table)
      (hnonneg : ∀ node ∈ table, 0 ≤ node.weight)
      (htotal : (table.map StoredRecord.weight).sum = 100) :
      SumsStep atof atoi sort s (.readWeights retcode content) { s with nodesInfo := table }
  | getSum {s : SumsState} {workers : ℤ} (hrunning : s.exited = none)
      (hworkers : workers = 1 ∨ workers = 2) :
      SumsStep atof atoi sort s (.getSum workers) (s.getSum workers)

/-- The sums of a table: what it gives the worker node, and what it gives all others. -/
def tableSums (worker : ℕ) (records : List Record) : WeightSums :=
  ⟨(records.map fun node => if node.id = worker then node.weight else 0).sum,
    (records.map fun node => if node.id = worker then 0 else node.weight).sum⟩

/-- The process goes on, with the sums of its current table. -/
def SumsState.DescribesTable (workers : ℤ) (s : SumsState) : Prop :=
  s.exited = none ∧
    ∃ worker, workerNode workers = some worker ∧ s.sums = tableSums worker s.records

/-- After every call of `get_sum_nww_ww`, the sums are those of the table at that time. -/
def SumsDescribeTable (trace : List (SumsCall × SumsState)) : Prop :=
  ∀ workers s, (SumsCall.getSum workers, s) ∈ trace → s.DescribesTable workers

/-- A history takes the sums at most once, and not as the first thing it does. -/
def SummedOnce (calls : List SumsCall) : Prop :=
  calls.countP SumsCall.isGetSum ≤ 1 ∧ ∀ call ∈ calls.head?, call.isGetSum = false

/-- Sums that describe one table for the same workers are the same, so that a call made twice in a
row would have to give them again. -/
theorem SumsState.DescribesTable.sums_eq {s s' : SumsState} {workers : ℤ}
    (h : s.DescribesTable workers) (h' : s'.DescribesTable workers)
    (htable : s'.nodesInfo = s.nodesInfo) : s'.sums = s.sums := by
  obtain ⟨-, worker, hworker, hsums⟩ := h
  obtain ⟨-, worker', hworker', hsums'⟩ := h'
  obtain rfl := Option.some.inj (hworker.symm.trans hworker')
  rw [hsums, hsums', SumsState.records, SumsState.records, htable]

/-! ## One call -/

/-- The loop adds the sums of the table to those it finds. -/
theorem foldl_add_eq (worker : ℕ) (records : List Record) (sums : WeightSums) :
    records.foldl (WeightSums.add worker) sums =
      ⟨sums.ww + (tableSums worker records).ww, sums.nww + (tableSums worker records).nww⟩ := by
  have hww := sum_scaled worker 1 0 records sums
  have hnww := sum_scaled worker 0 1 records sums
  simp only [one_mul, zero_mul, add_zero, zero_add] at hww hnww
  exact congrArg₂ WeightSums.mk hww hnww

/-- Both sums of a table add up to all of its weights. -/
theorem tableSums_total (worker : ℕ) (records : List Record) :
    (tableSums worker records).ww + (tableSums worker records).nww =
      (records.map Record.weight).sum := by
  have htotal := sum_scaled worker 1 1 records ⟨0, 0⟩
  rw [foldl_add_eq] at htotal
  simpa using htotal

/-- The weights of a stored table are those of its records. -/
theorem sum_records (s : SumsState) :
    (s.records.map Record.weight).sum = (s.nodesInfo.map StoredRecord.weight).sum := by
  rw [SumsState.records, List.map_map]
  rfl

/-- One or two workers stand for a node. -/
theorem exists_workerNode {workers : ℤ} (hworkers : workers = 1 ∨ workers = 2) :
    ∃ worker, workerNode workers = some worker := by
  rcases hworkers with rfl | rfl
  · exact ⟨0, rfl⟩
  · exact ⟨1, rfl⟩

section Call

variable {s : SumsState} {workers : ℤ}

/-- A call leaves the table as it is. -/
@[simp] theorem getSum_nodesInfo : (s.getSum workers).nodesInfo = s.nodesInfo := by
  rw [SumsState.getSum]
  split <;> rfl

/-- A call for one or two workers adds the sums of the table to those it finds, and then exits
unless what it has is 100 when rounded. -/
theorem getSum_eq {worker : ℕ} (hworker : workerNode workers = some worker) :
    let sums : WeightSums := ⟨s.sums.ww + (tableSums worker s.records).ww,
      s.sums.nww + (tableSums worker s.records).nww⟩
    s.getSum workers =
      if roundToInt (s.sums.ww + s.sums.nww + (s.nodesInfo.map StoredRecord.weight).sum) = 100 then
        { s with sums }
      else { s with exited := some (.weightSum sums.ww sums.nww) } := by
  intro sums
  have htotal : sums.nww + sums.ww =
      s.sums.ww + s.sums.nww + (s.nodesInfo.map StoredRecord.weight).sum := by
    rw [← sum_records, ← tableSums_total worker]
    ring
  rw [SumsState.getSum, getSumNwwWw, hworker]
  simp only [foldl_add_eq]
  rw [htotal]
  by_cases hcheck :
      roundToInt (s.sums.ww + s.sums.nww + (s.nodesInfo.map StoredRecord.weight).sum) = 100
  · rw [if_neg (not_not_intro hcheck), if_pos hcheck]
  · rw [if_pos hcheck, if_neg hcheck]

/-- From sums of nothing and a table of 100 in all, a call takes the sums of the table. -/
theorem getSum_describesTable (hrunning : s.exited = none)
    (hworkers : workers = 1 ∨ workers = 2) (hzero : s.sums = ⟨0, 0⟩)
    (htable : (s.nodesInfo.map StoredRecord.weight).sum = 100) :
    (s.getSum workers).DescribesTable workers ∧
      (s.getSum workers).sums.ww + (s.getSum workers).sums.nww = 100 := by
  obtain ⟨worker, hworker⟩ := exists_workerNode hworkers
  have hcheck :
      roundToInt (s.sums.ww + s.sums.nww + (s.nodesInfo.map StoredRecord.weight).sum) = 100 := by
    rw [hzero, htable]
    decide +kernel
  have hsums : (s.getSum workers).sums = tableSums worker s.records := by
    rw [getSum_eq hworker, if_pos hcheck, hzero]
    simp only [zero_add]
  have htotal := tableSums_total worker s.records
  rw [sum_records, htable] at htotal
  refine ⟨⟨?_, worker, hworker, ?_⟩, ?_⟩
  · rw [getSum_eq hworker, if_pos hcheck]
    exact hrunning
  · rw [hsums, getSum_eq hworker, if_pos hcheck]
    rfl
  · rwa [hsums]

/-- Where the sums found and the table are not 100 together, a call exits. -/
theorem getSum_exits (hworkers : workers = 1 ∨ workers = 2)
    (hcheck :
      roundToInt (s.sums.ww + s.sums.nww + (s.nodesInfo.map StoredRecord.weight).sum) ≠ 100) :
    ¬(s.getSum workers).DescribesTable workers := by
  obtain ⟨worker, hworker⟩ := exists_workerNode hworkers
  rw [getSum_eq hworker, if_neg hcheck]
  exact fun h => absurd h.1 (by simp)

end Call

/-! ## Histories -/

/-- The sums describe the table after no call at all. -/
@[simp] theorem sumsDescribeTable_nil : SumsDescribeTable [] := by
  simp [SumsDescribeTable]

/-- Reading a table asks nothing of the sums. -/
@[simp] theorem sumsDescribeTable_read (retcode : ℤ) (content : List Char) (s : SumsState)
    (trace : List (SumsCall × SumsState)) :
    SumsDescribeTable ((.readWeights retcode content, s) :: trace) ↔ SumsDescribeTable trace := by
  simp [SumsDescribeTable]

/-- Taking the sums asks that they describe the table, then and later. -/
@[simp] theorem sumsDescribeTable_getSum (workers : ℤ) (s : SumsState)
    (trace : List (SumsCall × SumsState)) :
    SumsDescribeTable ((.getSum workers, s) :: trace) ↔
      s.DescribesTable workers ∧ SumsDescribeTable trace := by
  constructor
  · intro h
    exact ⟨h workers s List.mem_cons_self,
      fun workers' s' hlater => h workers' s' (List.mem_cons_of_mem _ hlater)⟩
  · rintro ⟨hfirst, hrest⟩ workers' s' hmem
    rcases List.mem_cons.mp hmem with hsame | hlater
    · cases hsame
      exact hfirst
    · exact hrest workers' s' hlater

section History

variable {atof : List Char → ℚ} {atoi : List Char → ℤ}
  {sort : List (List Char) → List (List Char)} {s : SumsState}
  {trace : List (SumsCall × SumsState)}

/-- Once the sums are 100, no call can take them again. -/
theorem describeTable_iff_of_summed (hrun : Run (SumsStep atof atoi sort) s trace)
    (hsums : s.sums.ww + s.sums.nww = 100)
    (htable : (s.nodesInfo.map StoredRecord.weight).sum = 100) :
    SumsDescribeTable trace ↔ (trace.map Prod.fst).countP SumsCall.isGetSum = 0 := by
  induction hrun with
  | nil s => simp
  | cons hstep _ ih =>
    cases hstep with
    | readWeights hrunning hread hnonneg htotal =>
      simpa [SumsCall.isGetSum] using ih hsums htotal
    | getSum hrunning hworkers =>
      have hexits := getSum_exits hworkers (by rw [hsums, htable]; decide +kernel)
      simp [SumsCall.isGetSum, hexits]

/-- While nothing has been added to them, one call can. -/
theorem describeTable_iff_of_unsummed (hrun : Run (SumsStep atof atoi sort) s trace)
    (hzero : s.sums = ⟨0, 0⟩) (htable : (s.nodesInfo.map StoredRecord.weight).sum = 100) :
    SumsDescribeTable trace ↔ (trace.map Prod.fst).countP SumsCall.isGetSum ≤ 1 := by
  induction hrun with
  | nil s => simp
  | cons hstep hrest ih =>
    cases hstep with
    | readWeights hrunning hread hnonneg htotal =>
      simpa [SumsCall.isGetSum] using ih hzero htotal
    | getSum hrunning hworkers =>
      obtain ⟨hdescribes, hsums⟩ := getSum_describesTable hrunning hworkers hzero htable
      have hlater := describeTable_iff_of_summed hrest hsums (by rwa [getSum_nodesInfo])
      rw [sumsDescribeTable_getSum, List.map_cons, List.countP_cons_of_pos rfl, hlater,
        and_iff_right hdescribes]
      omega

/-- The table of the start has no weights. -/
theorem sum_start (maxNodes : ℕ) :
    ((SumsState.start maxNodes).nodesInfo.map StoredRecord.weight).sum = 0 := by
  simp [SumsState.start]

end History

/-- In every history from the start, the sums describe the table after each call of
`get_sum_nww_ww`, and the process goes on, exactly when there is at most one such call and a table
is read before it. -/
theorem getSum_describesTable_iff (atof : List Char → ℚ) (atoi : List Char → ℤ)
    (sort : List (List Char) → List (List Char)) (maxNodes : ℕ)
    {trace : List (SumsCall × SumsState)}
    (hrun : Run (SumsStep atof atoi sort) (.start maxNodes) trace) :
    SumsDescribeTable trace ↔ SummedOnce (trace.map Prod.fst) := by
  cases hrun with
  | nil => simp [SummedOnce]
  | cons hstep hrest =>
    cases hstep with
    | readWeights hrunning hread hnonneg htotal =>
      have hlater := describeTable_iff_of_unsummed hrest rfl htotal
      simp [SummedOnce, SumsCall.isGetSum, hlater]
    | getSum hrunning hworkers =>
      -- nothing has been read, and nothing adds up to 100
      have hexits := getSum_exits (s := .start maxNodes) hworkers (by
        rw [sum_start]
        change roundToInt (0 + 0 + 0) ≠ 100
        decide +kernel)
      simp [SummedOnce, SumsCall.isGetSum, hexits]

/-- The lines "40 1" and "60 0". -/
def twoLines : List Char := ['4', '0', ' ', '1', '\n', '6', '0', ' ', '0', '\n']

/-- The numbers of these lines. -/
def twoLinesNumber (token : List Char) : ℤ :=
  if token = ['4', '0'] then 40 else if token = ['6', '0'] then 60
  else if token = ['1', '\n'] then 1 else 0

/-- The globals after these lines are read. -/
def SumsState.twoRecords : SumsState := ⟨[⟨1, 40⟩, ⟨0, 60⟩], ⟨0, 0⟩, none⟩

/-- The two lines are read into the two records. -/
theorem step_twoLines :
    SumsStep (fun token => twoLinesNumber token) twoLinesNumber id (.start 2)
      (.readWeights 0 twoLines) .twoRecords :=
  .readWeights rfl (by decide +kernel) (by decide +kernel) (by decide +kernel)

/-- The sums are taken once: 60 for node 0 and 40 for the other one. -/
theorem getSum_describesTable_once :
    (SumsState.twoRecords.getSum 1).sums = ⟨60, 40⟩ ∧
      SumsDescribeTable [(.readWeights 0 twoLines, .twoRecords),
        (.getSum 1, SumsState.twoRecords.getSum 1)] :=
  ⟨by decide +kernel, (getSum_describesTable_iff (fun token => twoLinesNumber token) twoLinesNumber
    id 2 (.cons step_twoLines (.cons (.getSum rfl (Or.inl rfl)) (.nil _)))).mpr
      ⟨by decide, by decide⟩⟩

/-- They are taken twice in a row: the second call finds 60 and 40, comes to 120 and 80, and
exits. -/
theorem getSum_twice_exits :
    let once := SumsState.twoRecords.getSum 1
    let trace : List (SumsCall × SumsState) := [(.readWeights 0 twoLines, .twoRecords),
      (.getSum 1, once), (.getSum 1, once.getSum 1)]
    Run (SumsStep (fun token => twoLinesNumber token) twoLinesNumber id) (.start 2) trace ∧
      (once.getSum 1).exited = some (.weightSum 120 80) ∧ ¬SumsDescribeTable trace := by
  intro once trace
  have honce : once.exited = none := by decide +kernel
  have htwice : (once.getSum 1).exited = some (.weightSum 120 80) := by decide +kernel
  refine ⟨.cons step_twoLines (.cons (.getSum rfl (Or.inl rfl))
    (.cons (.getSum honce (Or.inl rfl)) (.nil _))), htwice, fun hdescribe => ?_⟩
  have hlast := hdescribe 1 (once.getSum 1) (by simp [trace])
  rw [SumsState.DescribesTable, htwice] at hlast
  exact absurd hlast.1 (by simp)

end Bwap
