import Bwap.Common.Fallible
import Bwap.Common.Rounding
import Bwap.Placement.RemoteShare
import Mathlib.Algebra.BigOperators.Group.List.Basic
import Mathlib.Tactic.LinearCombination

/-!
# New weights for a target

`place_pages_weighted_s` and `place_pages_weighted_dwp` compute new weights from the table, once
for each round of placements: those of the worker nodes are scaled to a target, those of the
others are to get the rest. Each new weight is rounded on its own, and the process exits when
their rounded sum is not 100. The first function scales the other nodes by their weights; the
second gives all of the rest to each of them, so that it exits on nearly every table of more
than two nodes.
-/

namespace Bwap

open Common

/-- Why a function about weights exits. -/
inductive WeightExit
  | unsupportedWorkers (workers : ℤ)
  | weightSum (ww nww : ℚ)
  | newWeightSum (sum : Option ℤ)
deriving DecidableEq

/-- `sum_ww` and `sum_nww`. -/
structure WeightSums where
  ww : ℚ
  nww : ℚ
deriving DecidableEq

/-- A number rounded and converted to `int`. -/
def roundToInt (x : ℚ) : ℤ := (BitVec.ofInt 32 (roundAway x)).toInt

/-- One pass of the loop of `get_sum_nww_ww`. -/
def WeightSums.add (worker : ℕ) (sums : WeightSums) (node : Record) : WeightSums :=
  if node.id = worker then { sums with ww := sums.ww + node.weight }
  else { sums with nww := sums.nww + node.weight }

/-- `get_sum_nww_ww`, from the sums it finds. -/
def getSumNwwWw (sums : WeightSums) (nodesInfo : List Record) (workers : ℤ) :
    Except WeightExit WeightSums :=
  match workerNode workers with
  | none => .error (.unsupportedWorkers workers)
  | some worker =>
    let sums := nodesInfo.foldl (WeightSums.add worker) sums
    if roundToInt (sums.nww + sums.ww) ≠ 100 then .error (.weightSum sums.ww sums.nww)
    else .ok sums

/-- `check_sum`. -/
def checkSum (records : List Record) : ℤ := roundToInt (records.map Record.weight).sum

/-- `nodes_info_temp` and `weight_initialized`. -/
structure NewWeights where
  temp : List Record
  initialized : Bool
deriving DecidableEq

/-- One pass of the loop that fills `nodes_info_temp`; the weight is none where it is not a number,
and then neither is the sum. -/
def newRecord (workers : ℤ) (newWeight : Bool → ℚ → Option ℚ) (node : Record) :
    Except WeightExit Record :=
  match workerNode workers with
  | none => .error (.unsupportedWorkers workers)
  | some worker =>
    match newWeight (decide (node.id = worker)) node.weight with
    | none => .error (.newWeightSum none)
    | some weight => .ok ⟨node.id, weight⟩

/-- What both functions do before they place pages: unless they did so before, they fill
`nodes_info_temp` and check its sum. -/
def NewWeights.update (workers : ℤ) (newWeight : Bool → ℚ → Option ℚ) (nodesInfo : List Record)
    (state : NewWeights) : Except WeightExit NewWeights :=
  if state.initialized then .ok state
  else do
    let temp ← nodesInfo.mapM (newRecord workers newWeight)
    if checkSum temp ≠ 100 then .error (.newWeightSum (some (checkSum temp)))
    else .ok ⟨temp, true⟩

/-- A quotient, none where it is infinite or not a number. -/
def quotient (x y : ℚ) : Option ℚ := if y = 0 then none else some (x / y)

/-- A percentage rounded to a tenth. -/
def roundTenth (x : ℚ) : ℚ := (roundAway (x * 10) : ℚ) / 10

/-- The new weight of a node in `place_pages_weighted_s`. -/
def weightS (sums : WeightSums) (s : ℚ) (isWorker : Bool) (weight : ℚ) : Option ℚ :=
  let newS := sums.ww + s
  if isWorker then (quotient weight sums.ww).map fun part => roundTenth (part * newS)
  else (quotient weight sums.nww).map fun part => roundTenth (part * (100 - newS))

/-- The new weight of a node in `place_pages_weighted_dwp`. -/
def weightDwp (sums : WeightSums) (s : ℚ) (isWorker : Bool) (weight : ℚ) : Option ℚ :=
  let newS := sums.ww - s
  if isWorker then (quotient weight sums.ww).map fun part => (roundAway (part * newS) : ℚ)
  else some (roundAway (100 - newS))

/-- `place_pages_weighted`, with `nodes_info_temp` as its table. -/
def placePagesWeighted (P : PageSize) (mbind : MbindCall → Bool) (nodesInfoTemp : List Record)
    (addr len : Word) : Placement :=
  interleaveLoop P mbind len nodesInfoTemp 0 addr 0 nodesInfoTemp.length 0
    (Finset.range nodesInfoTemp.length)

/-- `place_pages_weighted_s`. -/
def placePagesWeightedS (P : PageSize) (mbind : MbindCall → Bool) (sums : WeightSums) (workers : ℤ)
    (nodesInfo : List Record) (state : NewWeights) (addr len : Word) (s : ℚ) :
    Except WeightExit (NewWeights × Placement) := do
  let state ← state.update workers (weightS sums s) nodesInfo
  return (state, placePagesWeighted P mbind state.temp addr len)

/-- `place_pages_weighted_dwp`. -/
def placePagesWeightedDwp (P : PageSize) (malloc : ℕ → Word → Bool)
    (movePages : MovePagesCall → Option MoveError) (sums : WeightSums) (workers : ℤ)
    (nodesInfo : List Record) (state : NewWeights) (addr len : Word) (s : ℚ) :
    Except WeightExit (NewWeights × Migration) := do
  let state ← state.update workers (weightDwp sums s) nodesInfo
  return (state, movePagesRemote P malloc movePages nodesInfo.length workers addr len s)

/-! ## The sums -/

/-- Scaling the weights of the two classes by two factors scales their sums. -/
theorem sum_scaled (worker : ℕ) (a b : ℚ) (nodesInfo : List Record) (sums : WeightSums) :
    a * (nodesInfo.foldl (WeightSums.add worker) sums).ww +
        b * (nodesInfo.foldl (WeightSums.add worker) sums).nww =
      a * sums.ww + b * sums.nww + (nodesInfo.map fun node =>
        if node.id = worker then a * node.weight else b * node.weight).sum := by
  induction nodesInfo generalizing sums with
  | nil => simp
  | cons node rest ih =>
    rw [List.foldl_cons, ih, List.map_cons, List.sum_cons, WeightSums.add]
    split_ifs with hworker
    · ring
    · ring

/-- In a table of distinct nodes, the sum over the worker class is the weight of its node. -/
theorem sum_worker {records : List Record} (hnodup : (records.map Record.id).Nodup)
    {node : Record} (hnode : node ∈ records) :
    (records.map fun other => if other.id = node.id then other.weight else 0).sum =
      node.weight := by
  induction records with
  | nil => simp at hnode
  | cons first rest ih =>
    rw [List.map_cons, List.nodup_cons] at hnodup
    rw [List.map_cons, List.sum_cons]
    rcases List.mem_cons.mp hnode with rfl | hlater
    · have hrest : rest.map (fun other => if other.id = node.id then other.weight else 0) =
          rest.map fun _ => 0 := by
        refine List.map_congr_left fun other hother => if_neg fun hsame => ?_
        exact hnodup.1 (hsame ▸ List.mem_map_of_mem hother)
      rw [hrest, if_pos rfl]
      simp
    · have hother : first.id ≠ node.id := fun hsame =>
        hnodup.1 (hsame ▸ List.mem_map_of_mem hlater)
      rw [if_neg hother, zero_add]
      exact ih hnodup.2 hlater

/-- A rounded number is converted to 100 exactly when it is 100 modulo the range of `int`. -/
theorem roundToInt_eq_hundred_iff (x : ℚ) :
    roundToInt x = 100 ↔ (2 ^ 32 : ℤ) ∣ roundAway x - 100 := by
  rw [roundToInt, BitVec.toInt_ofInt, Int.bmod_eq_iff (by decide)]
  omega

/-- The sums are those of the two classes. -/
theorem getSumNwwWw_fold {nodesInfo : List Record} {workers : ℤ} {sums : WeightSums}
    (hsums : getSumNwwWw ⟨0, 0⟩ nodesInfo workers = .ok sums) :
    ∃ worker, workerNode workers = some worker ∧
      nodesInfo.foldl (WeightSums.add worker) ⟨0, 0⟩ = sums := by
  unfold getSumNwwWw at hsums
  cases hworker : workerNode workers with
  | none => simp [hworker] at hsums
  | some worker =>
    simp only [hworker] at hsums
    split_ifs at hsums
    exact ⟨worker, rfl, Except.ok.inj hsums⟩

/-- A worker number of the source is a node of every table of several nodes. -/
theorem workerNode_lt {workers : ℤ} {worker : ℕ} (hworker : workerNode workers = some worker) :
    worker < 2 := by
  unfold workerNode at hworker
  split_ifs at hworker with hone htwo
  · obtain rfl := Option.some.inj hworker
    decide
  · obtain rfl := Option.some.inj hworker
    decide

/-- The sums over a well-formed table of several nodes: the worker class is one node, and both
classes add up to 100. -/
theorem getSumNwwWw_ok {table : WeightTable} (htwo : 2 ≤ table.records.length) {workers : ℤ}
    {sums : WeightSums} (hsums : getSumNwwWw ⟨0, 0⟩ table.records workers = .ok sums) :
    ∃ node ∈ table.records, workerNode workers = some node.id ∧ sums.ww = node.weight ∧
      sums.ww + sums.nww = 100 := by
  obtain ⟨worker, hworker, hfold⟩ := getSumNwwWw_fold hsums
  have hmem : worker ∈ table.records.map Record.id :=
    table.ids.mem_iff.mpr (List.mem_range.mpr ((workerNode_lt hworker).trans_le htwo))
  obtain ⟨node, hnode, rfl⟩ := List.mem_map.mp hmem
  have hww := sum_scaled node.id 1 0 table.records ⟨0, 0⟩
  have hall := sum_scaled node.id 1 1 table.records ⟨0, 0⟩
  have hclass := sum_worker (ids_nodup table.ids) hnode
  have htotal := table.total
  rw [hfold] at hww hall
  simp only [one_mul, zero_mul, mul_zero, add_zero, ite_self, zero_add] at hww hall
  exact ⟨node, hnode, hworker, hww.trans hclass, hall.trans htotal⟩

/-! ## The new table -/

section Update

variable {workers : ℤ} {worker : ℕ} {newWeight : Bool → ℚ → Option ℚ} {nodesInfo : List Record}
  {state : NewWeights}

/-- Where every new weight is a number, the loop fills the table with them. -/
theorem mapM_newRecord (hworker : workerNode workers = some worker) (weight : Record → ℚ)
    (hweight : ∀ node ∈ nodesInfo,
      newWeight (decide (node.id = worker)) node.weight = some (weight node)) :
    nodesInfo.mapM (newRecord workers newWeight) =
      .ok (nodesInfo.map fun node => ⟨node.id, weight node⟩) := by
  induction nodesInfo with
  | nil => rfl
  | cons node rest ih =>
    have hrest := ih fun other hother => hweight other (List.mem_cons_of_mem _ hother)
    rw [List.mapM_cons, hrest, newRecord, hworker]
    simp only [hweight node List.mem_cons_self]
    rfl

/-- The first call of a round passes the check exactly when the new weights add up to 100. -/
theorem update_eq (hfirst : state.initialized = false) {temp : List Record}
    (htemp : nodesInfo.mapM (newRecord workers newWeight) = .ok temp) :
    state.update workers newWeight nodesInfo =
      if checkSum temp = 100 then .ok ⟨temp, true⟩
      else .error (.newWeightSum (some (checkSum temp))) := by
  rw [NewWeights.update, if_neg (by simp [hfirst]), htemp]
  change (if checkSum temp ≠ 100 then _ else _) = _
  exact ite_not _ _ _

end Update

/-- The sum over a table with one value for a node and another one for all others. -/
theorem sum_one_against_rest {records : List Record}
    (hids : (records.map Record.id).Perm (List.range records.length)) {node : Record}
    (hnode : node ∈ records) (a b : ℚ) :
    (records.map fun other => if other.id = node.id then a else b).sum =
      a + (records.length - 1) * b := by
  have hsmall : node.id ∈ Finset.range records.length := by
    have hmem := hids.mem_iff.mp (List.mem_map_of_mem hnode)
    exact Finset.mem_range.mpr (List.mem_range.mp hmem)
  have hperm := (hids.map fun id => if id = node.id then a else b).sum_eq
  rw [List.map_map] at hperm
  have hshift : ∀ id ∈ Finset.range records.length,
      (if id = node.id then a else b) = b + if id = node.id then a - b else 0 := by
    intro id _
    split_ifs with hid
    · ring
    · ring
  calc (records.map fun other => if other.id = node.id then a else b).sum
      = ((List.range records.length).map fun id => if id = node.id then a else b).sum := hperm
    _ = ∑ id ∈ Finset.range records.length, if id = node.id then a else b := rfl
    _ = a + (records.length - 1) * b := by
        rw [Finset.sum_congr rfl hshift, Finset.sum_add_distrib, Finset.sum_ite_eq',
          if_pos hsmall, Finset.sum_const, Finset.card_range, nsmul_eq_mul]
        ring

/-- No weight of a table exceeds 100. -/
theorem WeightTable.weight_le (table : WeightTable) {node : Record} (hnode : node ∈ table.records) :
    node.weight ≤ 100 := by
  rw [← table.total]
  refine List.single_le_sum (fun weight hweight => ?_) _ (List.mem_map_of_mem hnode)
  obtain ⟨other, hother, rfl⟩ := List.mem_map.mp hweight
  exact table.nonneg other hother

/-! ## The exit of `place_pages_weighted_dwp` -/

section Dwp

variable {table : WeightTable} (htwo : 2 ≤ table.records.length) {workers : ℤ} {sums : WeightSums}
  (hsums : getSumNwwWw ⟨0, 0⟩ table.records workers = .ok sums) (hpos : 0 < sums.ww)
  {state : NewWeights} (hfirst : state.initialized = false) {s : ℚ}

include htwo hsums hpos hfirst in
/-- The new weights are the rounded target for the worker node and all of the rounded rest for each
other node; the process goes on when they add up to 100. -/
theorem update_weightDwp :
    let target := roundAway (sums.ww - s)
    let rest := roundAway (100 - (sums.ww - s))
    ∃ temp : List Record,
      state.update workers (weightDwp sums s) table.records =
          (if checkSum temp = 100 then .ok ⟨temp, true⟩
          else .error (.newWeightSum (some (checkSum temp)))) ∧
        (∀ node ∈ temp, node.weight = target ∨ node.weight = rest) ∧
        (temp.map Record.weight).sum =
          ((target + (table.records.length - 1) * rest : ℤ) : ℚ) := by
  intro target rest
  obtain ⟨node, hnode, hworker, hww, -⟩ := getSumNwwWw_ok htwo hsums
  let weight : Record → ℚ := fun other => if other.id = node.id then target else rest
  have hweight : ∀ other ∈ table.records,
      weightDwp sums s (decide (other.id = node.id)) other.weight = some (weight other) := by
    intro other hother
    by_cases hid : other.id = node.id
    · have hsame : other = node :=
        List.inj_on_of_nodup_map (ids_nodup table.ids) hother hnode hid
      have hquotient : quotient other.weight sums.ww = some 1 := by
        rw [quotient, if_neg hpos.ne', hsame, hww, div_self (hww ▸ hpos.ne')]
      simp [weightDwp, weight, hid, hquotient, target]
    · simp [weightDwp, weight, hid, rest]
  refine ⟨_, update_eq hfirst (mapM_newRecord hworker weight hweight), fun other hother => ?_, ?_⟩
  · obtain ⟨old, -, rfl⟩ := List.mem_map.mp hother
    change weight old = target ∨ weight old = rest
    simp only [weight]
    split_ifs
    · exact Or.inl rfl
    · exact Or.inr rfl
  · have hsum := sum_one_against_rest table.ids hnode (target : ℚ) rest
    rw [List.map_map]
    push_cast
    exact hsum

include htwo hsums hpos hfirst in
/-- The first call of a round computes nonnegative weights and goes on exactly when the rounded rest
of all further nodes, and one more where the target is a half, vanish in the range of `int`. -/
theorem placePagesWeightedDwp_ok_iff (P : PageSize) (malloc : ℕ → Word → Bool)
    (movePages : MovePagesCall → Option MoveError) (addr len : Word) (hs : 0 ≤ s)
    (hs' : s ≤ sums.ww) :
    (∃ after migration, placePagesWeightedDwp P malloc movePages sums workers table.records state
        addr len s = .ok (after, migration) ∧
      (∀ node ∈ after.temp, 0 ≤ node.weight) ∧ checkSum after.temp = 100) ↔
      (2 ^ 32 : ℤ) ∣ (table.records.length - 2) * roundAway (100 - (sums.ww - s)) +
        if Int.fract (sums.ww - s) = 1 / 2 then 1 else 0 := by
  obtain ⟨temp, hupdate, hweights, hsum⟩ := update_weightDwp htwo hsums hpos hfirst (s := s)
  obtain ⟨node, hnode, -, hww, -⟩ := getSumNwwWw_ok htwo hsums
  have htarget : 0 ≤ sums.ww - s := sub_nonneg.mpr hs'
  have hrest : sums.ww - s ≤ 100 := by
    have hle := table.weight_le hnode
    linarith
  have hcomplement := roundAway_complement (n := 100) htarget (by exact_mod_cast hrest)
  rw [Int.cast_ofNat] at hcomplement
  have hnonneg : ∀ other ∈ temp, 0 ≤ other.weight := by
    intro other hother
    rcases hweights other hother with hvalue | hvalue
    · rw [hvalue]
      exact Int.cast_nonneg (roundAway_nonneg htarget)
    · rw [hvalue]
      exact Int.cast_nonneg (roundAway_nonneg (sub_nonneg.mpr hrest))
  have hcheck : checkSum temp = 100 ↔ (2 ^ 32 : ℤ) ∣
      (table.records.length - 2) * roundAway (100 - (sums.ww - s)) +
        if Int.fract (sums.ww - s) = 1 / 2 then 1 else 0 := by
    rw [checkSum, roundToInt_eq_hundred_iff, hsum, roundAway_intCast]
    apply iff_of_eq
    congr 1
    split_ifs at hcomplement ⊢ with hhalf
    · linear_combination hcomplement
    · linear_combination hcomplement
  rw [← hcheck]
  apply Iff.intro
  · intro h
    obtain ⟨after, migration, hcall, -⟩ := h
    by_contra hfails
    rw [placePagesWeightedDwp, hupdate, if_neg hfails] at hcall
    exact absurd hcall (by simp)
  · intro hpasses
    refine ⟨⟨temp, true⟩, movePagesRemote P malloc movePages table.records.length workers addr len
      s, ?_, hnonneg, hpasses⟩
    rw [placePagesWeightedDwp, hupdate, if_pos hpasses]
    rfl

include htwo in
/-- For fewer than 2^25 nodes nothing wraps around in that range. -/
theorem dvd_rest_iff_of_few (hfew : table.records.length < 2 ^ 25) {x : ℚ} (hx : 0 ≤ x)
    (hx' : x ≤ 100) :
    (2 ^ 32 : ℤ) ∣ (table.records.length - 2) * roundAway (100 - x) +
        (if Int.fract x = 1 / 2 then 1 else 0) ↔
      Int.fract x ≠ 1 / 2 ∧ (table.records.length = 2 ∨ 199 / 2 < x) := by
  have hrest : 0 ≤ roundAway (100 - x) := roundAway_nonneg (sub_nonneg.mpr hx')
  have hhigh : roundAway (100 - x) ≤ 100 := by
    have hmono := roundAway_mono (show 100 - x ≤ ((100 : ℤ) : ℚ) by push_cast; linarith)
    rwa [roundAway_intCast] at hmono
  have hzero : roundAway (100 - x) = 0 ↔ 199 / 2 < x := by
    rw [roundAway_eq_zero_iff, abs_of_nonneg (sub_nonneg.mpr hx')]
    constructor <;> intro h <;> linarith
  have hcount : (0 : ℤ) ≤ table.records.length - 2 := by omega
  have hproduct : ((table.records.length : ℤ) - 2) * roundAway (100 - x) ≤ 2 ^ 25 * 100 :=
    mul_le_mul (by omega) hhigh hrest (by norm_num)
  have hproduct' := mul_nonneg hcount hrest
  have hvanish : ((table.records.length : ℤ) - 2) * roundAway (100 - x) = 0 ↔
      table.records.length = 2 ∨ 199 / 2 < x := by
    rw [mul_eq_zero, hzero]
    exact or_congr_left (by omega)
  rw [← hvanish]
  split_ifs with hhalf
  · simp only [hhalf, ne_eq, not_true_eq_false, false_and, iff_false]
    omega
  · simp only [hhalf, ne_eq, not_false_eq_true, true_and]
    omega

/-- The first call of a round goes on exactly when what its check adds up beyond 100 vanishes in the
range of `int`: for fewer than 2^25 nodes, when the new target is no half and either there are
two nodes or it rounds to all of the segment. -/
theorem placePagesWeightedDwp_survives_iff (P : PageSize) (malloc : ℕ → Word → Bool)
    (movePages : MovePagesCall → Option MoveError) (addr len : Word)
    (htwo : 2 ≤ table.records.length)
    (hsums : getSumNwwWw ⟨0, 0⟩ table.records workers = .ok sums) (hpos : 0 < sums.ww)
    (hfirst : state.initialized = false) (hs : 0 ≤ s) (hs' : s ≤ sums.ww) :
    let survives := ∃ after migration, placePagesWeightedDwp P malloc movePages sums workers
        table.records state addr len s = .ok (after, migration) ∧
      (∀ node ∈ after.temp, 0 ≤ node.weight) ∧ checkSum after.temp = 100
    (survives ↔ (2 ^ 32 : ℤ) ∣ (table.records.length - 2) * roundAway (100 - (sums.ww - s)) +
        if Int.fract (sums.ww - s) = 1 / 2 then 1 else 0) ∧
      (table.records.length < 2 ^ 25 →
        (survives ↔ Int.fract (sums.ww - s) ≠ 1 / 2 ∧
          (table.records.length = 2 ∨ 199 / 2 < sums.ww - s))) := by
  intro survives
  have hiff := placePagesWeightedDwp_ok_iff htwo hsums hpos hfirst P malloc movePages addr len hs
    hs'
  obtain ⟨node, hnode, -, hww, -⟩ := getSumNwwWw_ok htwo hsums
  have hrest : sums.ww - s ≤ 100 := by
    have hle := table.weight_le hnode
    linarith
  exact ⟨hiff, fun hfew => hiff.trans (dvd_rest_iff_of_few htwo hfew (sub_nonneg.mpr hs') hrest)⟩

end Dwp

/-- Two nodes, a target of 50 percent: both new weights are 50. -/
theorem placePagesWeightedDwp_survives_two_nodes :
    ∃ after migration, placePagesWeightedDwp .fourKiB (fun _ _ => true) (fun _ => none) ⟨60, 40⟩ 1
        WeightTable.twoNodeTable.records ⟨[], false⟩ 0x7f0000000000 0x4000 10 =
          .ok (after, migration) ∧
      (∀ node ∈ after.temp, 0 ≤ node.weight) ∧ checkSum after.temp = 100 :=
  ((@placePagesWeightedDwp_survives_iff WeightTable.twoNodeTable 1 ⟨60, 40⟩ ⟨[], false⟩ 10 .fourKiB
    (fun _ _ => true) (fun _ => none) 0x7f0000000000 0x4000 (by decide) (by decide +kernel)
    (by norm_num) rfl (by norm_num) (by norm_num)).2 (by decide)).mpr
      ⟨by decide +kernel, Or.inl (by decide)⟩

/-- Two nodes, a target of 59 1/2 percent: the new weights are 60 and 41, and the process exits. -/
theorem placePagesWeightedDwp_exits_on_half :
    getSumNwwWw ⟨0, 0⟩ WeightTable.twoNodeTable.records 1 = .ok ⟨60, 40⟩ ∧
      WeightTable.twoNodeTable.records.mapM (newRecord 1 (weightDwp ⟨60, 40⟩ (1 / 2))) =
        .ok [⟨1, 41⟩, ⟨0, 60⟩] ∧
      placePagesWeightedDwp .fourKiB (fun _ _ => true) (fun _ => none) ⟨60, 40⟩ 1
        WeightTable.twoNodeTable.records ⟨[], false⟩ 0x7f0000000000 0x4000 (1 / 2) =
          .error (.newWeightSum (some 101)) := by
  exact ⟨by decide +kernel, by decide +kernel, by decide +kernel⟩

end Bwap
