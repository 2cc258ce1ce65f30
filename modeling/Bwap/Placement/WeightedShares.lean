import Bwap.Placement.Weighted
import Mathlib.Data.Finset.Card
import Mathlib.Algebra.Order.Group.Abs

/-!
# What weighted interleaving delivers

On an ascending table and a segment of whole pages, the calls of
`place_pages_weighted_initial` tile the segment, and every node is credited with its
weighted share of the bytes up to one page for each node. Rounding errors of earlier
slices accumulate in the running total and the final clamp pushes them onto the last
slices, so the bound is carried by the running totals and turned into one on the credit of
a node by summation by parts over the shrinking masks.
-/

namespace Bwap

open Common

/-- The bytes a list of calls gives a node when each range is spread evenly over its mask. -/
def creditedBytes (calls : List IssuedCall) (node : ℕ) : ℚ :=
  (calls.map fun call =>
    if node ∈ call.nodes then (call.len.toNat : ℚ) / call.nodes.card else 0).sum

/-! ## The credit of a node -/

section Credit

variable {records : List Record} {addr : Word}

/-- The credit from a list of slices is the sum over the slices; empty ones give nothing. -/
theorem creditedBytes_sliceCalls (budget : ℕ) (hbudget : budget < 2 ^ 64) (demand : ℕ → ℕ)
    (policy : MemoryPolicy) (nodes : ℕ → Finset ℕ) (node n : ℕ) :
    creditedBytes ((List.range n).filterMap (sliceCall addr budget demand policy nodes)) node =
      ∑ i ∈ Finset.range n,
        if node ∈ nodes i then (slice budget demand i : ℚ) / (nodes i).card else 0 := by
  induction n with
  | zero => rfl
  | succ n ih =>
    rw [Finset.sum_range_succ, ← ih, List.range_succ, List.filterMap_append, creditedBytes,
      List.map_append, List.sum_append, ← creditedBytes]
    congr 1
    by_cases hempty : slice budget demand n = 0
    · have hskip : sliceCall addr budget demand policy nodes n = none := if_pos hempty
      rw [List.filterMap_cons_none hskip, hempty]
      simp
    · have hmake : sliceCall addr budget demand policy nodes n = some _ := if_neg hempty
      rw [List.filterMap_cons_some hmake]
      simp only [List.filterMap_nil, List.map_cons, List.map_nil, List.sum_cons, List.sum_nil,
        add_zero, toNat_slice hbudget]

/-- The credit of a node is the sum of its parts of the slices up to its own. -/
theorem creditedBytes_eq (hids : (records.map Record.id).Perm (List.range records.length))
    (demand : ℕ → ℕ) {size : ℕ} (hsize : size < 2 ^ 64) {k : ℕ} (hk : k < records.length) :
    creditedBytes ((List.range records.length).filterMap
        (sliceCall addr size demand .interleave (remainingNodes records))) records[k].id =
      ∑ i ∈ Finset.range (k + 1), 1 / ((records.length : ℚ) - i) * slice size demand i := by
  have hfilter : (Finset.range records.length).filter (fun i => i ≤ k) =
      Finset.range (k + 1) := by
    ext i
    simp only [Finset.mem_filter, Finset.mem_range]
    omega
  rw [creditedBytes_sliceCalls _ hsize]
  simp only [mem_remainingNodes_iff hids hk]
  rw [← Finset.sum_filter, hfilter]
  apply Finset.sum_congr rfl
  intro i hi
  have hik : i ≤ records.length := by
    have hlt := Finset.mem_range.mp hi
    omega
  rw [card_remainingNodes hids, Nat.cast_sub hik, div_eq_mul_one_div, mul_comm]

/-- Without rounding, the parts of the slices before a node add up to the weight before it. -/
theorem sum_idealCredit_before (size : ℕ) {k : ℕ} (hk : k ≤ records.length) :
    ∑ i ∈ Finset.range k, 1 / ((records.length : ℚ) - i) * idealShare records size i =
      weightBefore records k * size / 100 := by
  have hterm : ∀ i ∈ Finset.range k, 1 / ((records.length : ℚ) - i) *
      idealShare records size i =
        (weightBefore records (i + 1) - weightBefore records i) * (size / 100) := by
    intro i hi
    have hin : i < records.length := (Finset.mem_range.mp hi).trans_le hk
    have hleft : (records.length : ℚ) - i ≠ 0 :=
      sub_ne_zero.mpr (Nat.cast_injective.ne hin.ne')
    rw [idealShare, if_pos hin]
    field_simp
  rw [Finset.sum_congr rfl hterm, ← Finset.sum_mul, Finset.sum_range_sub]
  simp only [weightBefore]
  ring

/-- So a node is credited with exactly its weight. -/
theorem sum_idealCredit (size : ℕ) {k : ℕ} (hk : k < records.length) :
    ∑ i ∈ Finset.range (k + 1), 1 / ((records.length : ℚ) - i) * idealShare records size i =
      records[k].weight * size / 100 := by
  rw [sum_idealCredit_before size hk, weightBefore_succ (List.getElem?_eq_getElem hk)]

/-- The part of a slice that a node gets is at most the slice. -/
theorem part_mem {i : ℕ} (hi : i < records.length) :
    0 ≤ 1 / ((records.length : ℚ) - i) ∧ 1 / ((records.length : ℚ) - i) ≤ 1 := by
  have hgap : (i : ℚ) + 1 ≤ records.length := by exact_mod_cast hi
  exact ⟨div_nonneg zero_le_one (by linarith), (div_le_one (by linarith)).mpr (by linarith)⟩

/-- The parts of errors that are at most a bound each add up to at most the bound for each node. -/
theorem sum_part_errors_le {k : ℕ} (hk : k < records.length) {bound : ℚ} (hbound : 0 ≤ bound)
    {error : ℕ → ℚ} (herror : ∀ i ≤ k, error i ≤ bound) :
    ∑ i ∈ Finset.range (k + 1), 1 / ((records.length : ℚ) - i) * error i ≤
      records.length * bound := by
  have hterm : ∀ i ∈ Finset.range (k + 1),
      1 / ((records.length : ℚ) - i) * error i ≤ bound := by
    intro i hi
    have hik := Finset.mem_range.mp hi
    obtain ⟨hpart, hpart'⟩ := part_mem (show i < records.length by omega)
    have hmul := mul_le_mul_of_nonneg_left (herror i (by omega)) hpart
    exact hmul.trans (mul_le_of_le_one_left hbound hpart')
  have hsum := Finset.sum_le_sum hterm
  rw [Finset.sum_const, Finset.card_range, nsmul_eq_mul] at hsum
  exact hsum.trans (mul_le_mul_of_nonneg_right (Nat.cast_le.mpr hk) hbound)

/-- The parts of slices that exceed their shares by at most a bound add up to the weight of the
node and to the bound for each node. -/
theorem sum_parts_le (size : ℕ) {k : ℕ} (hk : k < records.length) {bound : ℚ} (hbound : 0 ≤ bound)
    {taken : ℕ → ℚ} (htaken : ∀ i ≤ k, taken i ≤ idealShare records size i + bound) :
    ∑ i ∈ Finset.range (k + 1), 1 / ((records.length : ℚ) - i) * taken i ≤
      records[k].weight * size / 100 + records.length * bound := by
  have herrors := sum_part_errors_le hk hbound fun i hi => sub_le_iff_le_add'.mpr (htaken i hi)
  simp only [mul_sub] at herrors
  rw [Finset.sum_sub_distrib, sum_idealCredit size hk] at herrors
  exact sub_le_iff_le_add'.mp herrors

/-- The same bound from below, by exchanging shares and slices. -/
theorem le_sum_parts (size : ℕ) {k : ℕ} (hk : k < records.length) {bound : ℚ} (hbound : 0 ≤ bound)
    {taken : ℕ → ℚ} (htaken : ∀ i ≤ k, idealShare records size i - bound ≤ taken i) :
    records[k].weight * size / 100 - records.length * bound ≤
      ∑ i ∈ Finset.range (k + 1), 1 / ((records.length : ℚ) - i) * taken i := by
  have herrors := sum_part_errors_le hk hbound fun i hi => sub_le_comm.mp (htaken i hi)
  simp only [mul_sub] at herrors
  rw [Finset.sum_sub_distrib, sum_idealCredit size hk] at herrors
  exact sub_le_comm.mp herrors

end Credit

namespace WeightTable

variable {table : WeightTable} {P : PageSize} {mbind : MbindCall → Bool} {addr len : Word}

/-- The running total reaches the whole segment. -/
theorem filled_weighted_eq (hcount : table.records.length ≤ P.bytes) (hlen : P.bytes ∣ len.toNat) :
    filled len.toNat (roundedShare P.bytes (idealShare table.records len.toNat))
      table.records.length = len.toNat :=
  filled_eq_budget P.bytes_pos _ hlen hcount
    (table.sum_idealShare_eq len.toNat).ge

/-- Unless a call fails, exactly the calls computed from the running totals are issued. -/
theorem issued_eq (hsorted : table.Ascending) (hlen : P.bytes ∣ len.toNat)
    (hok : (placePagesWeightedInitial P mbind table.records addr len).aborted = false) :
    (placePagesWeightedInitial P mbind table.records addr len).issued =
      (List.range table.records.length).filterMap
        (weightedCalls P table.records addr len.toNat) := by
  rw [placePagesWeightedInitial_eq P mbind hsorted addr len hlen] at hok ⊢
  exact Placement.issueAll_issued mbind _ hok

/-- The calls computed from the running totals tile the segment. -/
theorem weightedCalls_tile (hcount : table.records.length ≤ P.bytes) (haddr : P.bytes ∣ addr.toNat)
    (hlen : P.bytes ∣ len.toNat) :
    Tiles P addr len ((List.range table.records.length).filterMap
      (weightedCalls P table.records addr len.toNat)) := by
  have htiles := tiles_sliceCalls P addr len.toNat
    (roundedShare P.bytes (idealShare table.records len.toNat)) .interleave
    (remainingNodes table.records) len.isLt haddr hlen (fun i => dvd_roundUp _ _)
    (filled_weighted_eq hcount hlen)
  rwa [BitVec.ofNat_toNat, BitVec.setWidth_eq] at htiles

/-- A kernel that refuses every policy call inside a nonempty segment stops the process. -/
theorem placePagesWeightedInitial_refused (hsorted : table.Ascending)
    (hcount : table.records.length ≤ P.bytes) (haddr : P.bytes ∣ addr.toNat)
    (hlen : P.bytes ∣ len.toNat) (hpos : 0 < len.toNat)
    (hrefused : ∀ call, InRange addr len call.start → mbind call = false) :
    (placePagesWeightedInitial P mbind table.records addr len).aborted = true := by
  rw [placePagesWeightedInitial_eq P mbind hsorted addr len hlen, ← Bool.not_eq_false]
  intro hok
  have htiles := weightedCalls_tile hcount haddr hlen
  obtain ⟨call, hcall, -⟩ := (htiles.union addr).mpr (inRange_start hpos)
  have hstart : InRange addr len call.start := by
    apply (htiles.union call.start).mp
    have hnonempty : call.len.toNat ≠ 0 := fun hzero =>
      htiles.nonempty call hcall (BitVec.eq_of_toNat_eq hzero)
    exact ⟨call, hcall, inRange_start (Nat.pos_of_ne_zero hnonempty)⟩
  have haccepted := Placement.issueAll_accepted mbind _ hok call hcall
  rw [hrefused call.toMbindCall hstart] at haccepted
  exact absurd haccepted (by simp)

/-- The calls of weighted interleaving tile the segment in ascending order, and the call of
an iteration carries the node of that iteration and all later ones. -/
theorem placePagesWeightedInitial_tiles (hsorted : table.Ascending)
    (hcount : table.records.length ≤ P.bytes) (haddr : P.bytes ∣ addr.toNat)
    (hlen : P.bytes ∣ len.toNat)
    (hok : (placePagesWeightedInitial P mbind table.records addr len).aborted = false) :
    let calls := (placePagesWeightedInitial P mbind table.records addr len).issued
    Tiles P addr len calls ∧ calls.Pairwise (fun a b => a.iteration < b.iteration) ∧
      ∀ call ∈ calls, call.iteration < table.records.length ∧ call.policy = .interleave ∧
        call.nodes = ((table.records.drop call.iteration).map Record.id).toFinset := by
  intro calls
  have hcalls : calls = _ := issued_eq hsorted hlen hok
  rw [hcalls]
  have htiles := weightedCalls_tile hcount haddr hlen
  have hread {i : ℕ} {call : IssuedCall}
      (h : weightedCalls P table.records addr len.toNat i = some call) :
      call.iteration = i ∧ call.policy = .interleave ∧
        call.nodes = remainingNodes table.records i := by
    obtain ⟨-, rfl⟩ := (sliceCall_eq_some_iff _ _ _ _ _).mp h
    exact ⟨rfl, rfl, rfl⟩
  have horder : ((List.range table.records.length).filterMap
      (weightedCalls P table.records addr len.toNat)).Pairwise
        (fun a b => a.iteration < b.iteration) := by
    rw [List.pairwise_filterMap]
    refine List.pairwise_lt_range.imp fun {i j} hij a ha b hb => ?_
    rw [(hread ha).1, (hread hb).1]
    exact hij
  refine ⟨htiles, horder, fun call hcall => ?_⟩
  obtain ⟨i, hi, hmake⟩ := List.mem_filterMap.mp hcall
  obtain ⟨hiter, hpolicy, hnodes⟩ := hread hmake
  rw [hiter, hnodes, remainingNodes_eq table.ids]
  exact ⟨List.mem_range.mp hi, hpolicy, rfl⟩

/-- The tiling of ten pages with the two-node table. -/
theorem placePagesWeightedInitial_tiles_two_nodes :
    let calls := (placePagesWeightedInitial ⟨12, by decide⟩ (fun _ => true) twoNodeTable.records
      0x10000 0xa000).issued
    Tiles ⟨12, by decide⟩ 0x10000 0xa000 calls ∧
      calls.Pairwise (fun a b => a.iteration < b.iteration) ∧
      ∀ call ∈ calls, call.iteration < twoNodeTable.records.length ∧
        call.policy = .interleave ∧
        call.nodes = ((twoNodeTable.records.drop call.iteration).map Record.id).toFinset :=
  placePagesWeightedInitial_tiles twoNodeTable_ascending (by decide) (by decide) (by decide)
    twoNodeTable_accepted

/-- The parts of a slice grow along the table, and none exceeds the slice. -/
theorem part_mono {n k i : ℕ} (hk : k < n) (hi : i < k) :
    1 / ((n : ℚ) - i) ≤ 1 / ((n : ℚ) - (i + 1 : ℕ)) := by
  have hgap : ((i + 1 : ℕ) : ℚ) + 1 ≤ n := by exact_mod_cast (by omega : i + 1 + 1 ≤ n)
  push_cast at hgap ⊢
  exact one_div_le_one_div_of_le (by linarith) (by linarith)

/-- Every node is credited with its weighted share up to a page for each node. -/
theorem placePagesWeightedInitial_shares (hsorted : table.Ascending) (hlen : P.bytes ∣ len.toNat)
    (hok : (placePagesWeightedInitial P mbind table.records addr len).aborted = false) (k : ℕ)
    (hk : k < table.records.length) :
    |creditedBytes (placePagesWeightedInitial P mbind table.records addr len).issued
        table.records[k].id - table.records[k].weight * len.toNat / 100| ≤
      table.records.length * P.bytes := by
  let n : ℚ := table.records.length
  let share := idealShare table.records len.toNat
  let demand := roundedShare P.bytes share
  let part : ℕ → ℚ := fun i => 1 / (n - i)
  let error : ℕ → ℚ := fun i => slice len.toNat demand i - share i
  have hP : (1 : ℚ) ≤ P.bytes := by exact_mod_cast P.bytes_pos
  have hkn : (k : ℚ) + 1 ≤ table.records.length := by exact_mod_cast Nat.succ_le_of_lt hk
  have hk0 : (0 : ℚ) ≤ k := Nat.cast_nonneg k
  -- the errors of the first slices, in total
  have herrors (i : ℕ) (hi : i ≤ k + 1) : -(i : ℚ) ≤ ∑ j ∈ Finset.range i, error j ∧
      ∑ j ∈ Finset.range i, error j ≤ i * ((P.bytes : ℚ) - 1) :=
    sum_slice_sub_share_mem P.bytes_pos share (idealShare_nonneg hsorted _)
      (sum_idealShare_le hsorted len.toNat (by omega))
  have hlower (i : ℕ) (hi : i ≤ k + 1) : -(i * 1 : ℚ) ≤ ∑ j ∈ Finset.range i, error j := by
    rw [mul_one]
    exact (herrors i hi).1
  have hfirst : 0 ≤ part 0 := (part_mem (show 0 < table.records.length by omega)).1
  have hmono : ∀ i < k, part i ≤ part (i + 1) := fun i hi => part_mono hk hi
  obtain ⟨-, hpart⟩ : 0 ≤ part k ∧ part k ≤ 1 := part_mem hk
  have habove := weighted_sum_le_of_prefix_bounds part error 1 (P.bytes - 1) zero_le_one hfirst
    hmono (fun i hi => hlower i (by omega)) (by exact_mod_cast (herrors (k + 1) le_rfl).2)
  have hbelow := le_weighted_sum_of_prefix_bounds part error 1 (P.bytes - 1) (by linarith) hfirst
    hmono (fun i hi => (herrors i (by omega)).2) (by exact_mod_cast hlower (k + 1) le_rfl)
  have herror : creditedBytes (placePagesWeightedInitial P mbind table.records addr len).issued
      table.records[k].id - table.records[k].weight * len.toNat / 100 =
        ∑ i ∈ Finset.range (k + 1), part i * error i := by
    rw [issued_eq hsorted hlen hok, weightedCalls, creditedBytes_eq table.ids _ len.isLt hk,
      ← sum_idealCredit len.toNat hk, ← Finset.sum_sub_distrib]
    exact Finset.sum_congr rfl fun i _ => (mul_sub _ _ _).symm
  -- both bounds stay below a page for each node
  have hpages := mul_le_mul_of_nonneg_right hkn (zero_le_one.trans hP)
  have hcount : 0 ≤ (k : ℚ) * P.bytes := mul_nonneg hk0 (zero_le_one.trans hP)
  have hshort := mul_le_of_le_one_left
    (show 0 ≤ (k + 1) * ((P.bytes : ℚ) - 1) + k * 1 by linarith) hpart
  have hlong := mul_le_of_le_one_left
    (show 0 ≤ (k + 1) * (1 : ℚ) + k * ((P.bytes : ℚ) - 1) by linarith) hpart
  rw [herror, abs_le]
  constructor <;> linarith

/-- The shares of ten pages with the two-node table: the worker node gets 60 percent. -/
theorem placePagesWeightedInitial_shares_two_nodes :
    |creditedBytes (placePagesWeightedInitial ⟨12, by decide⟩ (fun _ => true)
        twoNodeTable.records 0x10000 0xa000).issued twoNodeTable.records[1].id -
      twoNodeTable.records[1].weight * (0xa000 : Word).toNat / 100| ≤
      twoNodeTable.records.length * (⟨12, by decide⟩ : PageSize).bytes :=
  placePagesWeightedInitial_shares twoNodeTable_ascending (by decide) twoNodeTable_accepted 1
    (by decide)

end WeightTable

end Bwap
