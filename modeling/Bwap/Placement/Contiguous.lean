import Bwap.Placement.WeightedShares
import Mathlib.Algebra.BigOperators.Field

/-!
# Weighted placement of contiguous ranges

`place_pages_weighted_contiguous` binds one contiguous range to each node, in the order of the
table. The size of a range is the weighted share of its node, rounded up to whole pages and
clamped to what is left; the mask holds the bit of one node at a time. No order of the weights is
needed: the running totals stay near the ideal ones in any order.
-/

namespace Bwap

open Common

/-- The loop over the nodes in `place_pages_weighted_contiguous`: a bit outside a mask of `maxNodes`
bits is not set. -/
def contiguousLoop (P : PageSize) (mbind : MbindCall → Bool) (maxNodes : ℕ) (size : Word) :
    List Record → ℕ → Word → Word → Finset ℕ → Placement
  | [], _, _, _, _ => ⟨[], false⟩
  | node :: rest, i, start, totalSize, nodeSet =>
    if totalSize = size then ⟨[], false⟩
    else
      let nodeSet := if node.id < maxNodes then insert node.id nodeSet else nodeSet
      let rounded := P.alignUp (truncToSize (node.weight / 100 * size.toNat))
      let remaining := size - totalSize
      let mySize := if rounded > remaining then remaining else rounded
      let next := fun start => contiguousLoop P mbind maxNodes size rest (i + 1) start
        (totalSize + mySize) (nodeSet.erase node.id)
      if mySize ≠ 0 then
        Placement.issue mbind ⟨⟨start, mySize, .bind, nodeSet⟩, i⟩ (next (start + mySize))
      else next start

/-- `place_pages_weighted_contiguous` on an address range, with `nodes_info` as its table. -/
def placePagesWeightedContiguous (P : PageSize) (mbind : MbindCall → Bool) (nodesInfo : List Record)
    (addr len : Word) : Placement :=
  contiguousLoop P mbind nodesInfo.length len nodesInfo 0 addr 0 ∅

/-- The exact size of the range of a node, before any rounding. -/
def nodeShare (records : List Record) (size i : ℕ) : ℚ := weightBefore records (i + 1) / 100 * size

/-- The mask at an iteration: the node of that iteration alone. -/
def nodeMask (records : List Record) (i : ℕ) : Finset ℕ :=
  ((records[i]?).map fun node => {node.id}).getD ∅

/-- The calls of the loop, computed from the running totals. -/
def contiguousCalls (P : PageSize) (records : List Record) (addr : Word) (size : ℕ) :
    ℕ → Option IssuedCall :=
  sliceCall addr size (wordDemand P (nodeShare records size)) .bind (nodeMask records)

/-- The loop from any node on issues the calls computed from the running totals: it finds the mask
empty, and leaves it so. -/
theorem contiguousLoop_eq (P : PageSize) (mbind : MbindCall → Bool) (records : List Record)
    {maxNodes : ℕ} (hids : ∀ node ∈ records, node.id < maxNodes) (addr size : Word)
    (rest : List Record) (i : ℕ) (hrest : records.drop i = rest) :
    let demand := wordDemand P (nodeShare records size.toNat)
    contiguousLoop P mbind maxNodes size rest i
        (addr + BitVec.ofNat 64 (filled size.toNat demand i))
        (BitVec.ofNat 64 (filled size.toNat demand i)) ∅ =
      Placement.issueAll mbind
        ((List.range' i rest.length).filterMap (contiguousCalls P records addr size.toNat)) := by
  intro demand
  induction rest generalizing i with
  | nil => rfl
  | cons node rest ih =>
    obtain ⟨hnode, hnext⟩ := split_of_drop hrest
    have hlt := size.isLt
    have hbit := hids node (List.mem_of_getElem? hnode)
    have hshare : node.weight / 100 * size.toNat = nodeShare records size.toNat i := by
      rw [nodeShare, weightBefore_succ hnode]
    have hmask : insert node.id (∅ : Finset ℕ) = nodeMask records i := by
      rw [nodeMask, hnode]
      rfl
    have hclear : (nodeMask records i).erase node.id = ∅ := by
      rw [nodeMask, hnode]
      exact Finset.erase_singleton _
    have hsucc := ih (i + 1) hnext
    rw [contiguousLoop]
    by_cases hdone : BitVec.ofNat 64 (filled size.toNat demand i) = size
    · rw [if_pos hdone]
      -- the segment is used up, so every later slice is empty
      rw [contiguousCalls, sliceCalls_of_full _ _ _ _ _ ((totalSize_eq_iff size demand i).mp hdone)]
      rfl
    · rw [if_neg hdone]
      dsimp only
      have hcalls := issueAll_sliceCalls addr demand .bind (nodeMask records) hlt mbind i
        rest.length
      rw [hshare, clampedSize_eq P size _ i, if_pos hbit, hmask, hclear, BitVec.add_assoc,
        ofNat_filled_succ, hsucc, List.length_cons]
      refine Eq.trans ?_ hcalls.symm
      by_cases hempty : slice size.toNat demand i = 0
      · have hsame : filled size.toNat demand i = filled size.toNat demand (i + 1) := by
          rw [filled_succ, hempty, Nat.add_zero]
        rw [hempty, hsame, hsucc]
        rfl
      · have hcall := ofNat_slice_ne_zero hlt hempty
        rw [if_pos hcall, if_pos hcall]
        rfl

namespace WeightTable

variable {table : WeightTable} {P : PageSize} {mbind : MbindCall → Bool} {addr len : Word}

/-- No share is negative. -/
theorem nodeShare_nonneg (table : WeightTable) (size i : ℕ) :
    0 ≤ nodeShare table.records size i := by
  have hweight : 0 ≤ weightBefore table.records (i + 1) := by
    by_cases hi : i < table.records.length
    · rw [weightBefore_succ (List.getElem?_eq_getElem hi)]
      exact table.nonneg _ (List.getElem_mem hi)
    · simp [weightBefore, List.getElem?_eq_none (not_lt.mp hi)]
  exact mul_nonneg (div_nonneg hweight (by norm_num)) (Nat.cast_nonneg _)

/-- The shares add up to the segment. -/
theorem sum_nodeShare (table : WeightTable) (size : ℕ) :
    ∑ i ∈ Finset.range table.records.length, nodeShare table.records size i = size := by
  have htotal := sum_weightBefore table.records
  rw [table.total] at htotal
  simp only [nodeShare]
  rw [← Finset.sum_mul, ← Finset.sum_div, htotal]
  ring

/-- The shares of the first nodes do not exceed it. -/
theorem sum_nodeShare_le (table : WeightTable) (size : ℕ) {i : ℕ}
    (hi : i ≤ table.records.length) :
    ∑ j ∈ Finset.range i, nodeShare table.records size j ≤ size := by
  rw [← table.sum_nodeShare size]
  exact Finset.sum_le_sum_of_subset_of_nonneg (Finset.range_mono hi)
    fun j _ _ => table.nodeShare_nonneg size j

/-- On a segment of whole pages every share is converted and rounded as a number. -/
theorem wordDemand_nodeShare (table : WeightTable) (hlen : P.bytes ∣ len.toNat) :
    wordDemand P (nodeShare table.records len.toNat) =
      roundedShare P.bytes (nodeShare table.records len.toNat) := by
  have htop : (len.toNat : ℚ) + P.bytes ≤ 2 ^ 64 := by exact_mod_cast PageSize.add_bytes_le hlen
  funext i
  have hshare : nodeShare table.records len.toNat i ≤ len.toNat := by
    by_cases hi : i < table.records.length
    · have hsum := table.sum_nodeShare_le len.toNat (Nat.succ_le_of_lt hi)
      rw [Finset.sum_range_succ] at hsum
      have hrest : 0 ≤ ∑ j ∈ Finset.range i, nodeShare table.records len.toNat j :=
        Finset.sum_nonneg fun j _ => table.nodeShare_nonneg len.toNat j
      linarith
    · rw [nodeShare]
      simp [weightBefore, List.getElem?_eq_none (not_lt.mp hi)]
  exact wordDemand_eq_roundedShare (table.nodeShare_nonneg _ i) (by linarith)

/-- Unless a call fails, exactly the calls computed from the running totals are issued. -/
theorem placePagesWeightedContiguous_issued
    (hok : (placePagesWeightedContiguous P mbind table.records addr len).aborted = false) :
    (placePagesWeightedContiguous P mbind table.records addr len).issued =
      (List.range table.records.length).filterMap
        (contiguousCalls P table.records addr len.toNat) := by
  have hids : ∀ node ∈ table.records, node.id < table.records.length := fun node hnode =>
    List.mem_range.mp (table.ids.mem_iff.mp (List.mem_map_of_mem hnode))
  have hloop := contiguousLoop_eq P mbind table.records hids addr len table.records 0 rfl
  have hcalls : placePagesWeightedContiguous P mbind table.records addr len =
      Placement.issueAll mbind ((List.range table.records.length).filterMap
        (contiguousCalls P table.records addr len.toNat)) := by
    simpa [placePagesWeightedContiguous, List.range_eq_range'] using hloop
  rw [hcalls] at hok ⊢
  exact Placement.issueAll_issued mbind _ hok

/-- The mask of an iteration is the node at that position. -/
theorem nodeMask_eq {i : ℕ} (hi : i < table.records.length) :
    nodeMask table.records i = {table.records[i].id} := by
  rw [nodeMask, List.getElem?_eq_getElem hi]
  rfl

/-- A node is credited with its slice alone. -/
theorem creditedBytes_nodeMask (table : WeightTable) {size : ℕ} (hsize : size < 2 ^ 64)
    (demand : ℕ → ℕ) {k : ℕ} (hk : k < table.records.length) :
    creditedBytes ((List.range table.records.length).filterMap
        (sliceCall addr size demand .bind (nodeMask table.records))) table.records[k].id =
      slice size demand k := by
  have hterm : ∀ i ∈ Finset.range table.records.length,
      (if table.records[k].id ∈ nodeMask table.records i then
        (slice size demand i : ℚ) / (nodeMask table.records i).card else 0) =
          if i = k then (slice size demand k : ℚ) else 0 := by
    intro i hi
    have hi' := Finset.mem_range.mp hi
    simp only [nodeMask_eq hi', Finset.mem_singleton, Finset.card_singleton, Nat.cast_one, div_one]
    by_cases hik : i = k
    · subst hik
      rw [if_pos rfl, if_pos rfl]
    · rw [if_neg fun hid => hik (eq_of_id_eq table.ids hk hid.symm), if_neg hik]
  rw [creditedBytes_sliceCalls _ hsize, Finset.sum_congr rfl hterm, Finset.sum_ite_eq',
    if_pos (Finset.mem_range.mpr hk)]

/-- The calls bind consecutive ranges that tile the segment, each to one node and none to the same
one, and each node has its weighted share of the bytes up to a page for each node. -/
theorem placePagesWeightedContiguous_tiles (hcount : table.records.length ≤ P.bytes)
    (haddr : P.bytes ∣ addr.toNat) (hlen : P.bytes ∣ len.toNat)
    (hok : (placePagesWeightedContiguous P mbind table.records addr len).aborted = false) :
    let calls := (placePagesWeightedContiguous P mbind table.records addr len).issued
    Tiles P addr len calls ∧
      (∀ call ∈ calls, call.policy = .bind ∧ ∃ node ∈ table.records, call.nodes = {node.id}) ∧
      calls.Pairwise (fun a b => a.nodes ≠ b.nodes) ∧
      ∀ k (hk : k < table.records.length), |creditedBytes calls table.records[k].id -
        table.records[k].weight * len.toNat / 100| ≤ table.records.length * P.bytes := by
  intro calls
  let share := nodeShare table.records len.toNat
  let demand := roundedShare P.bytes share
  have hcalls : calls = (List.range table.records.length).filterMap
      (sliceCall addr len.toNat demand .bind (nodeMask table.records)) := by
    have hissued := placePagesWeightedContiguous_issued hok
    rwa [contiguousCalls, table.wordDemand_nodeShare hlen] at hissued
  have hread {i : ℕ} {call : IssuedCall} (hmake : sliceCall addr len.toNat demand .bind
      (nodeMask table.records) i = some call) :
      call.policy = .bind ∧ call.nodes = nodeMask table.records i := by
    obtain ⟨-, rfl⟩ := (sliceCall_eq_some_iff _ _ _ _ _).mp hmake
    exact ⟨rfl, rfl⟩
  rw [hcalls]
  refine ⟨?_, ?_, ?_, ?_⟩
  · have hfull := filled_eq_budget P.bytes_pos share hlen hcount
      (table.sum_nodeShare len.toNat).ge
    have htiles := tiles_sliceCalls P addr len.toNat demand .bind (nodeMask table.records) len.isLt
      haddr hlen (fun i => dvd_roundUp _ _) hfull
    rwa [BitVec.ofNat_toNat, BitVec.setWidth_eq] at htiles
  · intro call hcall
    obtain ⟨i, hi, hmake⟩ := List.mem_filterMap.mp hcall
    obtain ⟨hpolicy, hnodes⟩ := hread hmake
    rw [nodeMask_eq (List.mem_range.mp hi)] at hnodes
    exact ⟨hpolicy, _, List.getElem_mem _, hnodes⟩
  · rw [List.pairwise_filterMap]
    refine List.pairwise_lt_range.imp_of_mem fun {i j} hi hj hij a ha b hb hsame => ?_
    have hi' := List.mem_range.mp hi
    have hj' := List.mem_range.mp hj
    rw [(hread ha).2, (hread hb).2, nodeMask_eq hi', nodeMask_eq hj',
      Finset.singleton_inj] at hsame
    exact hij.ne (eq_of_id_eq table.ids hj' hsame)
  · intro k hk
    have hideal := table.sum_nodeShare_le len.toNat (Nat.succ_le_of_lt hk)
    have hslice := abs_slice_sub_share_le P.bytes_pos share (table.nodeShare_nonneg _) hideal
    have hweight : share k = table.records[k].weight * len.toNat / 100 := by
      simp only [share, nodeShare]
      rw [weightBefore_succ (List.getElem?_eq_getElem hk)]
      ring
    have hcount' : ((k : ℚ) + 1) * P.bytes ≤ table.records.length * P.bytes :=
      mul_le_mul_of_nonneg_right (by exact_mod_cast hk) (Nat.cast_nonneg _)
    rw [creditedBytes_nodeMask table len.isLt demand hk, ← hweight]
    exact hslice.trans hcount'

/-- Two nodes with 40 and 60 percent of ten pages, the first one bound to the first four. -/
theorem placePagesWeightedContiguous_tiles_two_nodes :
    let calls := (placePagesWeightedContiguous .fourKiB (fun _ => true) twoNodeTable.records
      0x10000 0xa000).issued
    Tiles .fourKiB 0x10000 0xa000 calls ∧
      (∀ call ∈ calls, call.policy = .bind ∧
        ∃ node ∈ twoNodeTable.records, call.nodes = {node.id}) ∧
      calls.Pairwise (fun a b => a.nodes ≠ b.nodes) ∧
      ∀ k (hk : k < twoNodeTable.records.length),
        |creditedBytes calls twoNodeTable.records[k].id -
          twoNodeTable.records[k].weight * (0xa000 : Word).toNat / 100| ≤
        twoNodeTable.records.length * PageSize.fourKiB.bytes :=
  placePagesWeightedContiguous_tiles (by decide) (by decide) (by decide) (by decide +kernel)

end WeightTable

end Bwap
