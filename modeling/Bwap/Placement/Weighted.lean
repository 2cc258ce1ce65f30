import Bwap.Placement.Mbind
import Mathlib.Data.List.Perm.Basic
import Mathlib.Data.List.Nodup
import Mathlib.Tactic.FieldSimp

/-!
# Weighted interleaving

The nodes are visited in ascending order of weight. Each one receives, together with all
nodes after it, the part of the segment by which its weight exceeds the weight before it:
the slice of a node is interleaved over that node and all later ones. Weights are exact
rational percentages; sizes are truncated, rounded up to a page and clamped as the loop
does. The loop equals a list of calls computed from the running totals alone.
-/

namespace Bwap

open Common

/-- `RECORD`: a node number and its weight in percent. -/
structure Record where
  id : ℕ
  weight : ℚ
deriving DecidableEq

/-- A `nodes_info` table: its `MAX_NODES` records hold one nonnegative weight for each node
number, and the weights add up to 100. -/
structure WeightTable where
  records : List Record
  nonneg : ∀ node ∈ records, 0 ≤ node.weight
  total : (records.map Record.weight).sum = 100
  ids : (records.map Record.id).Perm (List.range records.length)

/-- The order in which `read_weights` leaves the table. -/
def WeightTable.Ascending (table : WeightTable) : Prop :=
  table.records.Pairwise fun a b => a.weight ≤ b.weight

/-- The loop over the nodes in `place_pages_weighted` and `place_pages_weighted_initial`:
`w` is the weight already allocated, `a` the number of nodes that can still receive pages. -/
def interleaveLoop (P : PageSize) (mbind : MbindCall → Bool) (size : Word) :
    List Record → ℕ → Word → ℚ → ℤ → Word → Finset ℕ → Placement
  | [], _, _, _, _, _, _ => ⟨[], false⟩
  | node :: rest, i, start, w, a, totalSize, nodeSet =>
    if totalSize = size then ⟨[], false⟩
    else
      let b := node.weight - w
      let rounded := P.alignUp (truncToSize (a * (b / 100) * size.toNat))
      let remaining := size - totalSize
      let mySize := if rounded > remaining then remaining else rounded
      let next := interleaveLoop P mbind size rest (i + 1) (start + mySize) node.weight (a - 1)
        (totalSize + mySize) (nodeSet.erase node.id)
      if mySize ≠ 0 then Placement.issue mbind ⟨⟨start, mySize, .interleave, nodeSet⟩, i⟩ next
      else next

/-- `place_pages_weighted_initial` on an address range, with `nodes_info` as its table. -/
def placePagesWeightedInitial (P : PageSize) (mbind : MbindCall → Bool) (nodesInfo : List Record)
    (addr len : Word) : Placement :=
  interleaveLoop P mbind len nodesInfo 0 addr 0 nodesInfo.length 0 (Finset.range nodesInfo.length)

/-! ## The shares the loop aims at -/

/-- The weight of the previous node in the table, zero before the first. -/
def weightBefore (records : List Record) : ℕ → ℚ
  | 0 => 0
  | i + 1 => ((records[i]?).map Record.weight).getD 0

/-- The exact size of the slice of a node, before any rounding. -/
def idealShare (records : List Record) (size : ℕ) (i : ℕ) : ℚ :=
  if i < records.length then
    ((records.length : ℚ) - i) * ((weightBefore records (i + 1) - weightBefore records i) / 100) *
      size
  else 0

/-- The nodes left in the mask after the first nodes were cleared. -/
def remainingNodes (records : List Record) (i : ℕ) : Finset ℕ :=
  (records.take i).foldl (fun nodes node => nodes.erase node.id) (Finset.range records.length)

/-- The calls of the loop, computed from the running totals. -/
def weightedCalls (P : PageSize) (records : List Record) (addr : Word) (size : ℕ) :
    ℕ → Option IssuedCall :=
  sliceCall addr size (roundedShare P.bytes (idealShare records size)) .interleave
    (remainingNodes records)

/-- The weight before the next node is the weight of this one. -/
theorem weightBefore_succ {records : List Record} {i : ℕ} {node : Record}
    (h : records[i]? = some node) : weightBefore records (i + 1) = node.weight := by
  simp [weightBefore, h]

/-- The node at which the rest of a table starts, and the rest after it. -/
theorem split_of_drop {records rest : List Record} {i : ℕ} {node : Record}
    (hrest : records.drop i = node :: rest) :
    records[i]? = some node ∧ records.drop (i + 1) = rest := by
  apply And.intro
  · rw [← List.head?_drop, hrest]
    rfl
  · rw [← List.drop_drop, hrest]
    rfl

/-- Clearing one more node. -/
theorem remainingNodes_succ {records : List Record} {i : ℕ} {node : Record}
    (h : records[i]? = some node) :
    remainingNodes records (i + 1) = (remainingNodes records i).erase node.id := by
  obtain ⟨hi, rfl⟩ := List.getElem?_eq_some_iff.mp h
  rw [remainingNodes, List.take_succ_eq_append_getElem hi, List.foldl_append]
  rfl

/-- The demand of a share as the code computes it: converted to `size_t` and rounded up to a
page. -/
def wordDemand (P : PageSize) (share : ℕ → ℚ) (i : ℕ) : ℕ :=
  (P.alignUp (truncToSize (share i))).toNat

/-- The calls of the loop on any table. -/
def loopCalls (P : PageSize) (records : List Record) (addr : Word) (size : ℕ) :
    ℕ → Option IssuedCall :=
  sliceCall addr size (wordDemand P (idealShare records size)) .interleave (remainingNodes records)

/-- A share below the top page is converted and rounded as a number. -/
theorem wordDemand_eq_roundedShare {P : PageSize} {share : ℕ → ℚ} {i : ℕ} (hnonneg : 0 ≤ share i)
    (hfit : share i + P.bytes ≤ 2 ^ 64) : wordDemand P share i = roundedShare P.bytes share i := by
  have hpos := P.bytes_pos
  have hfloor : ⌊share i⌋₊ + P.bytes ≤ 2 ^ 64 := by
    have hle := Nat.floor_le hnonneg
    exact_mod_cast (by linarith : ((⌊share i⌋₊ : ℕ) : ℚ) + P.bytes ≤ 2 ^ 64)
  have htrunc := truncToSize_toNat hnonneg (by omega)
  rw [wordDemand, P.alignUp_toNat _ (by omega), htrunc]
  rfl

/-- No demand exceeds its share by a page. -/
theorem wordDemand_le {P : PageSize} {share : ℕ → ℚ} {i : ℕ} (hnonneg : 0 ≤ share i) :
    (wordDemand P share i : ℚ) ≤ share i + (P.bytes - 1) := by
  have hround := (P.alignUp_le (truncToSize (share i))).trans
    (Nat.add_le_add_right (truncToSize_le hnonneg) _)
  have hcast : (wordDemand P share i : ℚ) ≤ ((⌊share i⌋₊ + (P.bytes - 1) : ℕ) : ℚ) :=
    Nat.cast_le.mpr hround
  have hfloor := Nat.floor_le hnonneg
  rw [Nat.cast_add, Nat.cast_sub P.bytes_pos, Nat.cast_one] at hcast
  linarith

/-- One pass of a loop takes the slice of its demand: the smaller of what is asked for and what is
left. -/
theorem clampedSize_eq (P : PageSize) (size : Word) (share : ℕ → ℚ) (i : ℕ) :
    let demand := wordDemand P share
    (if P.alignUp (truncToSize (share i)) > size - BitVec.ofNat 64 (filled size.toNat demand i) then
        size - BitVec.ofNat 64 (filled size.toNat demand i)
      else P.alignUp (truncToSize (share i))) =
        BitVec.ofNat 64 (slice size.toNat demand i) := by
  intro demand
  have hlt := size.isLt
  have hfilled := filled_le size.toNat demand i
  have hround : (P.alignUp (truncToSize (share i))).toNat = demand i := rfl
  have hleft : (size - BitVec.ofNat 64 (filled size.toNat demand i)).toNat =
      size.toNat - filled size.toNat demand i := by
    have hword := toNat_filled hlt demand i
    rw [BitVec.toNat_sub_of_le (by rwa [BitVec.le_def, hword]), hword]
  apply BitVec.eq_of_toNat_eq
  rw [toNat_slice hlt, slice]
  split_ifs with hclamp
  · rw [gt_iff_lt, BitVec.lt_def, hround, hleft] at hclamp
    rw [hleft]
    omega
  · rw [gt_iff_lt, BitVec.lt_def, hround, hleft] at hclamp
    rw [hround]
    omega

/-- The segment is used up exactly when the running total says so. -/
theorem totalSize_eq_iff (size : Word) (demand : ℕ → ℕ) (i : ℕ) :
    BitVec.ofNat 64 (filled size.toNat demand i) = size ↔
      filled size.toNat demand i = size.toNat := by
  have hword := toNat_filled size.isLt demand i
  rw [← BitVec.toNat_inj, hword]

/-- The loop from any node on issues the calls computed from the running totals. -/
theorem interleaveLoop_eq (P : PageSize) (mbind : MbindCall → Bool) (records : List Record)
    (addr size : Word) (rest : List Record) (i : ℕ) (hrest : records.drop i = rest) :
    let demand := wordDemand P (idealShare records size.toNat)
    interleaveLoop P mbind size rest i
        (addr + BitVec.ofNat 64 (filled size.toNat demand i)) (weightBefore records i)
        (records.length - i : ℤ) (BitVec.ofNat 64 (filled size.toNat demand i))
        (remainingNodes records i) =
      Placement.issueAll mbind
        ((List.range' i rest.length).filterMap (loopCalls P records addr size.toNat)) := by
  intro demand
  induction rest generalizing i with
  | nil => rfl
  | cons node rest ih =>
    obtain ⟨hnode, hnext⟩ := split_of_drop hrest
    have hi : i < records.length := (List.getElem?_eq_some_iff.mp hnode).1
    have hlt := size.isLt
    have hshare : ((records.length - i : ℤ) : ℚ) *
        ((node.weight - weightBefore records i) / 100) * size.toNat =
          idealShare records size.toNat i := by
      rw [idealShare, if_pos hi, weightBefore_succ hnode]
      push_cast
      rfl
    have hsucc := ih (i + 1) hnext
    rw [weightBefore_succ hnode, remainingNodes_succ hnode] at hsucc
    rw [interleaveLoop]
    split_ifs with hdone
    · -- the segment is used up, so every later slice is empty
      rw [loopCalls, sliceCalls_of_full _ _ _ _ _ ((totalSize_eq_iff size demand i).mp hdone)]
      rfl
    · dsimp only
      have hcount : (records.length - i : ℤ) - 1 = records.length - (i + 1 : ℕ) := by
        push_cast
        ring
      rw [hshare, clampedSize_eq P size _ i, BitVec.add_assoc, ofNat_filled_succ, hcount, hsucc,
        List.length_cons]
      exact (issueAll_sliceCalls addr demand .interleave (remainingNodes records) hlt mbind i
        rest.length).symm

/-- On any table and segment, the calls of weighted interleaving are those computed from the
running totals. -/
theorem interleaveLoop_all (P : PageSize) (mbind : MbindCall → Bool) (records : List Record)
    (addr len : Word) :
    interleaveLoop P mbind len records 0 addr 0 records.length 0 (Finset.range records.length) =
      Placement.issueAll mbind ((List.range records.length).filterMap
        (loopCalls P records addr len.toNat)) := by
  have h := interleaveLoop_eq P mbind records addr len records 0 rfl
  simpa [weightBefore, remainingNodes, List.range_eq_range'] using h

/-! ## A well-formed table -/

/-- The node after the first ones, if there is one. -/
theorem weightBefore_le_succ {records : List Record}
    (hnonneg : ∀ node ∈ records, 0 ≤ node.weight)
    (hsorted : records.Pairwise fun a b => a.weight ≤ b.weight) {i : ℕ} (hi : i < records.length) :
    weightBefore records i ≤ weightBefore records (i + 1) := by
  rw [weightBefore_succ (List.getElem?_eq_getElem hi)]
  cases i with
  | zero => exact hnonneg _ (List.getElem_mem hi)
  | succ i =>
    rw [weightBefore_succ (List.getElem?_eq_getElem (by omega))]
    exact List.pairwise_iff_getElem.mp hsorted i (i + 1) (by omega) hi (by omega)

/-- The share of a node that weighs no less than the one before it is not negative. -/
theorem idealShare_nonneg_of_le {records : List Record} (size : ℕ) {i : ℕ}
    (hstep : weightBefore records i ≤ weightBefore records (i + 1)) :
    0 ≤ idealShare records size i := by
  rw [idealShare]
  split_ifs with hi
  · have hcount : (i : ℚ) ≤ records.length := Nat.cast_le.mpr hi.le
    have hleft : 0 ≤ (records.length : ℚ) - i := by linarith
    have hright : 0 ≤ (weightBefore records (i + 1) - weightBefore records i) / 100 :=
      div_nonneg (by linarith) (by norm_num)
    exact mul_nonneg (mul_nonneg hleft hright) (Nat.cast_nonneg _)
  · exact le_rfl

/-- Summation by parts for the shares: a prefix of them adds up to the weights of its nodes
and to what the later nodes get along with them. -/
theorem sum_idealShare (records : List Record) (size i : ℕ) (hi : i ≤ records.length) :
    ∑ j ∈ Finset.range i, idealShare records size j =
      (((records.length : ℚ) - i) * weightBefore records i +
        ∑ j ∈ Finset.range i, weightBefore records (j + 1)) * size / 100 := by
  induction i with
  | zero => simp [weightBefore]
  | succ i ih =>
    rw [Finset.sum_range_succ, ih (by omega), Finset.sum_range_succ, idealShare,
      if_pos (by omega)]
    push_cast
    ring

/-- The weights of the table, summed by position. -/
theorem sum_weightBefore (records : List Record) :
    ∑ j ∈ Finset.range records.length, weightBefore records (j + 1) =
      (records.map Record.weight).sum := by
  induction records with
  | nil => rfl
  | cons node rest ih =>
    rw [List.length_cons, Finset.sum_range_succ', List.map_cons, List.sum_cons, ← ih, add_comm]
    rfl

/-- All shares together are the part of the segment that the weights add up to. -/
theorem sum_idealShare_all (records : List Record) (size : ℕ) :
    ∑ i ∈ Finset.range records.length, idealShare records size i =
      (records.map Record.weight).sum * size / 100 := by
  rw [sum_idealShare _ _ _ le_rfl, sum_weightBefore, sub_self, zero_mul, zero_add]

section Ids

variable {records : List Record}
  (hids : (records.map Record.id).Perm (List.range records.length))

include hids in
/-- No node number occurs twice. -/
theorem ids_nodup : (records.map Record.id).Nodup := hids.nodup_iff.mpr List.nodup_range

include hids in
/-- A node number stands at one position. -/
theorem eq_of_id_eq {i k : ℕ} {hi : i < records.length} (hk : k < records.length)
    (hsame : records[i].id = records[k].id) : i = k := by
  have hfirst : i < (records.map Record.id).length := by rwa [List.length_map]
  have hlast : k < (records.map Record.id).length := by rwa [List.length_map]
  have hget : (records.map Record.id)[i] = (records.map Record.id)[k] := by
    simpa using hsame
  exact (ids_nodup hids).getElem_inj_iff.mp hget

include hids in
/-- The mask left at a node holds that node and all later ones. -/
theorem remainingNodes_eq (i : ℕ) :
    remainingNodes records i = ((records.drop i).map Record.id).toFinset := by
  induction i with
  | zero =>
    ext k
    have hmem : k ∈ records.map Record.id ↔ k ∈ List.range records.length :=
      hids.mem_iff
    simpa [remainingNodes] using hmem.symm
  | succ i ih =>
    by_cases hi : i < records.length
    · have hnode : records[i]? = some records[i] := List.getElem?_eq_getElem hi
      have hdrop : records.drop i = records[i] :: records.drop (i + 1) :=
        List.drop_eq_getElem_cons hi
      have hnodup : ((records.drop i).map Record.id).Nodup :=
        (ids_nodup hids).sublist ((List.drop_sublist i _).map _)
      rw [hdrop, List.map_cons, List.nodup_cons] at hnodup
      rw [remainingNodes_succ hnode, ih, hdrop, List.map_cons, List.toFinset_cons,
        Finset.erase_insert (by simpa using hnodup.1)]
    · have hnext : remainingNodes records (i + 1) = remainingNodes records i := by
        rw [remainingNodes, remainingNodes, List.take_of_length_le (by omega),
          List.take_of_length_le (by omega)]
      rw [hnext, ih, List.drop_of_length_le (by omega), List.drop_of_length_le (by omega)]

include hids in
/-- The node at a position is in the mask of an iteration exactly when it comes no earlier. -/
theorem mem_remainingNodes_iff {i k : ℕ} (hk : k < records.length) :
    records[k].id ∈ remainingNodes records i ↔ i ≤ k := by
  rw [remainingNodes_eq hids, List.mem_toFinset]
  apply Iff.intro
  · intro hmem
    obtain ⟨node, hnode, hid⟩ := List.mem_map.mp hmem
    obtain ⟨j, hj, rfl⟩ := List.getElem_of_mem hnode
    rw [List.length_drop] at hj
    rw [List.getElem_drop] at hid
    have hsame := eq_of_id_eq hids hk hid
    omega
  · intro hik
    apply List.mem_map_of_mem
    have hlast : k - i < (records.drop i).length := by
      rw [List.length_drop]
      omega
    have hget : (records.drop i)[k - i] = records[k] := by
      rw [List.getElem_drop]
      congr 1
      omega
    rw [← hget]
    exact List.getElem_mem hlast

include hids in
/-- One node leaves the mask at each iteration. -/
theorem card_remainingNodes (i : ℕ) :
    (remainingNodes records i).card = records.length - i := by
  rw [remainingNodes_eq hids, List.toFinset_card_of_nodup, List.length_map, List.length_drop]
  exact (ids_nodup hids).sublist ((List.drop_sublist i _).map _)

end Ids

namespace WeightTable

variable (table : WeightTable)

/-- The shares of a whole table add up to the segment. -/
theorem sum_idealShare_eq (size : ℕ) :
    ∑ j ∈ Finset.range table.records.length, idealShare table.records size j = size := by
  rw [sum_idealShare_all, table.total]
  ring

variable {table}

/-- In an ascending table no share is negative. -/
theorem idealShare_nonneg (hsorted : table.Ascending) (size i : ℕ) :
    0 ≤ idealShare table.records size i := by
  by_cases hi : i < table.records.length
  · exact idealShare_nonneg_of_le size (weightBefore_le_succ table.nonneg hsorted hi)
  · rw [idealShare, if_neg hi]

/-- In an ascending table the shares of the first nodes do not exceed the segment. -/
theorem sum_idealShare_le (hsorted : table.Ascending) (size : ℕ) {i : ℕ}
    (hi : i ≤ table.records.length) :
    ∑ j ∈ Finset.range i, idealShare table.records size j ≤ size := by
  rw [← table.sum_idealShare_eq size]
  exact Finset.sum_le_sum_of_subset_of_nonneg (Finset.range_mono hi)
    fun j _ _ => idealShare_nonneg hsorted size j

/-- In an ascending table no share exceeds the segment. -/
theorem idealShare_le (hsorted : table.Ascending) (size i : ℕ) :
    idealShare table.records size i ≤ size := by
  by_cases hi : i < table.records.length
  · have hsum := sum_idealShare_le hsorted size (Nat.succ_le_of_lt hi)
    rw [Finset.sum_range_succ] at hsum
    have hrest : 0 ≤ ∑ j ∈ Finset.range i, idealShare table.records size j :=
      Finset.sum_nonneg fun j _ => idealShare_nonneg hsorted size j
    linarith
  · rw [idealShare, if_neg hi]
    exact Nat.cast_nonneg _

/-- On an ascending table and a segment of whole pages, the demands are the rounded shares. -/
theorem wordDemand_idealShare {P : PageSize} (hsorted : table.Ascending) {len : Word}
    (hlen : P.bytes ∣ len.toNat) :
    wordDemand P (idealShare table.records len.toNat) =
      roundedShare P.bytes (idealShare table.records len.toNat) := by
  funext i
  have hshare := idealShare_le hsorted len.toNat i
  have htop : (len.toNat : ℚ) + P.bytes ≤ 2 ^ 64 := by exact_mod_cast PageSize.add_bytes_le hlen
  exact wordDemand_eq_roundedShare (idealShare_nonneg hsorted _ i) (by linarith)

/-- There the function issues the calls computed from the running totals. -/
theorem placePagesWeightedInitial_eq (P : PageSize) (mbind : MbindCall → Bool)
    (hsorted : table.Ascending) (addr len : Word) (hlen : P.bytes ∣ len.toNat) :
    placePagesWeightedInitial P mbind table.records addr len =
      Placement.issueAll mbind ((List.range table.records.length).filterMap
        (weightedCalls P table.records addr len.toNat)) := by
  rw [placePagesWeightedInitial, interleaveLoop_all, weightedCalls,
    ← wordDemand_idealShare hsorted hlen]
  rfl

/-- Two nodes, the second one the worker, with 40 and 60 percent of the pages. -/
def twoNodeTable : WeightTable where
  records := [⟨1, 40⟩, ⟨0, 60⟩]
  nonneg := by simp
  total := by norm_num
  ids := List.Perm.swap _ _ _

theorem twoNodeTable_ascending : twoNodeTable.Ascending := by
  simp [WeightTable.Ascending, twoNodeTable]
  norm_num

/-- Placing ten pages of 4 KiB with the two-node table succeeds when the kernel accepts the
calls. -/
theorem twoNodeTable_accepted :
    (placePagesWeightedInitial ⟨12, by decide⟩ (fun _ => true) twoNodeTable.records
      0x10000 0xa000).aborted = false := by
  rw [placePagesWeightedInitial_eq _ _ twoNodeTable_ascending _ _ (by decide)]
  exact Placement.issueAll_aborted _ _ fun _ _ => rfl

end WeightTable

end Bwap
