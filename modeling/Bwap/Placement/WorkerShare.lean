import Bwap.Placement.Policies
import Mathlib.Algebra.Order.Floor.Semifield

/-!
# The worker nodes' share of a split segment

The local ratio of `place_pages` makes up for the pages that the interleaved part already has on
one node. With one worker node the requested fraction of a uniformly interleaved segment ends
up there, but for less than a page; each further worker node already has a share of the
interleaved part that the ratio does not account for.
-/

namespace Bwap

open Common

/-- The bytes of a range on some nodes, where each address is spread evenly over the nodes of its
policy. -/
def heldBytes (policies : PolicyMap) (addr len : Word) (held : Finset ℕ) : ℚ :=
  ∑ offset ∈ Finset.range len.toNat,
    (((policies (addr + BitVec.ofNat 64 offset)).nodes ∩ held).card : ℚ) /
      (policies (addr + BitVec.ofNat 64 offset)).nodes.card

/-- The number of pages that a ratio leaves interleaved, before it is rounded down. -/
def stayingPages (P : PageSize) (nodes : ℕ) (len : Word) (r : ℚ) : ℚ :=
  nodes * (1 - r) * len.toNat / ((nodes - 1) * P.bytes)

/-- A mask that is built is not empty and holds only nodes of the machine. -/
theorem workerMask_nodes {maxNodes : ℕ} (hnodes : 2 ≤ maxNodes) {workers : ℤ} {nodeSet : Finset ℕ}
    (hmask : workerMask maxNodes workers = some nodeSet) :
    nodeSet.Nonempty ∧ nodeSet ⊆ Finset.range maxNodes := by
  have hfilter : ∀ all : Finset ℕ, all.filter (· < maxNodes) ⊆ Finset.range maxNodes :=
    fun all node hnode => Finset.mem_range.mpr (Finset.mem_filter.mp hnode).2
  have hfirst : 0 < maxNodes := by omega
  have hsecond : 1 < maxNodes := by omega
  unfold workerMask at hmask
  split_ifs at hmask <;> obtain rfl := Option.some.inj hmask
  · exact ⟨⟨0, by simp [hfirst]⟩, hfilter _⟩
  · exact ⟨⟨0, by simp [hfirst]⟩, hfilter _⟩
  · exact ⟨⟨1, by simp [hsecond]⟩, hfilter _⟩
  · exact ⟨⟨0, by simp [hfirst]⟩, hfilter _⟩

section WorkerShare

variable {P : PageSize} {mbind : MbindCall → Bool} {nodes : ℕ} {workers : ℤ} {addr len : Word}
  {r : ℚ} {nodeSet : Finset ℕ} {before after : PolicyMap}

/-- The interleaved length is the whole number of pages that stay. -/
theorem interleaveLen_eq_staying (hnodes : 2 ≤ nodes) (hr : 1 / nodes ≤ r ∧ r ≤ 1) :
    (split P nodes len r).interleaveLen.toNat = ⌊stayingPages P nodes len r⌋₊ * P.bytes := by
  have htwo : (2 : ℚ) ≤ nodes := by exact_mod_cast hnodes
  have hpos : (nodes : ℚ) - 1 ≠ 0 := by linarith
  have hpage : (P.bytes : ℚ) ≠ 0 := Nat.cast_ne_zero.mpr P.bytes_pos.ne'
  have hstay : stayingPages P nodes len r =
      (split P nodes len r).interleaveRatio * len.toNat / P.bytes := by
    rw [stayingPages, split_interleaveRatio, split_localRatio P hnodes]
    field_simp
    ring
  rw [split_interleaveLen P hnodes len hr, hstay, Nat.floor_div_natCast]

/-- A call after which something is in force has returned. -/
theorem returns_of_apply {placement : SplitPlacement}
    (hafter : placement.apply before = some after) : placement.died = none := by
  unfold SplitPlacement.apply at hafter
  split_ifs at hafter with hdied
  simpa using hdied

/-- The distance of an address of the segment from its start. -/
theorem toNat_distance (addr : Word) {len : Word} {offset : ℕ} (hoffset : offset < len.toNat) :
    (addr + BitVec.ofNat 64 offset - addr).toNat = offset := by
  have hlt := len.isLt
  rw [BitVec.add_comm, BitVec.add_sub_cancel, BitVec.toNat_ofNat, Nat.mod_eq_of_lt (by omega)]

/-- After a call the end of the segment has the policy of the worker nodes, and the rest the one
from before. -/
theorem policy_after (hnodes : 2 ≤ nodes) (hmask : workerMask nodes workers = some nodeSet)
    (hlen : P.bytes ∣ len.toNat)
    (hafter : (placePages P mbind nodes nodes workers addr len r).apply before = some after)
    {offset : ℕ} (hoffset : offset < len.toNat) :
    after (addr + BitVec.ofNat 64 offset) =
      if (split P nodes len r).interleaveLen.toNat ≤ offset then .requested .interleave nodeSet
      else before (addr + BitVec.ofNat 64 offset) := by
  have hdistance := toNat_distance addr hoffset
  rw [placePages_apply hnodes hlen (returns_of_apply hafter), hmask] at hafter
  have hmap : overlay (Moved P nodes addr len r) (.requested .interleave nodeSet) before = after :=
    Option.some.inj hafter
  have hmoved : Moved P nodes addr len r (addr + BitVec.ofNat 64 offset) ↔
      (split P nodes len r).interleaveLen.toNat ≤ offset := by
    rw [Moved, hdistance]
    exact and_iff_left hoffset
  rw [← hmap, overlay]
  simp only [hmoved]

/-- After a call on a uniformly interleaved segment, the worker nodes hold their part of what stays
and all of what is moved. -/
theorem heldBytes_apply (hnodes : 2 ≤ nodes) (hmask : workerMask nodes workers = some nodeSet)
    (hlen : P.bytes ∣ len.toNat)
    (hbefore : ∀ x, InRange addr len x → (before x).nodes = Finset.range nodes)
    (hafter : (placePages P mbind nodes nodes workers addr len r).apply before = some after) :
    heldBytes after addr len nodeSet =
      (split P nodes len r).interleaveLen.toNat * (nodeSet.card / nodes) +
        (split P nodes len r).localLen.toNat := by
  obtain ⟨hnonempty, hsubset⟩ := workerMask_nodes hnodes hmask
  obtain ⟨-, -, htotal⟩ := split_lengths P hnodes hlen
    (accepted_of_returns hnodes hlen (returns_of_apply hafter))
  have hcard : (nodeSet.card : ℚ) ≠ 0 := Nat.cast_ne_zero.mpr hnonempty.card_pos.ne'
  have hstays : ∀ offset ∈ Finset.range (split P nodes len r).interleaveLen.toNat,
      (((after (addr + BitVec.ofNat 64 offset)).nodes ∩ nodeSet).card : ℚ) /
        (after (addr + BitVec.ofNat 64 offset)).nodes.card = nodeSet.card / nodes := by
    intro offset hoffset
    have hbelow := Finset.mem_range.mp hoffset
    have hinside : InRange addr len (addr + BitVec.ofNat 64 offset) := by
      rw [InRange, BitVec.lt_def, toNat_distance addr (show offset < len.toNat by omega)]
      omega
    rw [policy_after hnodes hmask hlen hafter (by omega), if_neg (by omega), hbefore _ hinside,
      Finset.inter_eq_right.mpr hsubset, Finset.card_range]
  have hmoved : ∀ offset ∈ Finset.range (split P nodes len r).localLen.toNat,
      (((after (addr + BitVec.ofNat 64 ((split P nodes len r).interleaveLen.toNat +
        offset))).nodes ∩ nodeSet).card : ℚ) /
        (after (addr + BitVec.ofNat 64 ((split P nodes len r).interleaveLen.toNat +
          offset))).nodes.card = 1 := by
    intro offset hoffset
    have hbelow := Finset.mem_range.mp hoffset
    rw [policy_after hnodes hmask hlen hafter (by omega), if_pos (by omega), PagePolicy.nodes,
      Finset.inter_self, div_self hcard]
  rw [heldBytes, ← htotal, Finset.sum_range_add, Finset.sum_congr rfl hstays,
    Finset.sum_congr rfl hmoved, Finset.sum_const, Finset.sum_const, Finset.card_range,
    Finset.card_range, nsmul_eq_mul, nsmul_eq_mul, mul_one]

/-- The worker nodes hold more than the requested fraction, by what the further worker nodes have of
the interleaved pages and by what rounding moves. -/
theorem heldBytes_excess (hnodes : 2 ≤ nodes) (hmask : workerMask nodes workers = some nodeSet)
    (hlen : P.bytes ∣ len.toNat)
    (hbefore : ∀ x, InRange addr len x → (before x).nodes = Finset.range nodes)
    (hafter : (placePages P mbind nodes nodes workers addr len r).apply before = some after) :
    heldBytes after addr len nodeSet - r * len.toNat =
      P.bytes * ((((nodeSet.card : ℚ) - 1) * ⌊stayingPages P nodes len r⌋₊ +
        (nodes - 1) * (stayingPages P nodes len r - ⌊stayingPages P nodes len r⌋₊)) / nodes) := by
  have htwo : (2 : ℚ) ≤ nodes := by exact_mod_cast hnodes
  have hpos : (nodes : ℚ) - 1 ≠ 0 := by linarith
  have hcount : (nodes : ℚ) ≠ 0 := by linarith
  have hpage : (P.bytes : ℚ) ≠ 0 := Nat.cast_ne_zero.mpr P.bytes_pos.ne'
  have hr := accepted_of_returns hnodes hlen (returns_of_apply hafter)
  obtain ⟨-, -, htotal⟩ := split_lengths P hnodes hlen hr
  have htotalQ : ((split P nodes len r).interleaveLen.toNat : ℚ) +
      (split P nodes len r).localLen.toNat = len.toNat := by exact_mod_cast htotal
  have hstay : r * len.toNat =
      len.toNat - (nodes - 1) / nodes * (stayingPages P nodes len r * P.bytes) := by
    rw [stayingPages]
    field_simp
    ring
  rw [heldBytes_apply hnodes hmask hlen hbefore hafter, hstay, ← htotalQ,
    interleaveLen_eq_staying hnodes hr, Nat.cast_mul]
  field_simp
  ring

/-- On a uniformly interleaved segment the worker nodes get the requested fraction, up to a page,
exactly when the part of the interleaved pages that the further worker nodes hold, together
with what rounding moves, is less than a page. -/
theorem placePages_workerShare_iff (P : PageSize) (mbind : MbindCall → Bool) (hnodes : 2 ≤ nodes)
    (hmask : workerMask nodes workers = some nodeSet) (hlen : P.bytes ∣ len.toNat)
    (hbefore : ∀ x, InRange addr len x → (before x).nodes = Finset.range nodes)
    (hafter : (placePages P mbind nodes nodes workers addr len r).apply before = some after) :
    |heldBytes after addr len nodeSet - r * len.toNat| < P.bytes ↔
      ((nodeSet.card : ℚ) - 1) * ⌊stayingPages P nodes len r⌋₊ +
        (nodes - 1) * (stayingPages P nodes len r - ⌊stayingPages P nodes len r⌋₊) < nodes := by
  have hr := accepted_of_returns hnodes hlen (returns_of_apply hafter)
  have hpage : (0 : ℚ) < P.bytes := Nat.cast_pos.mpr P.bytes_pos
  have htwo : (2 : ℚ) ≤ nodes := by exact_mod_cast hnodes
  have hcount : (0 : ℚ) < nodes := by linarith
  have hone : (1 : ℚ) ≤ nodeSet.card := by
    exact_mod_cast (workerMask_nodes hnodes hmask).1.card_pos
  have hstay : 0 ≤ stayingPages P nodes len r := by
    have hfactors : 0 ≤ (nodes : ℚ) * (1 - r) * len.toNat :=
      mul_nonneg (mul_nonneg hcount.le (by linarith [hr.2])) (Nat.cast_nonneg _)
    exact div_nonneg hfactors (mul_nonneg (by linarith) hpage.le)
  have hfloor := Nat.floor_le hstay
  have hexcess : 0 ≤ ((nodeSet.card : ℚ) - 1) * ⌊stayingPages P nodes len r⌋₊ +
      (nodes - 1) * (stayingPages P nodes len r - ⌊stayingPages P nodes len r⌋₊) :=
    add_nonneg (mul_nonneg (by linarith) (Nat.cast_nonneg _))
      (mul_nonneg (by linarith) (by linarith))
  rw [heldBytes_excess hnodes hmask hlen hbefore hafter,
    abs_of_nonneg (mul_nonneg hpage.le (div_nonneg hexcess hcount.le)),
    mul_lt_iff_lt_one_right hpage, div_lt_one hcount]

end WorkerShare

/-- Two nodes and one worker: four pages at three quarters. -/
theorem placePages_workerShare_one_worker :
    let before : PolicyMap := fun _ => .other 3 (Finset.range 2)
    let placement := placePages .fourKiB (fun _ => true) 2 2 1 0x7f0000000000 0x4000 (3 / 4)
    let after := placement.issued.foldl MbindCall.apply before
    |heldBytes after 0x7f0000000000 0x4000 {0} - 3 / 4 * (0x4000 : Word).toNat| <
      (PageSize.fourKiB.bytes : ℚ) := by
  intro before placement after
  have hafter : placement.apply before = some after :=
    SplitPlacement.apply_of_returns (by decide +kernel) before
  exact (placePages_workerShare_iff .fourKiB (fun _ => true) (by decide) (by decide) (by decide)
    (fun _ _ => rfl) hafter).mpr (by decide +kernel)

/-- Four nodes and two workers: of six pages at one half, the workers get four. -/
theorem placePages_workerShare_two_workers :
    let before : PolicyMap := fun _ => .other 3 (Finset.range 4)
    let placement := placePages .fourKiB (fun _ => true) 4 4 2 0x7f0000000000 0x6000 (1 / 2)
    let after := placement.issued.foldl MbindCall.apply before
    placement.died = none ∧ workerMask 4 2 = some {0, 1} ∧
      heldBytes after 0x7f0000000000 0x6000 {0, 1} = 0x4000 ∧
      ¬ |heldBytes after 0x7f0000000000 0x6000 {0, 1} - 1 / 2 * (0x6000 : Word).toNat| <
        (PageSize.fourKiB.bytes : ℚ) := by
  intro before placement after
  have hreturns : placement.died = none := by decide +kernel
  have hafter : placement.apply before = some after :=
    SplitPlacement.apply_of_returns hreturns before
  have hmask : workerMask 4 2 = some {0, 1} := by decide
  have hexcess := heldBytes_excess (by decide) hmask (by decide) (fun _ _ => rfl) hafter
  have hpage : (PageSize.fourKiB.bytes : ℚ) *
      (((({0, 1} : Finset ℕ).card : ℚ) - 1) * ⌊stayingPages .fourKiB 4 0x6000 (1 / 2)⌋₊ +
        ((4 : ℕ) - 1) * (stayingPages .fourKiB 4 0x6000 (1 / 2) -
          ⌊stayingPages .fourKiB 4 0x6000 (1 / 2)⌋₊)) / (4 : ℕ) = 0x1000 := by decide +kernel
  have hhalf : 1 / 2 * ((0x6000 : Word).toNat : ℚ) = 0x3000 := by decide +kernel
  have hbytes : (PageSize.fourKiB.bytes : ℚ) = 0x1000 := by decide +kernel
  rw [← mul_div_assoc, hpage] at hexcess
  refine ⟨hreturns, hmask, ?_, ?_⟩
  · rw [hhalf] at hexcess
    linarith
  · rw [hexcess, hbytes]
    norm_num

end Bwap
