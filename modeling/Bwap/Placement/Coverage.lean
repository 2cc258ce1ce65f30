import Bwap.Placement.RaisedShare

/-!
# What the check of the new weights is worth

`place_pages_weighted_s` goes on when the sum of its new weights rounds to 100, while the slices
of the algorithm are fractions of exactly 100. The slices are rounded up to whole pages, which
makes up for a shortfall on short segments only: on long ones the end of the segment is not
placed at all.
-/

namespace Bwap

open Common

/-- Every address of a range lies in exactly one call. -/
structure CoversOnce (addr len : Word) (calls : List IssuedCall) : Prop where
  covered : ∀ x, InRange addr len x → ∃ call ∈ calls, InRange call.start call.len x
  disjoint : calls.Pairwise fun a b => ∀ x, ¬(InRange a.start a.len x ∧ InRange b.start b.len x)

/-- The calls for the slices cover a range exactly when the demands add up to it. -/
theorem coversOnce_sliceCalls_iff (addr len : Word) (demand : ℕ → ℕ) (policy : MemoryPolicy)
    (nodes : ℕ → Finset ℕ) (n : ℕ) :
    CoversOnce addr len
        ((List.range n).filterMap (sliceCall addr len.toNat demand policy nodes)) ↔
      len.toNat ≤ ∑ i ∈ Finset.range n, demand i := by
  have hfilled : filled len.toNat demand n = len.toNat ↔
      len.toNat ≤ ∑ i ∈ Finset.range n, demand i := by
    rw [filled_eq_min]
    exact min_eq_left_iff
  have hunion := inRange_sliceCalls_iff addr demand policy nodes len.isLt n
  rw [← hfilled]
  apply Iff.intro
  · intro hcovers
    by_contra hshort
    -- the first address that is not placed
    let x := addr + BitVec.ofNat 64 (filled len.toNat demand n)
    have hdistance : (x - addr).toNat = filled len.toNat demand n := by
      have hoffset : x - addr = BitVec.ofNat 64 (filled len.toNat demand n) := by
        simp only [x]
        rw [BitVec.add_comm, BitVec.add_sub_cancel]
      rw [hoffset, toNat_filled len.isLt demand n]
    have hbelow := lt_of_le_of_ne (filled_le len.toNat demand n) hshort
    have hcall := hcovers.covered x (by rwa [InRange, BitVec.lt_def, hdistance])
    rw [hunion, hdistance] at hcall
    exact lt_irrefl _ hcall
  · intro hfull
    refine ⟨fun x hx => ?_, disjoint_sliceCalls addr demand policy nodes len.isLt n⟩
    rw [hunion, hfull]
    exact BitVec.lt_def.mp hx

section Round

variable {P : PageSize} {mbind : MbindCall → Bool} {sums : WeightSums} {workers : ℤ}
  {nodesInfo : List Record} {state after : NewWeights} {addr len : Word} {s : ℚ}
  {placement : Placement}

/-- A call that does not exit runs the algorithm on the table it leaves. -/
theorem placePagesWeightedS_placement
    (hcall : placePagesWeightedS P mbind sums workers nodesInfo state addr len s =
      .ok (after, placement)) : placement = placePagesWeighted P mbind after.temp addr len := by
  obtain ⟨left, -, hplaced⟩ := bind_eq_ok_iff.mp hcall
  obtain ⟨rfl, hplacement⟩ := Prod.mk.inj (Except.ok.inj hplaced)
  exact hplacement.symm

/-- A call that is not refused covers the segment exactly when the slices that the weights it leaves
ask for add up to it. -/
theorem coversOnce_iff_temp
    (hcall : placePagesWeightedS P mbind sums workers nodesInfo state addr len s =
      .ok (after, placement)) (hok : placement.aborted = false) :
    CoversOnce addr len placement.issued ↔ len.toNat ≤
      ∑ i ∈ Finset.range after.temp.length, wordDemand P (idealShare after.temp len.toNat) i := by
  rw [placePagesWeightedS_placement hcall, placePagesWeighted, interleaveLoop_all] at hok ⊢
  rw [Placement.issueAll_issued mbind _ hok]
  exact coversOnce_sliceCalls_iff addr len _ .interleave (remainingNodes after.temp) _

/-- New weights that add up to 100 or more are worth what the check asks for: ascending ones that
the conversion to `size_t` can represent cover every segment of whole pages. -/
theorem placePagesWeightedS_covers_of_total
    (hcall : placePagesWeightedS P mbind sums workers nodesInfo state addr len s =
      .ok (after, placement)) (hok : placement.aborted = false)
    (hnonneg : ∀ node ∈ after.temp, 0 ≤ node.weight)
    (hsorted : after.temp.Pairwise fun a b => a.weight ≤ b.weight)
    (hfit : ∀ i < after.temp.length, idealShare after.temp len.toNat i + P.bytes ≤ 2 ^ 64)
    (hcount : after.temp.length ≤ P.bytes) (hlen : P.bytes ∣ len.toNat)
    (htotal : 100 ≤ (after.temp.map Record.weight).sum) :
    CoversOnce addr len placement.issued := by
  let share := idealShare after.temp len.toNat
  have hideal : (len.toNat : ℚ) ≤ ∑ i ∈ Finset.range after.temp.length, share i := by
    have hmul := mul_le_mul_of_nonneg_right htotal (Nat.cast_nonneg (α := ℚ) len.toNat)
    rw [sum_idealShare_all]
    linarith
  have hfull := filled_eq_budget P.bytes_pos share hlen hcount hideal
  rw [filled_eq_min] at hfull
  rw [coversOnce_iff_temp hcall hok]
  refine (min_eq_left_iff.mp hfull).trans (Finset.sum_le_sum fun i hi => ?_)
  have hi' := Finset.mem_range.mp hi
  have hstep := weightBefore_le_succ hnonneg hsorted hi'
  exact (wordDemand_eq_roundedShare (idealShare_nonneg_of_le len.toNat hstep) (hfit i hi')).ge

/-- Others are made up for by the rounding to pages only: where they cover the segment, it is short
of less than a page for each node. -/
theorem shortfall_le_of_covers
    (hcall : placePagesWeightedS P mbind sums workers nodesInfo state addr len s =
      .ok (after, placement)) (hok : placement.aborted = false)
    (hnonneg : ∀ node ∈ after.temp, 0 ≤ node.weight)
    (hsorted : after.temp.Pairwise fun a b => a.weight ≤ b.weight)
    (hcovers : CoversOnce addr len placement.issued) :
    (100 - (after.temp.map Record.weight).sum) * len.toNat / 100 ≤
      after.temp.length * (P.bytes - 1) := by
  have hdemands : (len.toNat : ℚ) ≤ ∑ i ∈ Finset.range after.temp.length,
      (wordDemand P (idealShare after.temp len.toNat) i : ℚ) := by
    rw [← Nat.cast_sum]
    exact Nat.cast_le.mpr ((coversOnce_iff_temp hcall hok).mp hcovers)
  have hrounded := Finset.sum_le_sum fun i (hi : i ∈ Finset.range after.temp.length) =>
    wordDemand_le (P := P) (idealShare_nonneg_of_le len.toNat
      (weightBefore_le_succ hnonneg hsorted (Finset.mem_range.mp hi)))
  rw [Finset.sum_add_distrib, sum_idealShare_all, Finset.sum_const, Finset.card_range,
    nsmul_eq_mul] at hrounded
  linarith

end Round

end Bwap
