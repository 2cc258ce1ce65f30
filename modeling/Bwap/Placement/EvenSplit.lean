import Bwap.Placement.WeightedShares

/-!
# What a node asks for and what is left for it

The algorithm for ascending weights interleaves the slice of a node over that node and all later
ones, and clamps it to what is left of the segment. So a node gets its parts of the slices before
its own and the smaller one of two parts of its own slice: of what its weight asks for, and of an
even split of the rest, which is, up to rounding, what the mean of the weights from that node on
asks for. On an ascending table the second part is therefore never much smaller; where a weight
exceeds those after it, it is.
-/

namespace Bwap

open Common

/-! ## An even split -/

section Split

/-- What a node has when the nodes before it take their slices, each shared with all later nodes,
and what they leave is split evenly among the node and all later ones. -/
def evenSplit (n size k : ℕ) (taken : ℕ → ℚ) : ℚ :=
  ∑ i ∈ Finset.range k, 1 / ((n : ℚ) - i) * taken i +
    1 / ((n : ℚ) - k) * (size - ∑ i ∈ Finset.range k, taken i)

variable {n size k : ℕ} {taken taken' : ℕ → ℚ}

/-- Compared with an even split of the whole segment, a node lacks what the slices before its own
give to the nodes before it. -/
theorem evenSplit_eq (n size k : ℕ) (taken : ℕ → ℚ) :
    evenSplit n size k taken = 1 / ((n : ℚ) - k) * size -
      ∑ i ∈ Finset.range k, (1 / ((n : ℚ) - k) - 1 / ((n : ℚ) - i)) * taken i := by
  simp only [evenSplit, sub_mul, Finset.sum_sub_distrib, ← Finset.mul_sum]
  ring

/-- What a slice costs a later node, for each of its bytes. -/
theorem cost_mem (hk : k < n) {i : ℕ} (hi : i < k) :
    0 ≤ 1 / ((n : ℚ) - k) - 1 / ((n : ℚ) - i) ∧
      1 / ((n : ℚ) - k) - 1 / ((n : ℚ) - i) ≤ 1 / ((n : ℚ) - k) := by
  have hlast : (k : ℚ) + 1 ≤ n := by exact_mod_cast hk
  have hgap : (i : ℚ) ≤ k := Nat.cast_le.mpr hi.le
  have hmono : 1 / ((n : ℚ) - i) ≤ 1 / ((n : ℚ) - k) :=
    one_div_le_one_div_of_le (by linarith) (by linarith)
  have hpos : 0 ≤ 1 / ((n : ℚ) - i) := div_nonneg zero_le_one (by linarith)
  constructor <;> linarith

/-- Longer slices before a node leave it less. -/
theorem evenSplit_anti (hk : k < n) (htaken : ∀ i < k, taken i ≤ taken' i) :
    evenSplit n size k taken' ≤ evenSplit n size k taken := by
  rw [evenSplit_eq, evenSplit_eq]
  refine sub_le_sub_left (Finset.sum_le_sum fun i hi => ?_) _
  have hik := Finset.mem_range.mp hi
  exact mul_le_mul_of_nonneg_left (htaken i hik) (cost_mem hk hik).1

/-- Slices that are longer by less than a bound leave it less by a part of that bound for each. -/
theorem evenSplit_le_add (hk : k < n) {bound : ℚ} (hbound : 0 ≤ bound)
    (htaken : ∀ i < k, taken' i ≤ taken i + bound) :
    evenSplit n size k taken ≤ evenSplit n size k taken' + k * (1 / ((n : ℚ) - k) * bound) := by
  have hterm : ∀ i ∈ Finset.range k, (1 / ((n : ℚ) - k) - 1 / ((n : ℚ) - i)) * taken' i ≤
      (1 / ((n : ℚ) - k) - 1 / ((n : ℚ) - i)) * taken i + 1 / ((n : ℚ) - k) * bound := by
    intro i hi
    have hik := Finset.mem_range.mp hi
    obtain ⟨hcost, hcost'⟩ := cost_mem hk hik
    have hmul := mul_le_mul_of_nonneg_left (htaken i hik) hcost
    have hrest := mul_le_mul_of_nonneg_right hcost' hbound
    linarith
  have hsum := Finset.sum_le_sum hterm
  rw [Finset.sum_add_distrib, Finset.sum_const, Finset.card_range, nsmul_eq_mul] at hsum
  rw [evenSplit_eq, evenSplit_eq]
  linarith

end Split

/-! ## The two bounds on a credit -/

section Credit

variable (P : PageSize) (records : List Record) (size k : ℕ)

/-- What a node has when the nodes before it take all they ask for, in whole pages, and the rest is
split evenly. -/
def evenShare : ℚ :=
  evenSplit records.length size k fun i => (roundedShare P.bytes (idealShare records size) i : ℕ)

/-- What it has when the rest is split evenly after the slices that the code gives them. -/
def leftShare : ℚ :=
  evenSplit records.length size k fun i =>
    (slice size (wordDemand P (idealShare records size)) i : ℕ)

/-- What a node has when its own slice is all it asks for. -/
def askedShare : ℚ :=
  ∑ i ∈ Finset.range k, 1 / ((records.length : ℚ) - i) *
      slice size (wordDemand P (idealShare records size)) i +
    1 / ((records.length : ℚ) - k) * wordDemand P (idealShare records size) k

variable {P records size k}

/-- What is split evenly is the rest of the segment. -/
theorem leftShare_eq (P : PageSize) (records : List Record) (size k : ℕ) :
    leftShare P records size k = ∑ i ∈ Finset.range k, 1 / ((records.length : ℚ) - i) *
        slice size (wordDemand P (idealShare records size)) i +
      1 / ((records.length : ℚ) - k) *
        (size - filled size (wordDemand P (idealShare records size)) k : ℕ) := by
  rw [leftShare, evenSplit, Nat.cast_sub (filled_le size _ k), ← sum_slice, Nat.cast_sum]

/-- A node is credited with the smaller one of what it asks for and of an even split. -/
theorem creditedBytes_eq_min (hids : (records.map Record.id).Perm (List.range records.length))
    {addr : Word} (hsize : size < 2 ^ 64) (hk : k < records.length) :
    creditedBytes ((List.range records.length).filterMap (loopCalls P records addr size))
        records[k].id = min (leftShare P records size k) (askedShare P records size k) := by
  rw [loopCalls, creditedBytes_eq hids _ hsize hk, Finset.sum_range_succ, leftShare_eq, askedShare,
    min_add_add_left, ← mul_min_of_nonneg _ _ (part_mem hk).1, min_comm, ← Nat.cast_min]
  rfl

/-- With no negative share up to its own, a node asks for at most its weight and a page for each
node. -/
theorem askedShare_le (hk : k < records.length)
    (hnonneg : ∀ i ≤ k, 0 ≤ idealShare records size i) :
    askedShare P records size k ≤
      records[k].weight * size / 100 + records.length * (P.bytes - 1) := by
  have hP : (1 : ℚ) ≤ P.bytes := by exact_mod_cast P.bytes_pos
  have hdemand : askedShare P records size k ≤
      ∑ i ∈ Finset.range (k + 1), 1 / ((records.length : ℚ) - i) *
        (wordDemand P (idealShare records size) i : ℚ) := by
    rw [Finset.sum_range_succ, askedShare]
    refine add_le_add_left (Finset.sum_le_sum fun i hi => ?_) _
    have hik := Finset.mem_range.mp hi
    exact mul_le_mul_of_nonneg_left (Nat.cast_le.mpr (min_le_left _ _))
      (part_mem (show i < records.length by omega)).1
  exact hdemand.trans (sum_parts_le size hk (by linarith) fun i hi => wordDemand_le (hnonneg i hi))

/-- The even split of the exact shares is the mean of the weights from the node on. -/
theorem evenSplit_idealShare (hk : k < records.length) :
    evenSplit records.length size k (idealShare records size) =
      1 / ((records.length : ℚ) - k) *
        ((100 - ∑ i ∈ Finset.range k, weightBefore records (i + 1)) * size / 100) := by
  have hleft : (records.length : ℚ) - k ≠ 0 := sub_ne_zero.mpr (Nat.cast_injective.ne hk.ne')
  rw [evenSplit, sum_idealCredit_before size hk.le, sum_idealShare records size k hk.le]
  field_simp
  ring

/-- Up to a page for each node before it, an even split gives a node the mean of the weights from
its own on. -/
theorem evenShare_near_mean (hk : k < records.length)
    (hnonneg : ∀ i < k, 0 ≤ idealShare records size i) :
    let mean := 1 / ((records.length : ℚ) - k) *
      ((100 - ∑ i ∈ Finset.range k, weightBefore records (i + 1)) * size / 100)
    mean - k * (1 / ((records.length : ℚ) - k) * (P.bytes - 1)) ≤ evenShare P records size k ∧
      evenShare P records size k ≤ mean + k * (1 / ((records.length : ℚ) - k) * 1) := by
  intro mean
  have hP : (1 : ℚ) ≤ P.bytes := by exact_mod_cast P.bytes_pos
  have hmean : evenSplit records.length size k (idealShare records size) = mean :=
    evenSplit_idealShare hk
  have hbelow : evenSplit records.length size k (idealShare records size) ≤
      evenShare P records size k + k * (1 / ((records.length : ℚ) - k) * (P.bytes - 1)) :=
    evenSplit_le_add hk (by linarith) fun i hi => 
      rounded_le_share_add P.bytes_pos (idealShare records size) (hnonneg i hi)
  have habove : evenShare P records size k ≤
      evenSplit records.length size k (idealShare records size) +
        k * (1 / ((records.length : ℚ) - k) * 1) :=
    evenSplit_le_add hk zero_le_one fun i _ => by
      have hround := share_sub_one_lt_rounded P.bytes_pos (idealShare records size) i
      linarith
  constructor <;> linarith

/-- An amount that is at most a multiple of another leaves, after all but one of its parts are
replaced by the other one, at most a part. -/
theorem sub_mul_le_part {amount count other : ℚ} (hcount : 1 ≤ count)
    (hamount : amount ≤ count * other) : amount - (count - 1) * other ≤ 1 / count * amount := by
  have hpos : 0 < count := zero_lt_one.trans_le hcount
  have hpart : amount / count ≤ other := (div_le_iff₀' hpos).mpr hamount
  have hsplit : amount = count * (amount / count) := (mul_div_cancel₀ amount hpos.ne').symm
  have hmul := mul_le_mul_of_nonneg_left hpart (show 0 ≤ count - 1 by linarith)
  rw [one_div_mul_eq_div]
  linarith

/-- When the nodes before a node ask for the whole segment and none after it weighs less than they
do, the node cannot weigh much more than them: an even split still gives it its weight. -/
theorem weight_le_evenShare_of_full (hk : k < records.length)
    (hnonneg : ∀ i < k, 0 ≤ idealShare records size i)
    (hlater : ∀ j, k < j → j < records.length →
      weightBefore records k ≤ weightBefore records (j + 1))
    (hfull : size ≤ ∑ i ∈ Finset.range k, roundedShare P.bytes (idealShare records size) i) :
    records[k].weight * size / 100 - ((records.map Record.weight).sum - 100) * size / 100 -
      k * (P.bytes - 1) ≤ evenShare P records size k := by
  let left : ℚ := (records.length : ℚ) - k
  let before := ∑ i ∈ Finset.range k, weightBefore records (i + 1)
  let after := ∑ j ∈ Finset.Ico (k + 1) records.length, weightBefore records (j + 1)
  have hleft : 1 ≤ left := by
    have hgap : (k : ℚ) + 1 ≤ records.length := by exact_mod_cast hk
    simp only [left]
    linarith
  have htotal : before + records[k].weight + after = (records.map Record.weight).sum := by
    rw [← sum_weightBefore, ← Finset.sum_range_add_sum_Ico _ hk, Finset.sum_range_succ,
      weightBefore_succ (List.getElem?_eq_getElem hk)]
  -- each node after it takes at least the weight of the node before it
  have hafter : (left - 1) * weightBefore records k ≤ after := by
    have hsum := Finset.card_nsmul_le_sum (Finset.Ico (k + 1) records.length)
      (fun j => weightBefore records (j + 1)) (weightBefore records k) fun j hj =>
        hlater j (Finset.mem_Ico.mp hj).1 (Finset.mem_Ico.mp hj).2
    rw [Nat.card_Ico, nsmul_eq_mul, Nat.cast_sub hk, Nat.cast_succ, ← sub_sub] at hsum
    exact hsum
  have hweight := mul_le_mul_of_nonneg_right (show records[k].weight ≤
    (records.map Record.weight).sum - before - (left - 1) * weightBefore records k by linarith)
      (Nat.cast_nonneg (α := ℚ) size)
  -- the shares before it add up to the segment, but for the rounding to pages
  have hasked : (size : ℚ) ≤ (left * weightBefore records k + before) * size / 100 +
      k * (P.bytes - 1) := by
    have hrounded := Finset.sum_le_sum fun i (hi : i ∈ Finset.range k) =>
      rounded_le_share_add P.bytes_pos (idealShare records size)
        (hnonneg i (Finset.mem_range.mp hi))
    rw [Finset.sum_add_distrib, sum_idealShare records size k hk.le, Finset.sum_const,
      Finset.card_range, nsmul_eq_mul, ← Nat.cast_sum] at hrounded
    exact (Nat.cast_le.mpr hfull).trans hrounded
  have hrest : (100 - before) * size / 100 - k * (P.bytes - 1) ≤
      left * (weightBefore records k * size / 100) := by linarith
  have hpart := sub_mul_le_part hleft hrest
  have hmean : 1 / left * ((100 - before) * size / 100) - k * (1 / left * (P.bytes - 1)) ≤
      evenShare P records size k := (evenShare_near_mean hk hnonneg).1
  linarith

/-- Where the shares before a node are neither negative nor too large for the conversion, what the
code leaves it is no less than the even split, and no more unless they use up the segment. -/
theorem evenShare_le_leftShare (hk : k < records.length)
    (hnonneg : ∀ i < k, 0 ≤ idealShare records size i)
    (hfit : ∀ i < k, idealShare records size i + P.bytes ≤ 2 ^ 64) :
    evenShare P records size k ≤ leftShare P records size k ∧
      (∑ i ∈ Finset.range k, roundedShare P.bytes (idealShare records size) i < size →
        leftShare P records size k = evenShare P records size k) := by
  have hdemand : ∀ i < k, wordDemand P (idealShare records size) i =
      roundedShare P.bytes (idealShare records size) i := fun i hi =>
    wordDemand_eq_roundedShare (hnonneg i hi) (hfit i hi)
  have hslice : ∀ i < k, slice size (wordDemand P (idealShare records size)) i ≤
      roundedShare P.bytes (idealShare records size) i := fun i hi =>
    (min_le_left _ _).trans_eq (hdemand i hi)
  have hle : evenShare P records size k ≤ leftShare P records size k :=
    evenSplit_anti hk fun i hi => Nat.cast_le.mpr (hslice i hi)
  refine ⟨hle, fun hfits => le_antisymm (evenSplit_anti hk fun i hi => ?_) hle⟩
  have hleft : filled size (wordDemand P (idealShare records size)) k < size := by
    rw [filled_eq_min, Finset.sum_congr rfl fun j hj => hdemand j (Finset.mem_range.mp hj)]
    exact (min_le_right _ _).trans_lt hfits
  rw [slice_eq_of_lt size _ hi hleft, hdemand i hi]

/-- Where no share is negative or too large for the conversion, a node asks for its weight, but for
a byte for each node, unless nothing is left for it. -/
theorem leftShare_le_or_le_askedShare (hk : k < records.length)
    (hnonneg : ∀ i ≤ k, 0 ≤ idealShare records size i)
    (hfit : ∀ i ≤ k, idealShare records size i + P.bytes ≤ 2 ^ 64) :
    leftShare P records size k ≤ askedShare P records size k ∨
      records[k].weight * size / 100 - records.length ≤ askedShare P records size k := by
  let demand := wordDemand P (idealShare records size)
  by_cases hfull : filled size demand k = size
  · left
    have hzero : (size - filled size demand k : ℕ) = 0 := by omega
    rw [leftShare_eq, askedShare, hzero, Nat.cast_zero, mul_zero]
    exact add_le_add_right (mul_nonneg (part_mem hk).1 (Nat.cast_nonneg _)) _
  · right
    have hleft : filled size demand k < size := lt_of_le_of_ne (filled_le size demand k) hfull
    have hasked : askedShare P records size k = ∑ i ∈ Finset.range (k + 1),
        1 / ((records.length : ℚ) - i) * (demand i : ℚ) := by
      rw [Finset.sum_range_succ, askedShare]
      congr 1
      refine Finset.sum_congr rfl fun i hi => ?_
      rw [slice_eq_of_lt size demand (Finset.mem_range.mp hi) hleft]
    have hbelow : _ ≤ ∑ i ∈ Finset.range (k + 1), 1 / ((records.length : ℚ) - i) * (demand i : ℚ) :=
      le_sum_parts size hk zero_le_one fun i hi => by
        have hround : demand i = roundedShare P.bytes (idealShare records size) i :=
          wordDemand_eq_roundedShare (hnonneg i hi) (hfit i hi)
        rw [hround]
        exact (share_sub_one_lt_rounded P.bytes_pos _ i).le
    rw [mul_one] at hbelow
    rw [hasked]
    exact hbelow

/-- So a bound below the weight is reached exactly when the even split reaches it. -/
theorem le_min_iff_le_evenShare (hk : k < records.length)
    (hnonneg : ∀ i ≤ k, 0 ≤ idealShare records size i)
    (hfit : ∀ i ≤ k, idealShare records size i + P.bytes ≤ 2 ^ 64)
    (hlater : ∀ j, k < j → j < records.length →
      weightBefore records k ≤ weightBefore records (j + 1)) {bound : ℚ}
    (hasked : bound ≤ records[k].weight * size / 100 - records.length)
    (heven : bound ≤ records[k].weight * size / 100 -
      ((records.map Record.weight).sum - 100) * size / 100 - k * (P.bytes - 1)) :
    bound ≤ min (leftShare P records size k) (askedShare P records size k) ↔
      bound ≤ evenShare P records size k := by
  have hnonneg' : ∀ i < k, 0 ≤ idealShare records size i := fun i hi => hnonneg i hi.le
  obtain ⟨hle, hsame⟩ := evenShare_le_leftShare hk hnonneg' fun i hi => hfit i hi.le
  apply Iff.intro
  · intro hboth
    by_cases hfull : size ≤ ∑ i ∈ Finset.range k, roundedShare P.bytes (idealShare records size) i
    · exact heven.trans (weight_le_evenShare_of_full hk hnonneg' hlater hfull)
    · rw [← hsame (not_le.mp hfull)]
      exact hboth.trans (min_le_left _ _)
  · intro hreached
    have hleft := hreached.trans hle
    rcases leftShare_le_or_le_askedShare hk hnonneg hfit with hnone | hall
    · exact le_min hleft (hleft.trans hnone)
    · exact le_min hleft (hasked.trans hall)

end Credit

end Bwap
