import Bwap.Common.TrimmedMean
import Mathlib.Data.Rat.Cast.Order

/-!
# The average stall rate

`get_average_stall_rate` sorts its measurements, erases as many of the largest as of the
smallest ones, and divides the sum of the rest by their number. Both erasures and the division
are defined exactly when more than twice as many measurements are made as are dropped at either
end; nothing checks the two options they come from.
-/

namespace Bwap

open Common

/-- Why an average is undefined: a range to erase is not one of the vector, or nothing is left to
divide by. -/
inductive AverageFault
  | invalidRange
  | notANumber
deriving DecidableEq

/-- `measurements.erase(first, last)`, for iterators given by their distance from `begin()`. -/
def eraseRange (measurements : List ℚ) (first last : ℤ) : Except AverageFault (List ℚ) :=
  if 0 ≤ first ∧ first ≤ last ∧ last ≤ measurements.length then
    .ok (measurements.take first.toNat ++ measurements.drop last.toNat)
  else .error .invalidRange

/-- What `get_average_stall_rate` does with its measurements. -/
def averageStallRate (measurements : List ℚ) (numOutliersToFilter : ℕ) :
    Except AverageFault ℚ := do
  let measurements := measurements.insertionSort (· ≤ ·)
  let measurements ← eraseRange measurements (measurements.length - numOutliersToFilter)
    measurements.length
  let measurements ← eraseRange measurements 0 numOutliersToFilter
  if measurements.length = 0 then .error .notANumber
  else .ok (measurements.sum / measurements.length)

/-- `get_average_stall_rate`, from the readings of the counter; the first one is thrown away. -/
def getAverageStallRate (reading : ℕ → ℚ) (numMeasurements numOutliersToFilter : ℕ) :
    Except AverageFault ℚ :=
  averageStallRate ((List.range numMeasurements).map fun i => reading (i + 1)) numOutliersToFilter

/-- Erasing from the end. -/
theorem eraseRange_last (measurements : List ℚ) (k : ℕ) :
    eraseRange measurements (measurements.length - k) measurements.length =
      if k ≤ measurements.length then .ok (measurements.take (measurements.length - k))
      else .error .invalidRange := by
  unfold eraseRange
  by_cases hk : k ≤ measurements.length
  · have hfirst : ((measurements.length : ℤ) - k).toNat = measurements.length - k := by omega
    rw [if_pos (by omega), if_pos hk, hfirst, Int.toNat_natCast, List.drop_length, List.append_nil]
  · rw [if_neg (by omega), if_neg hk]

/-- Erasing from the start. -/
theorem eraseRange_first (measurements : List ℚ) (k : ℕ) :
    eraseRange measurements 0 k =
      if k ≤ measurements.length then .ok (measurements.drop k) else .error .invalidRange := by
  unfold eraseRange
  by_cases hk : k ≤ measurements.length
  · rw [if_pos (by omega), if_pos hk, Int.toNat_natCast, Int.toNat_zero, List.take_zero,
      List.nil_append]
  · rw [if_neg (by omega), if_neg hk]

/-- The average is the mean of the measurements left in the middle, if there are any; otherwise an
erasure is undefined, or nothing is left. -/
theorem averageStallRate_eq (measurements : List ℚ) (k : ℕ) :
    averageStallRate measurements k =
      if measurements.length < 2 * k then .error .invalidRange
      else if measurements.length = 2 * k then .error .notANumber
      else .ok (trimmedMean measurements k) := by
  have hlength : (measurements.insertionSort (· ≤ ·)).length = measurements.length :=
    List.length_insertionSort _ _
  have herased := eraseRange_last (measurements.insertionSort (· ≤ ·)) k
  rw [hlength] at herased
  unfold averageStallRate
  simp only [eraseRange_first, hlength, herased]
  by_cases hlast : k ≤ measurements.length
  · rw [if_pos hlast]
    change (if k ≤ ((measurements.insertionSort (· ≤ ·)).take (measurements.length - k)).length then
      _ else _ : Except AverageFault (List ℚ)) >>= _ = _
    rw [List.length_take, hlength]
    by_cases hfirst : k ≤ min (measurements.length - k) measurements.length
    · rw [if_pos hfirst, if_neg (by omega)]
      change (if (trimmed measurements k).length = 0 then _ else _ : Except AverageFault ℚ) = _
      rw [length_trimmed]
      by_cases hempty : measurements.length - 2 * k = 0
      · rw [if_pos hempty, if_pos (by omega)]
      · rw [if_neg hempty, if_neg (by omega)]
        rfl
    · rw [if_neg hfirst, if_pos (by omega)]
      rfl
  · rw [if_neg hlast, if_pos (by omega)]
    rfl

/-- The average is defined exactly when more than twice as many measurements are made as are dropped
at either end. -/
theorem averageStallRate_ok_iff (measurements : List ℚ) (k : ℕ) :
    (∃ average, averageStallRate measurements k = .ok average) ↔ 2 * k < measurements.length := by
  rw [averageStallRate_eq]
  split_ifs with hshort hempty
  · simp only [exists_false, false_iff]
    omega
  · simp only [exists_false, false_iff]
    omega
  · simp only [Except.ok.injEq, exists_eq', true_iff]
    omega

/-- The average of enough measurements depends neither on their order nor, beyond the range of the
others, on as many of them as are dropped at either end, and it is monotone in each one. -/
theorem averageStallRate_robust (measurements : List ℚ) (k : ℕ)
    (hleft : 2 * k < measurements.length) :
    ∃ average, averageStallRate measurements k = .ok average ∧
      (∀ other : List ℚ, measurements.Perm other → averageStallRate other k = .ok average) ∧
      (∀ other : List ℚ, List.Forall₂ (· ≤ ·) measurements other →
        ∃ higher, averageStallRate other k = .ok higher ∧ average ≤ higher) ∧
      ∀ (other : List ℚ) (replaced : Finset ℕ), other.length = measurements.length →
        replaced.card ≤ k → (∀ i ∉ replaced, other[i]? = measurements[i]?) →
        ∃ corrupted, averageStallRate other k = .ok corrupted ∧
          (∃ i, ∃ hi : i < measurements.length, i ∉ replaced ∧ measurements[i] ≤ corrupted) ∧
          ∃ i, ∃ hi : i < measurements.length, i ∉ replaced ∧ corrupted ≤ measurements[i] := by
  have hmean (other : List ℚ) (hlength : other.length = measurements.length) :
      averageStallRate other k = .ok (trimmedMean other k) := by
    rw [averageStallRate_eq, if_neg (by omega), if_neg (by omega)]
  refine ⟨trimmedMean measurements k, hmean measurements rfl, ?_, ?_, ?_⟩
  · intro other hperm
    rw [hmean other hperm.length_eq.symm, trimmedMean, trimmedMean, trimmed_eq_of_perm hperm]
  · intro other hhigher
    exact ⟨_, hmean other hhigher.length_eq.symm, trimmedMean_mono hhigher k⟩
  · intro other replaced hlength hfew hkept
    have hvalue {i : ℕ} (hi : i < other.length) (hi' : i < measurements.length)
        (hout : i ∉ replaced) : other[i] = measurements[i] := by
      have hentry := hkept i hout
      rwa [List.getElem?_eq_getElem hi, List.getElem?_eq_getElem hi', Option.some.injEq] at hentry
    obtain ⟨⟨i, hi, hout, hlow⟩, j, hj, hout', hhigh⟩ :=
      trimmedMean_between (show 2 * k < other.length by omega) hfew
    rw [hvalue hi (by omega) hout] at hlow
    rw [hvalue hj (by omega) hout'] at hhigh
    exact ⟨_, hmean other hlength, ⟨i, by omega, hout, hlow⟩, j, by omega, hout', hhigh⟩

/-- Five measurements without the largest and the smallest one, and the same with an outlier. -/
theorem averageStallRate_robust_five :
    averageStallRate [3, 1, 2, 5, 4] 1 = .ok 3 ∧
      ∃ corrupted, averageStallRate [3, 1, 1000, 5, 4] 1 = .ok corrupted ∧
        (∃ i, ∃ hi : i < 5, i ∉ ({2} : Finset ℕ) ∧ ([3, 1, 2, 5, 4] : List ℚ)[i] ≤ corrupted) ∧
        ∃ i, ∃ hi : i < 5, i ∉ ({2} : Finset ℕ) ∧ corrupted ≤ ([3, 1, 2, 5, 4] : List ℚ)[i] := by
  obtain ⟨average, haverage, -, -, hcorrupted⟩ :=
    averageStallRate_robust [3, 1, 2, 5, 4] 1 (by decide)
  refine ⟨by decide +kernel, hcorrupted [3, 1, 1000, 5, 4] {2} rfl le_rfl fun i hi => ?_⟩
  match i with
  | 0 | 1 | 3 | 4 => rfl
  | 2 => exact absurd (Finset.mem_singleton_self 2) hi
  | _ + 5 => rfl

/-! ## The two options -/

/-- The numbers of measurements and outliers with which the fixed-ratio mode calls
`get_average_stall_rate`. -/
def fixedRatioCalls (numPolls numPollOutliers : BitVec 32) : List (BitVec 32 × BitVec 32) :=
  [(numPolls, numPollOutliers)]

/-- Those of the adaptive mode: the second call confirms a rise of the first one's average. -/
def adaptiveCalls (numPolls numPollOutliers : BitVec 32) : List (BitVec 32 × BitVec 32) :=
  [(numPolls, numPollOutliers), (numPolls * 2, numPollOutliers * 2)]

/-- All calls return an average, whatever the counter reads. -/
def Defined (calls : List (BitVec 32 × BitVec 32)) : Prop :=
  ∀ call ∈ calls, ∀ reading, ∃ average,
    getAverageStallRate reading call.1.toNat call.2.toNat = .ok average

/-- A call returns an average exactly when its numbers leave some measurements. -/
theorem getAverageStallRate_ok_iff (reading : ℕ → ℚ) (n k : ℕ) :
    (∃ average, getAverageStallRate reading n k = .ok average) ↔ 2 * k < n := by
  rw [getAverageStallRate, averageStallRate_ok_iff, List.length_map, List.length_range]

/-- For any values of the options, the average of the fixed-ratio mode is defined exactly when more
than twice as many measurements are made as are dropped at either end, and those of the
adaptive mode when this is so without the top bit of the number of measurements. -/
theorem stallRates_defined_iff (numPolls numPollOutliers : BitVec 32) :
    (Defined (fixedRatioCalls numPolls numPollOutliers) ↔
        2 * numPollOutliers.toNat < numPolls.toNat) ∧
      (Defined (adaptiveCalls numPolls numPollOutliers) ↔
        2 * numPollOutliers.toNat < numPolls.toNat % 2 ^ 31) := by
  have hpolls : (numPolls * 2).toNat = numPolls.toNat * 2 % 2 ^ 32 := BitVec.toNat_mul _ _
  have houtliers : (numPollOutliers * 2).toNat = numPollOutliers.toNat * 2 % 2 ^ 32 :=
    BitVec.toNat_mul _ _
  have hlt := numPolls.isLt
  have hlt' := numPollOutliers.isLt
  simp only [Defined, fixedRatioCalls, adaptiveCalls, List.forall_mem_cons,
    List.not_mem_nil, IsEmpty.forall_iff, implies_true, and_true, getAverageStallRate_ok_iff,
    forall_const, hpolls, houtliers, true_and]
  constructor <;> intro h <;> omega

/-- Five measurements with the default number of outliers: the second erasure ends beyond the
vector. With twice as many, nothing is left to divide by. -/
theorem stallRates_undefined :
    getAverageStallRate (fun _ => 1) 5 5 = .error .invalidRange ∧
      getAverageStallRate (fun _ => 1) 10 5 = .error .notANumber ∧
      ¬Defined (fixedRatioCalls 5 5) ∧ ¬Defined (adaptiveCalls 5 5) := by
  have hfails : getAverageStallRate (fun _ => 1) 5 5 = .error .invalidRange := by decide +kernel
  have hnone : ¬∃ average, getAverageStallRate (fun _ => 1) 5 5 = .ok average := by
    simp [hfails]
  exact ⟨hfails, by decide +kernel,
    fun hdefined => hnone (hdefined (5, 5) List.mem_cons_self fun _ => 1),
    fun hdefined => hnone (hdefined (5, 5) List.mem_cons_self fun _ => 1)⟩

end Bwap
