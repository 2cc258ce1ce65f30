import Bwap.Common.CoarseSearch
import Bwap.Placement.MovePages
import Mathlib.Algebra.BigOperators.Field
import Mathlib.Algebra.BigOperators.Fin
import Mathlib.Algebra.Order.BigOperators.Group.Finset
import Mathlib.Data.Fintype.Lattice

/-!
# The gradient search for weights

An iteration of the search measures the neighbours of a weight vector, each with one weight
raised and the others lowered, takes a step along the quotients of times and weights, and
repairs the point it reaches: negative weights are lifted by the least one, and the weights are
rescaled to a sum of 100. The least weight is searched for through an `int`, so that a weight
slightly above it may be found instead, and a rescaling may divide by zero.
-/

namespace Bwap

open Common

/-- The weights of the nodes. -/
abbrev Weights (n : ℕ) := Fin (n + 1) → ℚ

/-- Nonnegative weights with a sum of 100. -/
structure IsWeightVector {n : ℕ} (w : Weights n) : Prop where
  nonneg : ∀ i, 0 ≤ w i
  total : ∑ i, w i = 100

namespace WeightSearch

variable {n : ℕ}

/-- `w_step`. -/
def wStep : ℚ := 7

/-- `o_step`. -/
def oStep : ℚ := 1

/-- Rescale to a sum of 100, unless that is the sum; no result on a division by zero. -/
def normalize (w : Weights n) : Option (Weights n) :=
  let sum := ∑ i, w i
  if sum ≠ 100 then
    if sum = 0 then none else some fun i => w i / sum * 100
  else some w

/-- The neighbour in direction `j` before it is rescaled. -/
def raised (w : Weights n) (j i : Fin (n + 1)) : ℚ :=
  if i = j then
    if w i + wStep > 100 then 100 else w i + wStep
  else
    if w i - oStep < 0 then 0 else w i - oStep

/-- `dim_array`, the neighbour in direction `j`. -/
def dimArray (w : Weights n) (j : Fin (n + 1)) : Option (Weights n) := normalize (raised w j)

/-- `dim_deravative[j]`, from the time of the point and that of its neighbour. -/
def dimDerivative (w : Weights n) (t₀ : ℚ) (dimTime : Weights n) (j : Fin (n + 1)) : Option ℚ := do
  let dim ← dimArray w j
  return if w j - dim j = 0 then 1 else (t₀ - dimTime j) / (w j - dim j)

/-- Run a loop over the nodes. -/
def forNodes {α : Type} (f : Fin (n + 1) → Option α) : Option (Fin (n + 1) → α) :=
  if h : ∀ j, (f j).isSome then some fun j => (f j).get (h j) else none

/-- `find_minimum`. -/
def findMinimum (a : Weights n) : Fin (n + 1) :=
  coarseSearch a (fun x => (truncToInt x : ℚ)) (List.finRange (n + 1)).tail 0 (truncToInt (a 0))

/-- Lift the weights by the least one if it is negative. -/
def eliminateNegatives (v : Weights n) : Weights n :=
  let minimum := v (findMinimum v)
  if minimum < 0 then fun i => v i + minimum * -1 else v

/-- The weights after one iteration. -/
def nextWeights (w : Weights n) (t₀ : ℚ) (dimTime : Weights n) : Option (Weights n) := do
  let slope ← forNodes (dimDerivative w t₀ dimTime)
  normalize (eliminateNegatives fun j => w j - wStep * slope j)

/-- An iteration divides by zero nowhere, and every weight vector that it computes is one. -/
def StepValid (w : Weights n) (t₀ : ℚ) (dimTime : Weights n) : Prop :=
  (∀ j, ∃ dim, dimArray w j = some dim ∧ IsWeightVector dim) ∧
    ∃ next, nextWeights w t₀ dimTime = some next ∧ IsWeightVector next

/-! ## Rescaling -/

/-- Unless it divides by zero, rescaling multiplies every weight by 100 over the sum. -/
theorem normalize_eq {w : Weights n} (hsum : ∑ i, w i ≠ 0) :
    normalize w = some fun i => w i / (∑ k, w k) * 100 := by
  unfold normalize
  by_cases hhundred : ∑ i, w i = 100
  · simp [hhundred]
  · simp [hhundred, hsum]

/-- A sum of zero is divided by. -/
theorem normalize_eq_none {w : Weights n} (hsum : ∑ i, w i = 0) : normalize w = none := by
  simp [normalize, hsum]

/-- A rescaled vector has a sum of 100. -/
theorem sum_rescaled {w : Weights n} (hsum : ∑ i, w i ≠ 0) :
    ∑ i, w i / (∑ k, w k) * 100 = 100 := by
  rw [← Finset.sum_mul, ← Finset.sum_div, div_self hsum, one_mul]

/-- The quotients by the sum are nonnegative exactly when no two weights have different signs. -/
theorem div_sum_nonneg_iff {w : Weights n} (hsum : ∑ i, w i ≠ 0) :
    (∀ i, 0 ≤ w i / ∑ k, w k) ↔ (∀ i, 0 ≤ w i) ∨ ∀ i, w i ≤ 0 := by
  cases lt_or_gt_of_ne hsum with
  | inl hneg =>
    have hquotient (i : Fin (n + 1)) : 0 ≤ w i / ∑ k, w k ↔ w i ≤ 0 := by
      rw [le_div_iff_of_neg hneg, zero_mul]
    simp only [hquotient]
    refine ⟨.inr, fun h => h.resolve_left fun hnonneg => ?_⟩
    exact absurd (Finset.sum_nonneg fun i _ => hnonneg i) (not_le.mpr hneg)
  | inr hpos =>
    have hquotient (i : Fin (n + 1)) : 0 ≤ w i / ∑ k, w k ↔ 0 ≤ w i := by
      rw [le_div_iff₀ hpos, zero_mul]
    simp only [hquotient]
    refine ⟨.inl, fun h => h.resolve_right fun hnonpos => ?_⟩
    exact absurd (Finset.sum_nonpos fun i _ => hnonpos i) (not_le.mpr hpos)

/-- Weights of one sign have a sum of zero only if they are all zero. -/
theorem sum_ne_zero {w : Weights n} (hsome : ∃ i, w i ≠ 0)
    (hsign : (∀ i, 0 ≤ w i) ∨ ∀ i, w i ≤ 0) : ∑ i, w i ≠ 0 := by
  obtain ⟨i, hi⟩ := hsome
  intro hsum
  cases hsign with
  | inl hnonneg =>
    exact hi ((Finset.sum_eq_zero_iff_of_nonneg fun k _ => hnonneg k).mp hsum i (Finset.mem_univ i))
  | inr hnonpos =>
    exact hi ((Finset.sum_eq_zero_iff_of_nonpos fun k _ => hnonpos k).mp hsum i (Finset.mem_univ i))

/-- Rescaling gives a weight vector exactly when the weights have one sign and are not all zero. -/
theorem normalize_valid_iff (w : Weights n) :
    (∃ next, normalize w = some next ∧ IsWeightVector next) ↔
      (∃ i, w i ≠ 0) ∧ ((∀ i, 0 ≤ w i) ∨ ∀ i, w i ≤ 0) := by
  constructor
  · rintro ⟨next, hnext, hvalid⟩
    by_cases hsum : ∑ i, w i = 0
    · rw [normalize_eq_none hsum] at hnext
      exact absurd hnext (by simp)
    · rw [normalize_eq hsum] at hnext
      obtain rfl := Option.some.inj hnext
      have hquotient : ∀ i, 0 ≤ w i / ∑ k, w k := fun i =>
        nonneg_of_mul_nonneg_left (hvalid.nonneg i) (by norm_num)
      refine ⟨?_, (div_sum_nonneg_iff hsum).mp hquotient⟩
      by_contra hzero
      exact hsum (Finset.sum_eq_zero fun i _ => not_not.mp (not_exists.mp hzero i))
  · rintro ⟨hsome, hsign⟩
    have hsum := sum_ne_zero hsome hsign
    refine ⟨_, normalize_eq hsum, fun i => ?_, sum_rescaled hsum⟩
    exact mul_nonneg ((div_sum_nonneg_iff hsum).mpr hsign i) (by norm_num)

/-! ## The neighbours -/

/-- A neighbour has no negative weight. -/
theorem raised_nonneg {w : Weights n} (hw : IsWeightVector w) (j i : Fin (n + 1)) :
    0 ≤ raised w j i := by
  have hi := hw.nonneg i
  unfold raised wStep oStep
  split_ifs <;> linarith

/-- The weight in its direction is positive. -/
theorem raised_self_pos {w : Weights n} (hw : IsWeightVector w) (j : Fin (n + 1)) :
    0 < raised w j j := by
  have hj := hw.nonneg j
  unfold raised wStep
  rw [if_pos rfl]
  split_ifs <;> linarith

/-- The sum of a neighbour is not zero. -/
theorem sum_raised_ne_zero {w : Weights n} (hw : IsWeightVector w) (j : Fin (n + 1)) :
    ∑ i, raised w j i ≠ 0 :=
  sum_ne_zero ⟨j, (raised_self_pos hw j).ne'⟩ (.inl (raised_nonneg hw j))

/-- Every neighbour of a weight vector is one. -/
theorem dimArray_valid {w : Weights n} (hw : IsWeightVector w) (j : Fin (n + 1)) :
    ∃ dim, dimArray w j = some dim ∧ IsWeightVector dim :=
  (normalize_valid_iff _).mpr ⟨⟨j, (raised_self_pos hw j).ne'⟩, .inl (raised_nonneg hw j)⟩

/-- The weight of `j` at its neighbour. -/
def neighbourWeight (w : Weights n) (j : Fin (n + 1)) : ℚ :=
  raised w j j / (∑ k, raised w j k) * 100

/-- The quotient of the differences of times and of weights, and 1 where the weights are equal. -/
def slope (w : Weights n) (t₀ : ℚ) (dimTime : Weights n) (j : Fin (n + 1)) : ℚ :=
  if w j - neighbourWeight w j = 0 then 1 else (t₀ - dimTime j) / (w j - neighbourWeight w j)

/-- The point a step leads to. -/
def stepPoint (w : Weights n) (t₀ : ℚ) (dimTime : Weights n) (j : Fin (n + 1)) : ℚ :=
  w j - 7 * slope w t₀ dimTime j

/-- A loop whose passes all succeed. -/
theorem forNodes_some {α : Type} {f : Fin (n + 1) → Option α} {g : Fin (n + 1) → α}
    (h : ∀ j, f j = some (g j)) : forNodes f = some g := by
  have hf : f = fun j => some (g j) := funext h
  subst hf
  simp [forNodes]

/-- The derivatives are the slopes. -/
theorem dimDerivative_eq {w : Weights n} (hw : IsWeightVector w) (t₀ : ℚ) (dimTime : Weights n)
    (j : Fin (n + 1)) : dimDerivative w t₀ dimTime j = some (slope w t₀ dimTime j) := by
  rw [dimDerivative, dimArray, normalize_eq (sum_raised_ne_zero hw j)]
  rfl

/-- An iteration repairs and rescales the point its step leads to. -/
theorem nextWeights_eq {w : Weights n} (hw : IsWeightVector w) (t₀ : ℚ) (dimTime : Weights n) :
    nextWeights w t₀ dimTime = normalize (eliminateNegatives (stepPoint w t₀ dimTime)) := by
  rw [nextWeights, forNodes_some (dimDerivative_eq hw t₀ dimTime)]
  rfl

/-! ## The least weight -/

/-- The weight the others are lifted by: a least one if the least weight is an integer, otherwise
the last one below the integer that follows the least weight. -/
def LiftsBy (v : Weights n) (r : Fin (n + 1)) : Prop :=
  ∃ low, (∀ i, v low ≤ v i) ∧
    (v r = v low ∧ v low = ⌈v low⌉ ∨ v r < ⌈v low⌉ ∧ ∀ i, r < i → (⌈v low⌉ : ℚ) ≤ v i)

/-- The weight the others are lifted by is determined. -/
theorem LiftsBy.value_eq {v : Weights n} {r r' : Fin (n + 1)} (h : LiftsBy v r)
    (h' : LiftsBy v r') : v r = v r' := by
  obtain ⟨low, hlow, hr⟩ := h
  obtain ⟨low', hlow', hr'⟩ := h'
  have hsame : v low' = v low := le_antisymm (hlow' low) (hlow low')
  rw [hsame] at hr'
  have hleast : ∀ i, v low = ⌈v low⌉ → ¬ v i < ⌈v low⌉ := by
    intro i hinteger hi
    exact absurd (hinteger ▸ hi) (not_lt.mpr (hlow i))
  cases hr with
  | inl hr =>
    cases hr' with
    | inl hr' => rw [hr.1, hr'.1]
    | inr hr' => exact absurd hr'.1 (hleast r' hr.2)
  | inr hr =>
    cases hr' with
    | inl hr' => exact absurd hr.1 (hleast r hr'.2)
    | inr hr' =>
      -- each of the two is the last one
      have hle : r ≤ r' := not_lt.mp fun hlt => absurd hr.1 (not_lt.mpr (hr'.2 r hlt))
      have hge : r' ≤ r := not_lt.mp fun hlt => absurd hr'.1 (not_lt.mpr (hr.2 r' hlt))
      rw [le_antisymm hle hge]

/-- A negative number is truncated upwards. -/
theorem truncToInt_of_neg {x : ℚ} (hx : x < 0) : truncToInt x = ⌈x⌉ := if_neg (not_le.mpr hx)

/-- Truncation does not fall below an integer. -/
theorem le_truncToInt {x : ℚ} {k : ℤ} (hx : (k : ℚ) ≤ x) : k ≤ truncToInt x := by
  unfold truncToInt
  split_ifs with hnonneg
  · exact Int.le_floor.mpr hx
  · exact_mod_cast hx.trans (Int.le_ceil x)

/-- `find_minimum` visits the nodes in order. -/
theorem findMinimum_eq (v : Weights n) :
    List.finRange (n + 1) = 0 :: (List.finRange (n + 1)).tail ∧
      findMinimum v = coarseSearch v (fun x => (truncToInt x : ℚ)) (List.finRange (n + 1)).tail 0
        (truncToInt (v 0)) := by
  rw [List.finRange_succ]
  exact ⟨rfl, by rw [findMinimum, List.finRange_succ]⟩

/-- An integer least weight that is negative is found. -/
theorem findMinimum_of_integer {v : Weights n} {low : Fin (n + 1)} (hlow : ∀ i, v low ≤ v i)
    (hneg : v low < 0) (hinteger : v low = ⌈v low⌉) : v (findMinimum v) = v low := by
  obtain ⟨hnodes, hfind⟩ := findMinimum_eq v
  have hsought : Sought v (fun x => (truncToInt x : ℚ)) (fun x => x ≤ v low)
      (0 :: (List.finRange (n + 1)).tail) := by
    refine ⟨fun c _ d _ hc hd => ?_, fun c _ d _ hd hnot => ?_⟩
    · have hleast : v c = v low := le_antisymm hc (hlow c)
      rw [hleast, truncToInt_of_neg hneg, ← hinteger] at hd
      exact hd.le
    · have htrunc : (truncToInt (v c) : ℚ) ≤ ⌈v low⌉ :=
        (not_lt.mp hnot).trans (hd.trans hinteger.le)
      have hnegative : v c < 0 := by
        by_contra hnonneg
        have hfloor : 0 ≤ truncToInt (v c) := le_truncToInt (by simpa using hnonneg)
        have hbelow : ((0 : ℤ) : ℚ) ≤ ⌈v low⌉ := (Int.cast_le.mpr hfloor).trans htrunc
        rw [← hinteger] at hbelow
        exact absurd hneg (not_lt.mpr (by simpa using hbelow))
      rw [truncToInt_of_neg hnegative, ← hinteger] at htrunc
      exact (Int.le_ceil _).trans htrunc
  have hfound := coarseSearch_sought hsought ⟨low, hnodes ▸ List.mem_finRange low, le_rfl⟩
  rw [← hfind] at hfound
  exact le_antisymm hfound (hlow _)

/-- Above a negative weight, what is below the next integer is truncated to that integer. -/
theorem truncToInt_of_lt_ceil {x y : ℚ} (hneg : y < 0) (hle : y ≤ x) (hx : x < ⌈y⌉) :
    truncToInt x = ⌈y⌉ := by
  have hceil : (⌈y⌉ : ℚ) ≤ 0 := by
    exact_mod_cast Int.ceil_le.mpr (by exact_mod_cast hneg.le)
  rw [truncToInt_of_neg (hx.trans_le hceil)]
  exact le_antisymm (Int.ceil_le.mpr hx.le) (Int.ceil_mono hle)

/-- In the list of the nodes, a later node comes after an earlier one. -/
theorem mem_after_of_lt {before after : List (Fin (n + 1))} {c i : Fin (n + 1)}
    (hsplit : List.finRange (n + 1) = before ++ c :: after) (hi : c < i) : i ∈ after := by
  have hmem : i ∈ before ++ c :: after := hsplit ▸ List.mem_finRange i
  have hsorted : (before ++ c :: after).Pairwise (· < ·) :=
    hsplit ▸ List.pairwise_lt_finRange (n + 1)
  cases List.mem_append.mp hmem with
  | inl hbefore =>
    have hearlier := (List.pairwise_append.mp hsorted).2.2 i hbefore c List.mem_cons_self
    exact absurd hi (not_lt.mpr hearlier.le)
  | inr hrest =>
    cases List.mem_cons.mp hrest with
    | inl hself => exact absurd hi (hself ▸ lt_irrefl _)
    | inr hafter => exact hafter

/-- Of the weights below the integer that follows a least weight the last one is found. -/
theorem findMinimum_of_not_integer {v : Weights n} {low : Fin (n + 1)} (hlow : ∀ i, v low ≤ v i)
    (hneg : v low < 0) (hinteger : v low ≠ ⌈v low⌉) :
    v (findMinimum v) < ⌈v low⌉ ∧ ∀ i, findMinimum v < i → (⌈v low⌉ : ℚ) ≤ v i := by
  obtain ⟨hnodes, hfind⟩ := findMinimum_eq v
  have hbelow : v low < ⌈v low⌉ := lt_of_le_of_ne (Int.le_ceil _) hinteger
  have htrunc : ∀ c, v c < ⌈v low⌉ → truncToInt (v c) = ⌈v low⌉ := fun c hc =>
    truncToInt_of_lt_ceil hneg (hlow c) hc
  have hsought : Sought v (fun x => (truncToInt x : ℚ)) (fun x => x < ⌈v low⌉)
      (0 :: (List.finRange (n + 1)).tail) := by
    refine ⟨fun c _ d _ hc hd => ?_, fun c _ d _ hd hnot => ?_⟩
    · rwa [htrunc c hc] at hd
    · by_contra habove
      have hle := le_truncToInt (not_lt.mp habove)
      exact hnot (hd.trans_le (Int.cast_le.mpr hle))
  have hsome : ∃ c ∈ 0 :: (List.finRange (n + 1)).tail, v c < ⌈v low⌉ :=
    ⟨low, hnodes ▸ List.mem_finRange low, hbelow⟩
  have hmove : ∀ c ∈ 0 :: (List.finRange (n + 1)).tail,
      ∀ d ∈ 0 :: (List.finRange (n + 1)).tail, v c < ⌈v low⌉ → v d < ⌈v low⌉ →
        v d < (truncToInt (v c) : ℚ) := by
    intro c _ d _ hc hd
    rwa [htrunc c hc]
  have hfound := coarseSearch_sought hsought hsome
  obtain ⟨before, after, hsplit, hlast⟩ := coarseSearch_last hsought hmove hsome
  rw [← hfind] at hfound
  rw [← hfind, ← hnodes] at hsplit
  exact ⟨hfound, fun i hi => not_lt.mp (hlast i (mem_after_of_lt hsplit hi))⟩

/-- With a negative weight, `find_minimum` finds a weight the others are lifted by, and it is
negative. -/
theorem findMinimum_liftsBy {v : Weights n} (hneg : ∃ i, v i < 0) :
    LiftsBy v (findMinimum v) ∧ v (findMinimum v) < 0 := by
  obtain ⟨low, hlow⟩ := Finite.exists_min v
  obtain ⟨i, hi⟩ := hneg
  have hlowneg : v low < 0 := (hlow i).trans_lt hi
  by_cases hinteger : v low = ⌈v low⌉
  · have hfound := findMinimum_of_integer hlow hlowneg hinteger
    exact ⟨⟨low, hlow, .inl ⟨hfound, hinteger⟩⟩, hfound ▸ hlowneg⟩
  · have hfound := findMinimum_of_not_integer hlow hlowneg hinteger
    have hceil : (⌈v low⌉ : ℚ) ≤ 0 := by
      exact_mod_cast Int.ceil_le.mpr (by simpa using hlowneg.le)
    exact ⟨⟨low, hlow, .inr hfound⟩, hfound.1.trans_le hceil⟩

/-! ## An iteration -/

/-- The repair makes a weight vector of a point: no weight is negative and they are not all zero, or
they are not all equal and the others are lifted by a least weight or by a greatest one. -/
def SurvivesRepair (v : Weights n) : Prop :=
  ((∀ i, 0 ≤ v i) ∧ ∃ i, v i ≠ 0) ∨
    (∃ i j, v i ≠ v j) ∧ ∃ r, LiftsBy v r ∧ ((∀ i, v r ≤ v i) ∨ ∀ i, v i ≤ v r)

/-- Without a negative weight nothing is lifted. -/
theorem eliminateNegatives_of_nonneg {v : Weights n} (hnonneg : ∀ i, 0 ≤ v i) :
    eliminateNegatives v = v := if_neg (not_lt.mpr (hnonneg _))

/-- Lifted weights can be rescaled to a weight vector exactly when they are not all equal to the one
they are lifted by, and that is a least or a greatest one. -/
theorem normalize_lifted_valid_iff {v : Weights n} (hneg : v (findMinimum v) < 0) :
    (∃ next, normalize (eliminateNegatives v) = some next ∧ IsWeightVector next) ↔
      (∃ i, v i ≠ v (findMinimum v)) ∧
        ((∀ i, v (findMinimum v) ≤ v i) ∨ ∀ i, v i ≤ v (findMinimum v)) := by
  have hlifted : eliminateNegatives v = fun i => v i - v (findMinimum v) := by
    funext i
    rw [eliminateNegatives, if_pos hneg]
    ring
  simp only [hlifted, normalize_valid_iff, sub_ne_zero, sub_nonneg, sub_nonpos]

/-- Weights that differ do not all have one value. -/
theorem exists_ne_of_ne {v : Weights n} {i j : Fin (n + 1)} (hij : v i ≠ v j) (x : ℚ) :
    ∃ k, v k ≠ x := by
  by_cases hi : v i = x
  · exact ⟨j, fun hj => hij (hi.trans hj.symm)⟩
  · exact ⟨i, hi⟩

/-- The repair of a point gives a weight vector exactly when it survives it. -/
theorem repair_valid_iff (v : Weights n) :
    (∃ next, normalize (eliminateNegatives v) = some next ∧ IsWeightVector next) ↔
      SurvivesRepair v := by
  by_cases hneg : ∃ i, v i < 0
  · obtain ⟨hlifts, hfound⟩ := findMinimum_liftsBy hneg
    rw [normalize_lifted_valid_iff hfound]
    constructor
    · rintro ⟨⟨i, hi⟩, hends⟩
      exact .inr ⟨⟨i, _, hi⟩, _, hlifts, hends⟩
    · rintro (⟨hnonneg, -⟩ | ⟨⟨i, j, hij⟩, r, hr, hends⟩)
      · obtain ⟨i, hi⟩ := hneg
        exact absurd (hnonneg i) (not_le.mpr hi)
      · rw [hr.value_eq hlifts] at hends
        exact ⟨exists_ne_of_ne hij _, hends⟩
  · have hnonneg : ∀ i, 0 ≤ v i := fun i => not_lt.mp (not_exists.mp hneg i)
    rw [eliminateNegatives_of_nonneg hnonneg, normalize_valid_iff]
    constructor
    · rintro ⟨hsome, -⟩
      exact .inl ⟨hnonneg, hsome⟩
    · rintro (⟨-, hsome⟩ | ⟨⟨i, j, hij⟩, -⟩)
      · exact ⟨hsome, .inl hnonneg⟩
      · exact ⟨exists_ne_of_ne hij 0, .inl hnonneg⟩

/-- From every weight vector and all times, an iteration computes weight vectors and divides by zero
nowhere, if and only if the point its step leads to survives the repair. -/
theorem stepValid_iff {w : Weights n} (hw : IsWeightVector w) (t₀ : ℚ) (dimTime : Weights n) :
    StepValid w t₀ dimTime ↔ SurvivesRepair (stepPoint w t₀ dimTime) := by
  rw [StepValid, nextWeights_eq hw, repair_valid_iff]
  exact and_iff_right (dimArray_valid hw)

/-- The weights that the search starts from, on two nodes. -/
theorem isWeightVector_fifty : IsWeightVector (![50, 50] : Weights 1) where
  nonneg := by decide +kernel
  total := by decide +kernel

/-- A first neighbour that is slower by thirty seconds makes the first weight of the point negative.
The repair lifts the other one by it. -/
theorem survivesRepair_slower :
    SurvivesRepair (stepPoint (![50, 50] : Weights 1) 100 ![130, 100]) := by
  have hlifts : LiftsBy (stepPoint (![50, 50] : Weights 1) 100 ![130, 100]) 0 :=
    ⟨0, by decide +kernel, .inr (by decide +kernel)⟩
  exact .inr ⟨⟨0, 1, by decide +kernel⟩, 0, hlifts, .inl (by decide +kernel)⟩

/-- So the step keeps a weight vector. -/
theorem stepValid_slower : StepValid (![50, 50] : Weights 1) 100 ![130, 100] :=
  (stepValid_iff isWeightVector_fifty 100 ![130, 100]).mpr survivesRepair_slower

/-- Two neighbours that are slower by thirty seconds each: both weights of the point are lifted to
zero, and their sum is divided by. On three nodes, two neighbours slower by about nine seconds: a
weight stays negative. -/
theorem stepValid_fails :
    ¬ StepValid (![50, 50] : Weights 1) 100 ![130, 130] ∧
      IsWeightVector (![10, 10, 80] : Weights 2) ∧
      ¬ StepValid (![10, 10, 80] : Weights 2) 100 ![328 / 3, 109, 100] := by
  refine ⟨fun h => ?_, ⟨by decide +kernel, by decide +kernel⟩, fun h => ?_⟩
  · obtain ⟨-, next, hnext, -⟩ := h
    have hnone : nextWeights (![50, 50] : Weights 1) 100 ![130, 130] = none := by decide +kernel
    exact absurd (hnone.symm.trans hnext) (by simp)
  · obtain ⟨-, next, hnext, hvalid⟩ := h
    have hneg : (nextWeights (![10, 10, 80] : Weights 2) 100 ![328 / 3, 109, 100]).any
        fun next => next 0 < 0 := by decide +kernel
    rw [hnext] at hneg
    exact absurd (hvalid.nonneg 0) (not_le.mpr (by simpa using hneg))

end WeightSearch

end Bwap
