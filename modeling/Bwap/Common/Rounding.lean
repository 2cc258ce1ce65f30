import Mathlib.Algebra.Order.Floor.Ring
import Mathlib.Tactic.Linarith
import Mathlib.Tactic.Ring
import Mathlib.Tactic.SplitIfs

/-!
# Rounding to the nearest integer

Halves are rounded away from zero. Rounding is monotone and moves a number by at most one
half; a number and its complement are rounded to complements, unless both are halves.
-/

namespace Common

variable {K : Type*} [Field K] [LinearOrder K] [IsStrictOrderedRing K] [FloorRing K]

/-- The nearest integer; a half goes away from zero. -/
def roundAway (x : K) : ℤ := if 0 ≤ x then ⌊x + 1 / 2⌋ else ⌈x - 1 / 2⌉

omit [IsStrictOrderedRing K] in
/-- A nonnegative number is rounded by a floor. -/
theorem roundAway_of_nonneg {x : K} (hx : 0 ≤ x) : roundAway x = ⌊x + 1 / 2⌋ := if_pos hx

/-- Rounding moves a number by at most one half. -/
theorem abs_roundAway_sub_le (x : K) : |(roundAway x : K) - x| ≤ 1 / 2 := by
  rw [abs_le]
  unfold roundAway
  split_ifs with hx
  · have hlow := Int.sub_one_lt_floor (x + 1 / 2)
    have hhigh := Int.floor_le (x + 1 / 2)
    constructor <;> linarith
  · have hlow := Int.le_ceil (x - 1 / 2)
    have hhigh := Int.ceil_lt_add_one (x - 1 / 2)
    constructor <;> linarith

/-- A nonnegative number is not rounded below zero. -/
theorem roundAway_nonneg {x : K} (hx : 0 ≤ x) : 0 ≤ roundAway x := by
  rw [roundAway_of_nonneg hx]
  exact Int.floor_nonneg.mpr (by linarith)

/-- A number within less than one half of an integer is rounded to it. -/
theorem roundAway_eq {x : K} {n : ℤ} (h : |x - n| < 1 / 2) : roundAway x = n := by
  obtain ⟨hlow, hhigh⟩ := abs_lt.mp h
  unfold roundAway
  split_ifs with hx
  · rw [Int.floor_eq_iff]
    constructor <;> linarith
  · rw [Int.ceil_eq_iff]
    constructor <;> linarith

/-- An integer is rounded to itself. -/
@[simp] theorem roundAway_intCast (n : ℤ) : roundAway (n : K) = n := by
  apply roundAway_eq
  simp

/-- Rounding is monotone. -/
theorem roundAway_mono {x y : K} (hxy : x ≤ y) : roundAway x ≤ roundAway y := by
  unfold roundAway
  split_ifs with hx hy hy
  · exact Int.floor_mono (by linarith)
  · exact absurd (hx.trans hxy) hy
  · -- a negative number is rounded to at most zero, a nonnegative one to at least zero
    have hneg : ⌈x - 1 / 2⌉ ≤ 0 := Int.ceil_le.mpr (by push_cast; linarith)
    have hpos : 0 ≤ ⌊y + 1 / 2⌋ := Int.floor_nonneg.mpr (by linarith)
    omega
  · exact Int.ceil_mono (by linarith)

/-- A number is rounded to zero exactly when it is within less than one half of it. -/
theorem roundAway_eq_zero_iff (x : K) : roundAway x = 0 ↔ |x| < 1 / 2 := by
  apply Iff.intro
  · intro h
    unfold roundAway at h
    split_ifs at h with hx
    · have hbelow := Int.lt_floor_add_one (x + 1 / 2)
      rw [h] at hbelow
      rw [abs_of_nonneg hx]
      push_cast at hbelow
      linarith
    · have habove := Int.ceil_lt_add_one (x - 1 / 2)
      have hlow : ((0 : ℤ) : K) - 1 < x - 1 / 2 := by
        rw [← h]
        linarith
      rw [abs_of_neg (not_le.mp hx)]
      push_cast at hlow
      linarith
  · intro h
    apply roundAway_eq
    simpa using h

/-- Two numbers that add up to an integer are rounded to numbers that add up to it, or to one more
where both are halves. -/
theorem roundAway_complement {x : K} {n : ℤ} (hx : 0 ≤ x) (hn : x ≤ n) :
    roundAway x + roundAway ((n : K) - x) = if Int.fract x = 1 / 2 then n + 1 else n := by
  rw [roundAway_of_nonneg hx, roundAway_of_nonneg (sub_nonneg.mpr hn)]
  have hsplit := Int.floor_add_fract x
  have hnonneg := Int.fract_nonneg x
  have hless := Int.fract_lt_one x
  have hcomplement : ⌊(n : K) - x + 1 / 2⌋ = n - ⌊x⌋ + ⌊1 / 2 - Int.fract x⌋ := by
    rw [← Int.floor_intCast_add]
    congr 1
    push_cast
    linarith
  have hround : ⌊x + 1 / 2⌋ = ⌊x⌋ + ⌊Int.fract x + 1 / 2⌋ := by
    rw [← Int.floor_intCast_add]
    congr 1
    linarith
  rw [hcomplement, hround]
  split_ifs with hhalf
  · have hone : ⌊Int.fract x + 1 / 2⌋ = 1 := by
      rw [hhalf, Int.floor_eq_iff]
      norm_num
    have hzero : ⌊1 / 2 - Int.fract x⌋ = 0 := by
      rw [hhalf, sub_self, Int.floor_zero]
    omega
  · rcases lt_or_gt_of_ne hhalf with hlow | hhigh
    · have hdown : ⌊Int.fract x + 1 / 2⌋ = 0 := by
        rw [Int.floor_eq_iff]
        constructor <;> push_cast <;> linarith
      have hup : ⌊1 / 2 - Int.fract x⌋ = 0 := by
        rw [Int.floor_eq_iff]
        constructor <;> push_cast <;> linarith
      omega
    · have hup : ⌊Int.fract x + 1 / 2⌋ = 1 := by
        rw [Int.floor_eq_iff]
        constructor <;> push_cast <;> linarith
      have hdown : ⌊1 / 2 - Int.fract x⌋ = -1 := by
        rw [Int.floor_eq_iff]
        constructor <;> push_cast <;> linarith
      omega

omit [FloorRing K] in
/-- Sums whose terms are close are close. -/
theorem abs_sum_sub_le {ι : Type*} {l : List ι} {f g : ι → K} {c : K}
    (h : ∀ x ∈ l, |f x - g x| ≤ c) : |(l.map f).sum - (l.map g).sum| ≤ l.length * c := by
  induction l with
  | nil => simp
  | cons first rest ih =>
    have hrest := ih fun x hx => h x (List.mem_cons_of_mem _ hx)
    have hfirst := h first List.mem_cons_self
    have hsplit : ((first :: rest).map f).sum - ((first :: rest).map g).sum =
        (f first - g first) + ((rest.map f).sum - (rest.map g).sum) := by
      simp only [List.map_cons, List.sum_cons]
      ring
    rw [hsplit, List.length_cons, Nat.cast_succ, add_mul, one_mul, add_comm _ c]
    exact (abs_add_le _ _).trans (add_le_add hfirst hrest)

end Common
