import Mathlib.Algebra.Group.Defs
import Mathlib.Algebra.BigOperators.Group.List.Basic
import Mathlib.Algebra.Field.Basic
import Mathlib.Data.List.Iterate
import Mathlib.Tactic.Abel
import Mathlib.Tactic.FieldSimp

/-!
# Differences of consecutive readings

A meter that is read again and again shows what was added since it was last read. The differences
add up to what was added in all, and so do rates weighted by the time they are about. A clock of
fixed width shows the time between two readings as long as that fits into it.
-/

namespace Common

section Differences

variable {G : Type*} [AddCommGroup G]

/-- The differences between consecutive readings, from one before the first. -/
def differences : G → List G → List G
  | _, [] => []
  | before, reading :: later => (reading - before) :: differences reading later

/-- The last reading. -/
def lastReading : G → List G → G
  | before, [] => before
  | _, reading :: later => lastReading reading later

/-- There is one difference for each reading. -/
@[simp] theorem length_differences (before : G) (readings : List G) :
    (differences before readings).length = readings.length := by
  induction readings generalizing before with
  | nil => rfl
  | cons reading later ih => simp [differences, ih]

/-- The differences add up to what was added in all. -/
theorem sum_differences (before : G) (readings : List G) :
    (differences before readings).sum = lastReading before readings - before := by
  induction readings generalizing before with
  | nil => simp [differences, lastReading]
  | cons reading later ih =>
    rw [differences, lastReading, List.sum_cons, ih]
    abel

end Differences

/-- Rates that belong to no time of length zero, weighted by their times, add up to what was
added. -/
theorem sum_weighted_rates {K : Type*} [Field K] {amounts times : List K}
    (hlength : amounts.length = times.length) (htimes : ∀ time ∈ times, time ≠ 0) :
    (List.zipWith (· * ·) (List.zipWith (· / ·) amounts times) times).sum = amounts.sum := by
  induction amounts generalizing times with
  | nil => simp
  | cons amount amounts ih =>
    cases times with
    | nil => simp at hlength
    | cons time times =>
      rw [List.forall_mem_cons] at htimes
      rw [List.zipWith_cons_cons, List.zipWith_cons_cons, List.sum_cons, List.sum_cons,
        ih (Nat.succ.inj hlength) htimes.2, div_mul_cancel₀ _ htimes.1]

/-- Rates over times of one length. -/
theorem zipWith_div_even {K : Type*} [Field K] (amounts : List K) (start ticks : ℕ) :
    List.zipWith (· / ·) amounts (differences (start : K)
        ((List.iterate (· + ticks) (start + ticks) amounts.length).map Nat.cast)) =
      amounts.map (· / (ticks : K)) := by
  induction amounts generalizing start with
  | nil => rfl
  | cons amount amounts ih =>
    rw [List.length_cons, List.iterate, List.map_cons, differences, List.zipWith_cons_cons, ih,
      List.map_cons, Nat.cast_add, add_sub_cancel_left]

/-- Rates over times of one length add up to the rate of the sum. -/
theorem sum_map_div {K : Type*} [Field K] (amounts : List K) (time : K) :
    (amounts.map (· / time)).sum = amounts.sum / time := by
  induction amounts with
  | nil => simp
  | cons amount amounts ih => rw [List.map_cons, List.sum_cons, ih, List.sum_cons, add_div]

/-- A relation that holds between each time and the next one holds along evenly spaced times. -/
theorem isChain_iterate {r : ℕ → ℕ → Prop} {ticks : ℕ} (hr : ∀ time, r time (time + ticks))
    (start n : ℕ) : (start :: List.iterate (· + ticks) (start + ticks) n).IsChain r := by
  induction n generalizing start with
  | zero => exact .singleton start
  | succ n ih => exact List.isChain_cons_cons.mpr ⟨hr start, ih (start + ticks)⟩

/-- The time between two readings of a clock that it has room for. -/
theorem toNat_clock_sub {w t t' : ℕ} (hle : t ≤ t') (hroom : t' - t < 2 ^ w) :
    (BitVec.ofNat w t' - BitVec.ofNat w t).toNat = t' - t := by
  have hsum : BitVec.ofNat w t' = BitVec.ofNat w t + BitVec.ofNat w (t' - t) := by
    rw [← BitVec.ofNat_add, Nat.add_sub_cancel' hle]
  rw [hsum, BitVec.add_comm, BitVec.add_sub_cancel, BitVec.toNat_ofNat, Nat.mod_eq_of_lt hroom]

end Common
