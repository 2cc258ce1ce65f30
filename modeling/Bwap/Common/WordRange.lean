import Mathlib.Algebra.Group.Nat.Defs
import Mathlib.Tactic.SplitIfs

/-!
# Ranges of machine words

A half-open range of a given length from a given word, wrapping at the top of the word.
Membership reads the distance from the start, so that a range never needs a bound on
where it ends.
-/

namespace Common

variable {w : ℕ}

/-- Membership in the half-open range of a length from a start. -/
def InRange (start length a : BitVec w) : Prop := a - start < length

instance (start length a : BitVec w) : Decidable (InRange start length a) :=
  inferInstanceAs (Decidable (_ < _))

/-- A nonempty range contains its start. -/
theorem inRange_start {start length : BitVec w} (hpos : 0 < length.toNat) :
    InRange start length start := by
  rw [InRange, BitVec.sub_self, BitVec.lt_def]
  simpa using hpos

/-- The distance from a later start is the remaining distance, and wraps before it. -/
theorem toNat_sub_add (start offset a : BitVec w) :
    (a - (start + offset)).toNat =
      if offset.toNat ≤ (a - start).toNat then (a - start).toNat - offset.toNat
      else 2 ^ w - offset.toNat + (a - start).toNat := by
  have hdist := (a - start).isLt
  have hoffset := offset.isLt
  rw [← BitVec.sub_sub, BitVec.toNat_sub]
  split_ifs with hle
  · have hwrap : 2 ^ w - offset.toNat + (a - start).toNat =
        (a - start).toNat - offset.toNat + 2 ^ w := by omega
    rw [hwrap, Nat.add_mod_right, Nat.mod_eq_of_lt (by omega)]
  · exact Nat.mod_eq_of_lt (by omega)

/-- A range further on is read off the distance from the first start. -/
theorem inRange_add_iff (start offset length a : BitVec w)
    (hfit : offset.toNat + length.toNat ≤ 2 ^ w) :
    InRange (start + offset) length a ↔
      offset.toNat ≤ (a - start).toNat ∧ (a - start).toNat < offset.toNat + length.toNat := by
  have hdist := (a - start).isLt
  rw [InRange, BitVec.lt_def, toNat_sub_add]
  split_ifs with hle
  · omega
  · omega

/-- Below the top of the word a range is an interval of numbers. -/
theorem inRange_iff_of_fit (start length a : BitVec w)
    (hfit : start.toNat + length.toNat ≤ 2 ^ w) :
    InRange start length a ↔
      start.toNat ≤ a.toNat ∧ a.toNat < start.toNat + length.toNat := by
  have hzero := inRange_add_iff 0 start length a hfit
  simpa using hzero

/-- A number in the range of a 32-bit signed integer is extended to itself. -/
theorem signExtend_ofNat_of_lt {n : ℕ} (hn : n < 2 ^ 31) :
    (BitVec.ofNat 32 n).signExtend 64 = BitVec.ofNat 64 n := by
  have hsign : (BitVec.ofNat 32 n).msb = false := by
    rw [BitVec.msb_eq_false_iff_two_mul_lt, BitVec.toNat_ofNat]
    omega
  rw [BitVec.signExtend_eq_setWidth_of_msb_false hsign]
  apply BitVec.eq_of_toNat_eq
  rw [BitVec.toNat_setWidth, BitVec.toNat_ofNat, BitVec.toNat_ofNat]
  omega

/-- The first number beyond that range is extended to its negative. -/
theorem signExtend_two_pow :
    (BitVec.ofNat 32 (2 ^ 31)).signExtend 64 = -BitVec.ofNat 64 (2 ^ 31) := by
  decide

end Common
