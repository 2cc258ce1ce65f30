import Mathlib.Data.Nat.Bitwise
import Mathlib.Tactic.Ring
import Mathlib.Data.BitVec

/-!
# Pages and page rounding

`PAGE_SIZE` and `PAGE_MASK` are `int` constants; the alignment macros combine the mask,
sign extended, with 64-bit operands. On the numbers below the top page they round to
multiples of the page size.
-/

namespace Bwap

/-- A 64-bit machine word: `size_t`, `unsigned long`, `void *`. -/
abbrev Word := BitVec 64

/-- `PAGE_SIZE`: a power of two that the `int` holding it can represent. -/
structure PageSize where
  shift : ℕ
  shift_lt : shift < 31

namespace PageSize

variable (P : PageSize)

/-- The number of bytes of a page. -/
def bytes : ℕ := 2 ^ P.shift

/-- `PAGE_MASK`, sign extended to the 64 bits of the operand it is combined with. -/
def mask : Word := (~~~(BitVec.ofNat 32 P.bytes - 1)).signExtend 64

/-- `PAGE_ALIGN_DOWN`. -/
def alignDown (x : Word) : Word := x &&& P.mask

/-- `PAGE_ALIGN_UP`. -/
def alignUp (x : Word) : Word := (x + ~~~P.mask) &&& P.mask

/-- A page has at least one byte. -/
theorem bytes_pos : 0 < P.bytes := Nat.two_pow_pos _

/-- The page size divides the size of the address space. -/
theorem bytes_dvd : P.bytes ∣ 2 ^ 64 := by
  have hshift := P.shift_lt
  exact Nat.pow_dvd_pow 2 (by omega)

/-- A page is smaller than the range of `int`. -/
theorem bytes_lt : P.bytes < 2 ^ 31 := Nat.pow_lt_pow_right (by decide) P.shift_lt

/-- The `int` one below the page size. -/
theorem bytes_sub_one_toNat : (BitVec.ofNat 32 P.bytes - 1).toNat = P.bytes - 1 := by
  have hpos := P.bytes_pos
  have hlt := P.bytes_lt
  have hbytes : (BitVec.ofNat 32 P.bytes).toNat = P.bytes := by
    rw [BitVec.toNat_ofNat, Nat.mod_eq_of_lt (by omega)]
  have hone : (1 : BitVec 32).toNat = 1 := rfl
  rw [BitVec.toNat_sub, hbytes, hone]
  omega

/-- The `int` one below the page size has exactly the bits below the page shift. -/
theorem bytes_sub_one_getLsbD (i : ℕ) :
    (BitVec.ofNat 32 P.bytes - 1).getLsbD i = decide (i < P.shift) := by
  rw [← BitVec.testBit_toNat, P.bytes_sub_one_toNat, bytes, Nat.testBit_two_pow_sub_one]

/-- The extended mask clears exactly the bits below the page shift. -/
theorem mask_eq_shiftLeft : P.mask = BitVec.allOnes 64 <<< P.shift := by
  have hshift := P.shift_lt
  apply BitVec.eq_of_getLsbD_eq
  intro i hi
  rw [mask, BitVec.getLsbD_signExtend, BitVec.msb_eq_getLsbD_last]
  simp only [BitVec.getLsbD_not, P.bytes_sub_one_getLsbD, BitVec.getLsbD_shiftLeft,
    BitVec.getLsbD_allOnes]
  by_cases h32 : i < 32
  · by_cases hlow : i < P.shift <;> simp [h32, hlow, hi]
    omega
  · have hhigh : ¬ i < P.shift := by omega
    have hlast : ¬ 31 < P.shift := by omega
    have hin : i - P.shift < 64 := by omega
    simp [h32, hhigh, hi, hlast, hin]

/-- Masking rounds down to a multiple of the page size. -/
theorem alignDown_toNat (x : Word) : (P.alignDown x).toNat = x.toNat / P.bytes * P.bytes := by
  have hshift : P.alignDown x = (x >>> P.shift) <<< P.shift := by
    rw [alignDown, mask_eq_shiftLeft]
    apply BitVec.eq_of_getLsbD_eq
    intro i hi
    simp only [BitVec.getLsbD_and, BitVec.getLsbD_shiftLeft, BitVec.getLsbD_allOnes,
      BitVec.getLsbD_ushiftRight]
    by_cases hlow : i < P.shift
    · simp [hlow]
    · have hback : P.shift + (i - P.shift) = i := by omega
      have hin : i - P.shift < 64 := by omega
      simp [hlow, hi, hback, hin]
  have hle : x.toNat / P.bytes * P.bytes ≤ x.toNat := Nat.div_mul_le_self _ _
  rw [hshift, BitVec.toNat_shiftLeft, BitVec.toNat_ushiftRight, Nat.shiftRight_eq_div_pow,
    Nat.shiftLeft_eq, ← bytes, Nat.mod_eq_of_lt (lt_of_le_of_lt hle x.isLt)]

/-- Masking leaves a multiple of the page size. -/
theorem dvd_alignDown (x : Word) : P.bytes ∣ (P.alignDown x).toNat := by
  rw [alignDown_toNat]
  exact Nat.dvd_mul_left _ _

/-- Rounding up leaves one too. -/
theorem dvd_alignUp (x : Word) : P.bytes ∣ (P.alignUp x).toNat := P.dvd_alignDown _

/-- Rounding down does not increase an address. -/
theorem alignDown_le (x : Word) : (P.alignDown x).toNat ≤ x.toNat := by
  rw [alignDown_toNat]
  exact Nat.div_mul_le_self _ _

/-- The complement of the mask is one less than a page. -/
theorem not_mask_toNat : (~~~P.mask).toNat = P.bytes - 1 := by
  have hbits : ~~~P.mask = (BitVec.ofNat 32 P.bytes - 1).setWidth 64 := by
    have hshift := P.shift_lt
    apply BitVec.eq_of_getLsbD_eq
    intro i hi
    rw [mask_eq_shiftLeft]
    simp only [BitVec.getLsbD_not, BitVec.getLsbD_shiftLeft, BitVec.getLsbD_allOnes,
      BitVec.getLsbD_setWidth, P.bytes_sub_one_getLsbD]
    by_cases hlow : i < P.shift
    · simp [hlow, hi]
    · have hin : i - P.shift < 64 := by omega
      simp [hlow, hi, hin]
  rw [hbits, BitVec.toNat_setWidth, P.bytes_sub_one_toNat]
  have hbytes := P.bytes_lt
  exact Nat.mod_eq_of_lt (by omega)

/-- Rounding up to a page goes to the next multiple, below the top page. -/
theorem alignUp_toNat (x : Word) (hx : x.toNat + P.bytes ≤ 2 ^ 64) :
    (P.alignUp x).toNat = (x.toNat + (P.bytes - 1)) / P.bytes * P.bytes := by
  have hsum : (x + ~~~P.mask).toNat = x.toNat + (P.bytes - 1) := by
    have hbytes := P.bytes_pos
    rw [BitVec.toNat_add, not_mask_toNat, Nat.mod_eq_of_lt (by omega)]
  rw [← hsum]
  exact P.alignDown_toNat _

/-- Rounding up does not decrease an address, below the top page. -/
theorem le_alignUp (x : Word) (hx : x.toNat + P.bytes ≤ 2 ^ 64) :
    x.toNat ≤ (P.alignUp x).toNat := by
  have hround : x.toNat + (P.bytes - 1) < (P.alignUp x).toNat + P.bytes := by
    rw [P.alignUp_toNat x hx]
    exact Nat.lt_div_mul_add P.bytes_pos
  have hpos := P.bytes_pos
  omega

/-- Rounding up adds less than a page, also where it wraps around. -/
theorem alignUp_le (x : Word) : (P.alignUp x).toNat ≤ x.toNat + (P.bytes - 1) := by
  have hround : (P.alignUp x).toNat ≤ (x + ~~~P.mask).toNat := P.alignDown_le _
  rw [BitVec.toNat_add, not_mask_toNat] at hround
  exact hround.trans (Nat.mod_le _ _)

/-- A segment of whole pages ends below the top page. -/
theorem add_bytes_le {P : PageSize} {size : Word} (hsize : P.bytes ∣ size.toNat) :
    size.toNat + P.bytes ≤ 2 ^ 64 := by
  have hlt := size.isLt
  obtain ⟨q, hq⟩ := hsize
  obtain ⟨r, hr⟩ := P.bytes_dvd
  have hqr : q < r := by
    rw [hq, hr] at hlt
    exact Nat.lt_of_mul_lt_mul_left hlt
  rw [hq, hr, ← Nat.mul_succ]
  exact Nat.mul_le_mul_left _ hqr

/-- Pages of four kibibytes. -/
def fourKiB : PageSize := ⟨12, by decide⟩

end PageSize

end Bwap
