import Bwap.Common.Slices
import Bwap.Common.WordRange
import Bwap.Memory.Mappings

/-!
# The page range of a segment

A segment is handed to the placement functions as the range from its first byte rounded down
to its last byte rounded up. The macro that rounds up is made for the byte after the end of
a range: a last byte that is the first one of its page stays where it is, and its page is
left out.
-/

namespace Bwap

open Common

namespace MemorySegment

/-- The page-aligned range of a segment consists of whole pages, and these are just the pages that
contain a byte of the segment. -/
structure CoversPages (P : PageSize) (s : MemorySegment) : Prop where
  alignedStart : P.bytes ∣ (s.pageAlignedStartAddress P).toNat
  alignedStop : P.bytes ∣ (s.pageAlignedStartAddress P + s.pageAlignedLength P).toNat
  pages : ∀ a, InRange (s.pageAlignedStartAddress P) (s.pageAlignedLength P) a ↔
    a.toNat / P.bytes ∈ s.pages P

variable {P : PageSize} {s : MemorySegment}

/-- The pages of a segment are those from the page of its first byte to that of its last one. -/
theorem mem_pages_iff (hle : s.startAddress.toNat ≤ s.endAddress.toNat) (page : ℕ) :
    page ∈ s.pages P ↔
      s.startAddress.toNat / P.bytes ≤ page ∧ page ≤ s.endAddress.toNat / P.bytes := by
  apply Iff.intro
  · intro h
    obtain ⟨a, ha, rfl⟩ := h
    obtain ⟨hlow, hhigh⟩ := (s.contains_iff a).mp ha
    exact ⟨Nat.div_le_div_right hlow, Nat.div_le_div_right hhigh⟩
  · intro h
    obtain ⟨hlow, hhigh⟩ := h
    -- the first byte of the page, or of the segment where that comes later
    have hfirst : page * P.bytes ≤ s.endAddress.toNat :=
      (Nat.mul_le_mul_right _ hhigh).trans (Nat.div_mul_le_self _ _)
    have hbound := s.endAddress.isLt
    have hword : (BitVec.ofNat 64 (max s.startAddress.toNat (page * P.bytes))).toNat =
        max s.startAddress.toNat (page * P.bytes) := by
      rw [BitVec.toNat_ofNat, Nat.mod_eq_of_lt (by omega)]
    refine ⟨BitVec.ofNat 64 (max s.startAddress.toNat (page * P.bytes)), ?_, ?_⟩
    · rw [contains_iff, hword]
      omega
    · rw [hword]
      cases Nat.le_total s.startAddress.toNat (page * P.bytes) with
      | inl hpage => rw [max_eq_right hpage, Nat.mul_div_cancel _ P.bytes_pos]
      | inr hstart =>
        rw [max_eq_left hstart]
        exact Nat.le_antisymm hlow ((Nat.le_div_iff_mul_le P.bytes_pos).mpr hstart)

/-- The range ends at the last byte rounded up. -/
theorem pageAlignedStop (P : PageSize) (s : MemorySegment) :
    s.pageAlignedStartAddress P + s.pageAlignedLength P = s.pageAlignedEndAddress P := by
  rw [pageAlignedLength, BitVec.add_comm, BitVec.sub_add_cancel]

/-- Below the top page, the range is the interval between the rounded addresses. -/
theorem inRange_pages_iff (hle : s.startAddress.toNat ≤ s.endAddress.toNat)
    (htop : s.endAddress.toNat + P.bytes ≤ 2 ^ 64) (a : Word) :
    InRange (s.pageAlignedStartAddress P) (s.pageAlignedLength P) a ↔
      s.startAddress.toNat / P.bytes * P.bytes ≤ a.toNat ∧
        a.toNat < roundUp P.bytes s.endAddress.toNat := by
  have hdown : (s.pageAlignedStartAddress P).toNat =
      s.startAddress.toNat / P.bytes * P.bytes := P.alignDown_toNat _
  have hup : (s.pageAlignedEndAddress P).toNat = roundUp P.bytes s.endAddress.toNat :=
    P.alignUp_toNat _ htop
  have hbelow : (s.pageAlignedStartAddress P).toNat ≤ s.startAddress.toNat := P.alignDown_le _
  have habove : s.endAddress.toNat ≤ (s.pageAlignedEndAddress P).toNat := P.le_alignUp _ htop
  have hlength := pageAlignedLength_toNat P hle htop
  have hstop := (s.pageAlignedEndAddress P).isLt
  rw [inRange_iff_of_fit _ _ _ (by omega), hlength, ← hdown, ← hup]
  omega

/-- The page range of a segment covers its pages exactly when its last byte is not the first one of
a page. -/
theorem coversPages_iff (P : PageSize) (s : MemorySegment)
    (hle : s.startAddress.toNat ≤ s.endAddress.toNat)
    (htop : s.endAddress.toNat + P.bytes ≤ 2 ^ 64) :
    s.CoversPages P ↔ ¬ P.bytes ∣ s.endAddress.toNat := by
  apply Iff.intro
  · intro h hdvd
    -- the last byte is outside the range, which ends there
    have hlast := (h.pages s.endAddress).mpr
      ⟨s.endAddress, (s.contains_iff _).mpr ⟨hle, le_refl _⟩, rfl⟩
    rw [inRange_pages_iff hle htop, roundUp_of_dvd P.bytes_pos hdvd] at hlast
    omega
  · intro hdvd
    refine ⟨P.dvd_alignDown _, ?_, fun a => ?_⟩
    · rw [pageAlignedStop]
      exact P.dvd_alignUp _
    · rw [inRange_pages_iff hle htop, roundUp_of_not_dvd P.bytes_pos hdvd, mem_pages_iff hle,
        ← Nat.le_div_iff_mul_le P.bytes_pos, ← Nat.div_lt_iff_lt_mul P.bytes_pos, Nat.lt_succ_iff]

/-- The page range of two mebibytes from a page boundary covers its pages. -/
theorem coversPages_two_mebibytes :
    (extent 0x7f0000000000 0x200000 "mmap").CoversPages .fourKiB :=
  (coversPages_iff _ _ (by decide) (by decide)).mpr (by decide)

/-- One byte more starts a page that the range leaves out. -/
theorem coversPages_extra_byte :
    let P := PageSize.fourKiB
    let s := extent 0x7f0000000000 0x200001 "mmap"
    s.contains 0x7f0000200000 = true ∧
      ¬ InRange (s.pageAlignedStartAddress P) (s.pageAlignedLength P) 0x7f0000200000 ∧
      ¬ s.CoversPages P := by
  intro P s
  have hbyte : s.contains 0x7f0000200000 = true := by decide
  have hleft : ¬ InRange (s.pageAlignedStartAddress P) (s.pageAlignedLength P) 0x7f0000200000 := by
    decide
  exact ⟨hbyte, hleft, fun h => hleft ((h.pages _).mpr ⟨_, hbyte, rfl⟩)⟩

end MemorySegment

end Bwap
