import Bwap.Memory.MemoryMap
import Bwap.Placement.WeightedShares

/-!
# The weighted adaptive mode

The mode places a segment when it is announced: a segment of more than a mebibyte is rounded
out to whole pages and interleaved by weight. The kernel is a parameter; a policy call it
refuses stops the process.
-/

namespace Bwap

open Common

variable (P : PageSize) (mbind : MbindCall → Bool) (nodesInfo : List Record)

/-- `place_pages_weighted_initial` on a segment. -/
def placeSegmentWeightedInitial (segment : MemorySegment) : Placement :=
  if segment.length > (1 : Word) <<< 20 then
    placePagesWeightedInitial P mbind nodesInfo (segment.pageAlignedStartAddress P)
      (segment.pageAlignedLength P)
  else ⟨[], false⟩

/-- `WeightedAdaptiveMode`. -/
def weightedAdaptiveMode : Mode where
  processSegmentAddition := fun segment =>
    if segment.length > (1 : Word) <<< 14 then
      if (placeSegmentWeightedInitial P mbind nodesInfo segment).aborted then
        some "mbind interleave failed"
      else none
    else none

section Extent

variable {P mbind} {table : WeightTable} {start size : Word} (name : String)

/-- The length of an extent is its size. -/
theorem extent_length (start size : Word) : (extent start size name).length = size := by
  simp only [MemorySegment.length, extent]
  ring

/-- Rounding an extent out to whole pages covers whole pages, and at least one of them when the
extent has more than one byte. -/
theorem extent_pageAlignedLength (hmany : 1 < size.toNat)
    (hfit : start.toNat + size.toNat + P.bytes ≤ 2 ^ 64) :
    P.bytes ∣ ((extent start size name).pageAlignedLength P).toNat ∧
      0 < ((extent start size name).pageAlignedLength P).toNat := by
  have hlast : (extent start size name).endAddress.toNat = start.toNat + size.toNat - 1 :=
    extent_endAddress_toNat name (by omega) (by omega)
  have hfirst : (extent start size name).startAddress.toNat = start.toNat := rfl
  exact ⟨MemorySegment.dvd_pageAlignedLength P _,
    MemorySegment.pageAlignedLength_pos P (by omega) (by omega)⟩

/-- Announcing an extent of more than a mebibyte stops the process when the kernel refuses every
policy call inside its pages. -/
theorem weightedAdaptiveMode_refused (hsorted : table.Ascending)
    (hcount : table.records.length ≤ P.bytes) (hlarge : 2 ^ 20 < size.toNat)
    (hfit : start.toNat + size.toNat + P.bytes ≤ 2 ^ 64)
    (hrefused : ∀ call, InRange (P.alignDown start) ((extent start size name).pageAlignedLength P)
      call.start → mbind call = false) :
    (weightedAdaptiveMode P mbind table.records).processSegmentAddition (extent start size name) =
      some "mbind interleave failed" := by
  have hpages := extent_pageAlignedLength (P := P) name (by omega) hfit
  have haborted := WeightTable.placePagesWeightedInitial_refused hsorted hcount
    (P.dvd_alignDown start) hpages.1 hpages.2 hrefused
  have hthreshold : (extent start size name).length > (1 : Word) <<< 20 := by
    rw [extent_length, gt_iff_lt, BitVec.lt_def]
    simpa using hlarge
  have hannounced : (extent start size name).length > (1 : Word) <<< 14 := by
    have hless : (1 : Word) <<< 14 < (1 : Word) <<< 20 := by decide
    exact BitVec.lt_trans hless hthreshold
  change (if (extent start size name).length > (1 : Word) <<< 14 then _ else _) = _
  rw [if_pos hannounced, placeSegmentWeightedInitial, if_pos hthreshold]
  exact if_pos haborted

end Extent

end Bwap
