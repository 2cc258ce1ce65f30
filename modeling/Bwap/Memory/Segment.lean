import Bwap.Placement.Page

/-!
# Memory segments

A segment stores the addresses of its first and its last byte, both inclusive, and the name
under which it was found or allocated. Lengths and rounded addresses are computed modulo
the word size, as the pointer casts do.
-/

namespace Bwap

/-- Why a call does not return: it follows a pointer to a deleted list node, or a check ends the
process with a message. -/
inductive Fault
  | danglingNode
  | died (message : String)
deriving DecidableEq, Repr

/-- `MemorySegment`: the first and the last address, and a name. -/
structure MemorySegment where
  startAddress : Word
  endAddress : Word
  name : String
deriving DecidableEq, Repr

namespace MemorySegment

/-- `contains` of an address: a comparison of pointers, inclusive at both ends. -/
def contains (s : MemorySegment) (addr : Word) : Bool :=
  decide (s.startAddress ≤ addr) && decide (addr ≤ s.endAddress)

/-- `length`. -/
def length (s : MemorySegment) : Word := s.endAddress - s.startAddress + 1

/-- `pageAlignedStartAddress`. -/
def pageAlignedStartAddress (P : PageSize) (s : MemorySegment) : Word :=
  P.alignDown s.startAddress

/-- `pageAlignedEndAddress`. -/
def pageAlignedEndAddress (P : PageSize) (s : MemorySegment) : Word := P.alignUp s.endAddress

/-- `pageAlignedLength`. -/
def pageAlignedLength (P : PageSize) (s : MemorySegment) : Word :=
  s.pageAlignedEndAddress P - s.pageAlignedStartAddress P

/-- Containment compares the addresses as numbers. -/
theorem contains_iff (s : MemorySegment) (addr : Word) :
    s.contains addr = true ↔
      s.startAddress.toNat ≤ addr.toNat ∧ addr.toNat ≤ s.endAddress.toNat := by
  simp [contains, BitVec.le_def]

/-- An address outside a segment is below its start or above its end. -/
theorem contains_eq_false_iff (s : MemorySegment) (addr : Word) :
    s.contains addr = false ↔
      addr.toNat < s.startAddress.toNat ∨ s.endAddress.toNat < addr.toNat := by
  rw [← Bool.not_eq_true, contains_iff]
  omega

/-- The page range of a segment has a length of whole pages. -/
theorem dvd_pageAlignedLength (P : PageSize) (s : MemorySegment) :
    P.bytes ∣ (s.pageAlignedLength P).toNat := by
  have hstart : P.bytes ∣ (s.pageAlignedStartAddress P).toNat := P.dvd_alignDown _
  have hstop : P.bytes ∣ (s.pageAlignedEndAddress P).toNat := P.dvd_alignUp _
  rw [pageAlignedLength, BitVec.toNat_sub]
  exact (Nat.dvd_mod_iff P.bytes_dvd).mpr (Nat.dvd_add (Nat.dvd_sub P.bytes_dvd hstart) hstop)

/-- Below the top page, it is the distance between the rounded addresses. -/
theorem pageAlignedLength_toNat (P : PageSize) {s : MemorySegment}
    (hle : s.startAddress.toNat ≤ s.endAddress.toNat)
    (htop : s.endAddress.toNat + P.bytes ≤ 2 ^ 64) :
    (s.pageAlignedLength P).toNat =
      (s.pageAlignedEndAddress P).toNat - (s.pageAlignedStartAddress P).toNat := by
  have hstart : (s.pageAlignedStartAddress P).toNat ≤ s.startAddress.toNat := P.alignDown_le _
  have hstop : s.endAddress.toNat ≤ (s.pageAlignedEndAddress P).toNat := P.le_alignUp _ htop
  apply BitVec.toNat_sub_of_le
  rw [BitVec.le_def]
  omega

/-- It is not zero for more than one byte. -/
theorem pageAlignedLength_pos (P : PageSize) {s : MemorySegment}
    (hlt : s.startAddress.toNat < s.endAddress.toNat)
    (htop : s.endAddress.toNat + P.bytes ≤ 2 ^ 64) : 0 < (s.pageAlignedLength P).toNat := by
  have hstart : (s.pageAlignedStartAddress P).toNat ≤ s.startAddress.toNat := P.alignDown_le _
  have hstop : s.endAddress.toNat ≤ (s.pageAlignedEndAddress P).toNat := P.le_alignUp _ htop
  rw [pageAlignedLength_toNat P hlt.le htop]
  omega

end MemorySegment

/-- The segment of the bytes a call returned: `size` bytes from `start`, so that the last one is
`start + size - 1` modulo the word size. -/
def extent (start size : Word) (name : String) : MemorySegment := ⟨start, start + size - 1, name⟩

/-- The last address of an extent, which exists unless the extent is empty at the null pointer. -/
theorem extent_endAddress_toNat {start size : Word} (name : String)
    (hpos : 0 < start.toNat + size.toNat) (hfit : start.toNat + size.toNat ≤ 2 ^ 64) :
    (extent start size name).endAddress.toNat = start.toNat + size.toNat - 1 := by
  have hone : (1 : Word).toNat = 1 := rfl
  rw [extent, BitVec.toNat_sub, BitVec.toNat_add, hone]
  omega

/-- A nonempty extent that fits in the address space contains exactly its bytes. -/
theorem extent_contains_iff {start size : Word} (name : String) (hpos : 0 < size.toNat)
    (hfit : start.toNat + size.toNat ≤ 2 ^ 64) (addr : Word) :
    (extent start size name).contains addr = true ↔
      start.toNat ≤ addr.toNat ∧ addr.toNat < start.toNat + size.toNat := by
  have hlast := extent_endAddress_toNat name (by omega) hfit
  rw [MemorySegment.contains_iff, hlast]
  change start.toNat ≤ addr.toNat ∧ _ ↔ _
  omega

end Bwap
