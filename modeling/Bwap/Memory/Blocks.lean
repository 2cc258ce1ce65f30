import Bwap.Memory.MemoryMap

/-!
# Blocks of memory

What libc promises of the bytes it hands out: a block is nonempty, does not start at the null
pointer and does not run over the end of the address space. A block carries the side of the
program break it was placed on, which decides whether the map tracks it.
-/

namespace Bwap

/-- Two segments share no address. -/
def Apart (s t : MemorySegment) : Prop := ∀ a, s.contains a = true → t.contains a = false

/-- Being apart is symmetric. -/
theorem Apart.symm {s t : MemorySegment} (h : Apart s t) : Apart t s := by
  intro a ha
  cases hs : s.contains a with
  | true => rw [h a hs] at ha; exact absurd ha (by simp)
  | false => rfl

/-- Segments of which one ends below the other are apart. -/
theorem Apart.of_ordered {s t : MemorySegment}
    (h : s.endAddress.toNat < t.startAddress.toNat ∨ t.endAddress.toNat < s.startAddress.toNat) :
    Apart s t := by
  intro a ha
  rw [MemorySegment.contains_iff] at ha
  rw [MemorySegment.contains_eq_false_iff]
  omega

/-- Whether the heap contains the null pointer does not depend on where it ends. -/
theorem heapUpTo_contains_zero (heap : MemorySegment) (brk brk' : Word) :
    (heapUpTo heap brk).contains 0 = (heapUpTo heap brk').contains 0 := by
  rw [Bool.eq_iff_iff, MemorySegment.contains_iff, MemorySegment.contains_iff]
  simp [heapUpTo]

/-- A live block: the bytes asked for, and whether they lie on the heap. -/
structure Block where
  start : Word
  size : Word
  origin : String
  inHeap : Bool
  nonnull : start ≠ 0
  nonempty : 0 < size.toNat
  fits : start.toNat + size.toNat ≤ 2 ^ 64

namespace Block

/-- The segment of a block's bytes. -/
def segment (b : Block) : MemorySegment := extent b.start b.size b.origin

/-- The segment a list tracks for a block: none for one on the heap. -/
def tracked (b : Block) : Option MemorySegment := if b.inHeap then none else some b.segment

/-- A heap block lies below the program break, any other block outside the closed range from
the heap's start to the break. -/
def Placed (heapStart brk : Word) (b : Block) : Prop :=
  if b.inHeap then heapStart.toNat ≤ b.start.toNat ∧ b.start.toNat + b.size.toNat ≤ brk.toNat
  else b.start.toNat + b.size.toNat ≤ heapStart.toNat ∨ brk.toNat < b.start.toNat

instance (heapStart brk : Word) (b : Block) : Decidable (b.Placed heapStart brk) :=
  inferInstanceAs (Decidable (if b.inHeap = true then
    heapStart.toNat ≤ b.start.toNat ∧ b.start.toNat + b.size.toNat ≤ brk.toNat
    else b.start.toNat + b.size.toNat ≤ heapStart.toNat ∨ brk.toNat < b.start.toNat))

/-- What is tracked for a block is its segment. -/
theorem eq_segment_of_tracked {b : Block} {s : MemorySegment} (h : b.tracked = some s) :
    s = b.segment := by
  unfold tracked at h
  split_ifs at h
  exact (Option.some.inj h).symm

/-- The bytes of a block end no earlier than they start. -/
theorem start_le_end (b : Block) :
    b.segment.startAddress.toNat ≤ b.segment.endAddress.toNat := by
  have hnonempty := b.nonempty
  have hlast : b.segment.endAddress.toNat = b.start.toNat + b.size.toNat - 1 :=
    extent_endAddress_toNat b.origin (by omega) b.fits
  change b.start.toNat ≤ b.segment.endAddress.toNat
  omega

/-- A block contains exactly its bytes. -/
theorem segment_contains_iff (b : Block) (a : Word) :
    b.segment.contains a = true ↔
      b.start.toNat ≤ a.toNat ∧ a.toNat < b.start.toNat + b.size.toNat :=
  extent_contains_iff b.origin b.nonempty b.fits a

/-- A block contains its first byte. -/
theorem segment_contains_start (b : Block) : b.segment.contains b.start = true := by
  have hnonempty := b.nonempty
  rw [segment_contains_iff]
  omega

/-- No block contains the null pointer. -/
theorem segment_contains_zero (b : Block) : b.segment.contains 0 = false := by
  have hpos : 0 < b.start.toNat := by
    rw [Nat.pos_iff_ne_zero]
    intro hzero
    exact b.nonnull (BitVec.eq_of_toNat_eq hzero)
  rw [← Bool.not_eq_true, segment_contains_iff]
  intro h
  have hzero : (0 : Word).toNat = 0 := rfl
  omega

/-- The heap test tells on which side of the break a block lies. -/
theorem Placed.heap_contains {b : Block} {heap : MemorySegment} {brk : Word}
    (h : b.Placed heap.startAddress brk) : (heapUpTo heap brk).contains b.start = b.inHeap := by
  have hpos := b.nonempty
  unfold Placed at h
  cases hside : b.inHeap with
  | true =>
    rw [hside, if_pos rfl] at h
    rw [MemorySegment.contains_iff]
    change heap.startAddress.toNat ≤ b.start.toNat ∧ b.start.toNat ≤ brk.toNat
    omega
  | false =>
    rw [hside, if_neg (by simp)] at h
    rw [MemorySegment.contains_eq_false_iff]
    change b.start.toNat < heap.startAddress.toNat ∨ brk.toNat < b.start.toNat
    omega

/-- What an allocation inserts is what the list is to track for its block. -/
theorem Placed.outsideHeap_eq {b : Block} {heap : MemorySegment} {brk : Word}
    (h : b.Placed heap.startAddress brk) :
    outsideHeap (heapUpTo heap brk) b.segment = b.tracked := by
  change (if (heapUpTo heap brk).contains b.start then none else some b.segment) = _
  rw [h.heap_contains]
  rfl

end Block

/-- A block of 16 bytes above the heap of the small process. -/
def mappedBlock : Block :=
  ⟨0x7f0000000010, 16, "malloc", false, by decide, by decide, by decide⟩

end Bwap
