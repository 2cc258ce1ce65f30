import Bwap.Memory.HandledRuns
import Mathlib.Data.Set.Lattice
import Mathlib.Order.CompletePartialOrder

/-!
# Segments that share no address

Two segments are compared by their first and last addresses only. That tells whether one lies
within the other and whether they meet, if both end no earlier than they start. As long as the
calls of the handlers keep the list what it should be, the segments beside the heap stay disjoint: a
released address is found in one of them at most, and a block outside the heap lies in its own one.
-/

namespace Bwap

open Common

namespace MemorySegment

/-- `contains` of a segment. -/
def containsSegment (s otherSegment : MemorySegment) : Bool :=
  s.contains otherSegment.startAddress && s.contains otherSegment.endAddress

/-- `isContainedIn`. -/
def isContainedIn (s otherSegment : MemorySegment) : Bool := otherSegment.containsSegment s

/-- `intersectsWith`. -/
def intersectsWith (s segment : MemorySegment) : Bool :=
  s.contains segment.startAddress || s.contains segment.endAddress ||
    segment.contains s.startAddress || segment.contains s.endAddress

/-- `isDisjointWith`. -/
def isDisjointWith (s segment : MemorySegment) : Bool := !s.intersectsWith segment

/-- The addresses of a segment. -/
def addresses (s : MemorySegment) : Set Word := {a | s.contains a = true}

/-- A segment ends no earlier than it starts. -/
def Ordered (s : MemorySegment) : Prop := s.startAddress.toNat ≤ s.endAddress.toNat

instance (s : MemorySegment) : Decidable s.Ordered := inferInstanceAs (Decidable (_ ≤ _))

theorem mem_addresses {s : MemorySegment} {a : Word} :
    a ∈ s.addresses ↔ s.contains a = true := Iff.rfl

/-- An ordered segment has its first and its last address. -/
theorem Ordered.contains_ends {s : MemorySegment} (h : s.Ordered) :
    s.contains s.startAddress = true ∧ s.contains s.endAddress = true := by
  rw [contains_iff, contains_iff]
  exact ⟨⟨le_refl _, h⟩, ⟨h, le_refl _⟩⟩

/-- Both ends of an ordered segment lie in another one just when all of it does. -/
theorem containsSegment_iff (s : MemorySegment) {t : MemorySegment} (ht : t.Ordered) :
    s.containsSegment t = true ↔ t.addresses ⊆ s.addresses := by
  rw [containsSegment, Bool.and_eq_true]
  constructor
  · rintro ⟨hstart, hend⟩ a ha
    rw [mem_addresses, contains_iff] at ha
    rw [contains_iff] at hstart hend
    rw [mem_addresses, contains_iff]
    omega
  · intro hsubset
    exact ⟨hsubset ht.contains_ends.1, hsubset ht.contains_ends.2⟩

/-- Segments that share no address do not share an end. -/
theorem isDisjointWith_of_apart {s t : MemorySegment} (hs : s.Ordered) (ht : t.Ordered)
    (h : Apart s t) : s.isDisjointWith t = true := by
  have hstart := h.symm _ ht.contains_ends.1
  have hend := h.symm _ ht.contains_ends.2
  have hstart' := h _ hs.contains_ends.1
  have hend' := h _ hs.contains_ends.2
  simp [isDisjointWith, intersectsWith, hstart, hend, hstart', hend']

/-- If they share an address, the one that starts later starts in the other one. -/
theorem apart_of_isDisjointWith {s t : MemorySegment} (h : s.isDisjointWith t = true) :
    Apart s t := by
  intro a ha
  rw [← Bool.not_eq_true]
  intro ha'
  simp only [isDisjointWith, intersectsWith, Bool.not_eq_true', Bool.or_eq_false_iff,
    contains_eq_false_iff] at h
  rw [contains_iff] at ha ha'
  omega

/-- Segments are apart when they have no common addresses. -/
theorem apart_iff_disjoint (s t : MemorySegment) :
    Apart s t ↔ Disjoint s.addresses t.addresses := by
  rw [Set.disjoint_left]
  refine forall_congr' fun a => imp_congr Iff.rfl ?_
  rw [mem_addresses, Bool.not_eq_true]

/-- Two ordered segments are disjoint just when they have no common addresses. -/
theorem isDisjointWith_iff {s t : MemorySegment} (hs : s.Ordered) (ht : t.Ordered) :
    s.isDisjointWith t = true ↔ Disjoint s.addresses t.addresses := by
  rw [← apart_iff_disjoint]
  exact ⟨apart_of_isDisjointWith, isDisjointWith_of_apart hs ht⟩

/-- An address lies in at most one of several segments that are apart. -/
theorem length_filter_contains_le {segments : List MemorySegment} (h : segments.Pairwise Apart)
    (addr : Word) : (segments.filter fun s => s.contains addr).length ≤ 1 := by
  induction h with
  | nil => exact Nat.zero_le _
  | @cons s rest hapart _ ih =>
    cases hs : s.contains addr with
    | false => rwa [List.filter_cons_of_neg (by simp [hs])]
    | true =>
      have hrest : rest.filter (fun t => t.contains addr) = [] := by
        rw [List.filter_eq_nil_iff]
        intro t ht
        rw [hapart t ht addr hs]
        exact Bool.false_ne_true
      rw [List.filter_cons_of_pos (by simp [hs]), hrest]
      exact le_refl _

end MemorySegment

/-- A block is ordered. -/
theorem Block.segment_ordered (b : Block) : b.segment.Ordered := b.start_le_end

namespace Lists

variable {m₀ m : MemoryMap} {heap : MemorySegment} {brk : Word} {live : List Block}
  {announced : List Notice}

/-- The segments beside the heap are apart if the initial ones are. -/
theorem others_apart (h : Lists m₀ heap brk live announced m)
    (hinitial : m₀.others.Pairwise Apart) : m.others.Pairwise Apart := by
  rw [h.others.pairwise_iff fun hst => hst.symm]
  refine List.pairwise_append.mpr ⟨hinitial, ?_, ?_⟩
  · refine h.apart.filterMap _ fun b c hbc s hs t ht => ?_
    rw [Block.eq_segment_of_tracked hs, Block.eq_segment_of_tracked ht]
    exact hbc
  · intro s hs t ht
    obtain ⟨b, hb, hsegment⟩ := List.mem_filterMap.mp ht
    rw [Block.eq_segment_of_tracked hsegment]
    exact (h.apartInitial b hb s hs).symm

/-- They are ordered if the initial ones are. -/
theorem others_ordered (h : Lists m₀ heap brk live announced m)
    (hinitial : ∀ s ∈ m₀.others, s.Ordered) : ∀ s ∈ m.others, s.Ordered := by
  intro s hs
  cases List.mem_append.mp (h.others.mem_iff.mp hs) with
  | inl hold => exact hinitial s hold
  | inr hblock =>
    obtain ⟨b, _, hsegment⟩ := List.mem_filterMap.mp hblock
    rw [Block.eq_segment_of_tracked hsegment]
    exact b.segment_ordered

/-- A block outside the heap lies in its own segment and in no other one beside the heap. -/
theorem filter_isContainedIn (h : Lists m₀ heap brk live announced m) {b : Block} (hb : b ∈ live)
    (hside : b.inHeap = false) :
    (m.others.filter fun s => b.segment.isContainedIn s) = [b.segment] := by
  obtain ⟨before, after, rfl⟩ := List.append_of_mem hb
  have hfirst := h.perm List.perm_middle
  rw [← List.perm_singleton]
  apply ((hfirst.others_perm_cons hside).filter _).trans
  rw [List.filter_cons_of_pos, List.filter_eq_nil_iff.mpr]
  · intro s hs
    have hstart : s.contains b.segment.startAddress = false := hfirst.start_untracked s hs
    simp [MemorySegment.isContainedIn, MemorySegment.containsSegment, hstart]
  · exact (b.segment.containsSegment_iff b.segment_ordered).mpr (Set.Subset.refl _)

end Lists

/-- The segments beside the heap are disjoint, no address is found in two of them, and a live block
outside the heap lies in its own one alone. -/
structure DisjointSegments (s : AllocState) : Prop where
  disjoint : s.map.others.Pairwise fun t u => t.isDisjointWith u = true
  found : ∀ addr, (s.map.others.filter fun t => t.contains addr).length ≤ 1
  own : ∀ b ∈ s.live, b.inHeap = false →
    (s.map.others.filter fun t => b.segment.isContainedIn t) = [b.segment]

/-- The invariant of a run keeps the segments disjoint. -/
theorem KeptInList.disjointSegments {m₀ : MemoryMap} {heap : MemorySegment} {s : AllocState}
    (hinitial : m₀.others.Pairwise Apart) (hordered : ∀ t ∈ m₀.others, t.Ordered)
    (h : KeptInList m₀ heap s) : DisjointSegments s := by
  obtain ⟨brk, hlists⟩ := h
  have hapart := hlists.others_apart hinitial
  have hall := hlists.others_ordered hordered
  exact {
    disjoint := hapart.imp_of_mem fun ht hu htu =>
      MemorySegment.isDisjointWith_of_apart (hall _ ht) (hall _ hu) htu
    found := MemorySegment.length_filter_contains_le hapart
    own := fun b hb hside => hlists.filter_isContainedIn hb hside }

/-- In a run of the handlers whose calls keep the list what it should be (`KeepsListed`), from a
list without a segment at the null pointer, the segments beside the heap are disjoint in every
state if they were at the start, where each ended no earlier than it started. -/
theorem handled_disjoint (mode : Mode) (m₀ : MemoryMap) (heap : MemorySegment)
    (trace : List (HandledCall × AllocState)) (hheap : m₀.heapSegment? = some heap)
    (hnull : ∀ s ∈ m₀.others, s.contains 0 = false) (hordered : ∀ s ∈ m₀.others, s.Ordered)
    (hdisjoint : m₀.others.Pairwise fun s t => s.isDisjointWith t = true)
    (hrun : Run (HandledStep mode m₀.others heap.startAddress) ⟨[], m₀, []⟩ trace)
    (hguard : Guarded KeepsListed ⟨[], m₀, []⟩ trace) :
    Throughout DisjointSegments trace := by
  have hinitial := hdisjoint.imp fun hst => MemorySegment.apart_of_isDisjointWith hst
  refine (keptInList_throughout hheap hnull hrun hguard).imp fun s h => ?_
  exact h.disjointSegments hinitial hordered

/-- A page that is mapped. -/
def mappedPage : Block :=
  ⟨0x7f2000000000, 0x1000, "mmap", false, by decide, by decide, by decide⟩

/-- A page is mapped beside the segments of the small process, and unmapped. -/
theorem handled_disjoint_mmap_munmap :
    let mapped := smallProcess.appendSegment mappedPage.segment
    let trace : List (HandledCall × AllocState) :=
      [(.mmap mappedPage, ⟨[mappedPage], mapped, [.added mappedPage.segment]⟩),
        (.munmap mappedPage, ⟨[], mapped.removeSegments 0x7f2000000000,
          [.added mappedPage.segment, .removed mappedPage.segment]⟩)]
    Throughout DisjointSegments trace := by
  intro mapped trace
  have hunused : Unused smallProcess.others [] mappedPage :=
    .of_ordered (by decide) (by decide)
  apply handled_disjoint ⟨fun _ => none⟩ smallProcess smallHeap trace rfl (by decide) (by decide)
    (by decide)
  · apply Run.cons
    · exact ⟨hunused, rfl, rfl, rfl, rfl, rfl⟩
    · exact .cons ⟨List.Perm.refl _, rfl, rfl, rfl⟩ (.nil _)
  · refine ⟨trivial, fun heap hheap b hb _ _ => ?_, trivial⟩
    have hsame : smallHeap = heap := Option.some.inj hheap
    rw [← hsame]
    decide

end Bwap
