import Bwap.Memory.Disjoint
import Bwap.Mode.PlacedBlocks

/-!
# Passes over the map of a running process

A pass over the map places one segment after the other, and undoes what it did before where two
segments lie on one page. The kernel maps whole pages: if no segment has a byte on the first page of
another one before that one starts, no two of them share a page. So in the runs of the handlers
whose calls keep the list what it should be, a pass made at any time leaves every segment where its
own placement puts it.
-/

namespace Bwap

open Common

/-! ## Pages -/

namespace MemorySegment

variable {P : PageSize} {s t : MemorySegment}

/-- A segment with the bytes before it on its first page. -/
def fromPage (P : PageSize) (s : MemorySegment) : MemorySegment :=
  { s with startAddress := s.pageAlignedStartAddress P }

/-- What lies between the first page of a segment and its last byte. -/
theorem fromPage_contains_iff (a : Word) :
    (s.fromPage P).contains a = true ↔
      s.startAddress.toNat / P.bytes * P.bytes ≤ a.toNat ∧ a.toNat ≤ s.endAddress.toNat := by
  rw [contains_iff, ← P.alignDown_toNat]
  rfl

/-- The first page of a segment is not among the later pages of another one. -/
theorem not_apart_fromPage (ht : t.Ordered)
    (hlow : s.startAddress.toNat / P.bytes ≤ t.startAddress.toNat / P.bytes)
    (hhigh : t.startAddress.toNat / P.bytes ≤ s.endAddress.toNat / P.bytes) :
    ¬ Apart (s.fromPage P) (t.fromPage P) := by
  intro hapart
  have hfirst : (t.pageAlignedStartAddress P).toNat = t.startAddress.toNat / P.bytes * P.bytes :=
    P.alignDown_toNat _
  have hstart : t.startAddress.toNat / P.bytes * P.bytes ≤ t.startAddress.toNat :=
    Nat.div_mul_le_self _ _
  have hlast : t.startAddress.toNat / P.bytes * P.bytes ≤ s.endAddress.toNat :=
    (Nat.mul_le_mul_right _ hhigh).trans (Nat.div_mul_le_self _ _)
  have hs : (s.fromPage P).contains (t.pageAlignedStartAddress P) = true := by
    rw [fromPage_contains_iff, hfirst]
    exact ⟨Nat.mul_le_mul_right _ hlow, hlast⟩
  have ht' : (t.fromPage P).contains (t.pageAlignedStartAddress P) = true := by
    rw [fromPage_contains_iff, hfirst]
    exact ⟨le_refl _, hstart.trans ht⟩
  exact Bool.false_ne_true ((hapart _ hs).symm.trans ht')

/-- Segments whose first pages are their own share no page. -/
theorem not_inPages_both (hs : s.Ordered) (ht : t.Ordered)
    (hapart : Apart (s.fromPage P) (t.fromPage P)) (x : Word) :
    ¬(s.InPages P x ∧ t.InPages P x) := by
  rintro ⟨hxs, hxt⟩
  have hpages := (mem_pages_iff hs _).mp (hxs.mem_pages hs)
  have hpages' := (mem_pages_iff ht _).mp (hxt.mem_pages ht)
  cases Nat.le_total (s.startAddress.toNat / P.bytes) (t.startAddress.toNat / P.bytes) with
  | inl hle => exact not_apart_fromPage ht hle (hpages'.1.trans hpages.2) hapart
  | inr hle => exact not_apart_fromPage hs hle (hpages.1.trans hpages'.2) hapart.symm

end MemorySegment

/-! ## Passes -/

/-- What the kernel keeps to: the heap does not end below its start, and from the first page of each
mapping to its last byte there is no byte of another one. -/
structure WholePages (P : PageSize) (initial : List MemorySegment) (s : AllocState) : Prop where
  heapOrdered : ∀ heap, s.map.heapSegment? = some heap → heap.Ordered
  apart : ∀ heap, s.map.heapSegment? = some heap →
    (heap :: (initial ++ s.live.filterMap Block.tracked)).Pairwise
      fun t u => Apart (t.fromPage P) (u.fromPage P)

/-- Over the policies in force before, a pass over the map leaves on every range of the placement of
each segment the policy that placement asks for. -/
def PassLeaves (P : PageSize) (mbind : MbindCall → Bool) (nodesInfo : List Record)
    (s : AllocState) (before : PolicyMap) : Prop :=
  ∃ after, (placeAllWeightedInitial P mbind nodesInfo s.map.segments.values).apply before =
      some after ∧
    ∀ t ∈ s.map.segments.values,
      ∀ call ∈ (placeSegmentWeightedInitial P mbind nodesInfo t).issued,
        ∀ x, InRange call.start call.len x → after x = .requested call.policy call.nodes

/-- The process survives a pass over the map unless the kernel refuses one of its calls, and then
the pass places every segment. -/
def PassPlaces (P : PageSize) (mbind : MbindCall → Bool) (nodesInfo : List Record)
    (s : AllocState) : Prop :=
  let pass := placeAllWeightedInitial P mbind nodesInfo s.map.segments.values
  ((∀ call ∈ pass.issued, mbind call.toMbindCall = true) → pass.aborted = false) ∧
    (pass.aborted = false → ∀ before, PassLeaves P mbind nodesInfo s before)

/-- The segments of the map lie on different pages. -/
theorem KeptInList.pagesApart {P : PageSize} {m₀ : MemoryMap} {heap : MemorySegment}
    {s : AllocState} (hordered : ∀ t ∈ m₀.others, t.Ordered) (hpages : WholePages P m₀.others s)
    (h : KeptInList m₀ heap s) : PagesApart P s.map.segments.values := by
  obtain ⟨brk, hlists⟩ := h
  have hheap := hlists.heapLive
  have hlist := (MemoryMap.values_perm hheap).trans (hlists.others.cons _)
  have hall : ∀ t ∈ s.map.segments.values, t.Ordered := by
    intro t ht
    cases List.mem_cons.mp ((MemoryMap.values_perm hheap).mem_iff.mp ht) with
    | inl hself => exact hself ▸ hpages.heapOrdered _ hheap
    | inr hother => exact hlists.others_ordered hordered t hother
  have hapart : s.map.segments.values.Pairwise fun t u => Apart (t.fromPage P) (u.fromPage P) := by
    rw [hlist.pairwise_iff fun htu => htu.symm]
    exact hpages.apart _ hheap
  exact hapart.imp_of_mem fun ht hu htu _ _ =>
    MemorySegment.not_inPages_both (hall _ ht) (hall _ hu) htu

/-- Then a pass places every segment. -/
theorem PagesApart.passPlaces {P : PageSize} {mbind : MbindCall → Bool} {nodesInfo : List Record}
    {s : AllocState} (h : PagesApart P s.map.segments.values) : PassPlaces P mbind nodesInfo s := by
  constructor
  · rw [placeAllWeightedInitial_eq]
    exact Placement.aborted_of_issued mbind _
  · intro hok before
    rw [PassLeaves, placeAllWeightedInitial_eq]
    rw [placeAllWeightedInitial_eq] at hok
    have haccepted := Placement.issueAll_accepted mbind _ hok
    refine ⟨_, Placement.issueAll_apply hok before, ?_⟩
    intro t ht call hcall x hx
    exact applyCalls_pass_own h haccepted ht hcall hx before

/-- In a run of the handlers whose calls keep the list what it should be (`KeepsListed`), from a
list of ordered segments without one at the null pointer, a pass made at any time places every
segment of the map, as long as the kernel maps whole pages. -/
theorem handled_passes_place (P : PageSize) (mbind : MbindCall → Bool) (nodesInfo : List Record)
    (mode : Mode) (m₀ : MemoryMap) (heap : MemorySegment)
    (trace : List (HandledCall × AllocState)) (hheap : m₀.heapSegment? = some heap)
    (hnull : ∀ s ∈ m₀.others, s.contains 0 = false) (hordered : ∀ s ∈ m₀.others, s.Ordered)
    (hrun : Run (HandledStep mode m₀.others heap.startAddress) ⟨[], m₀, []⟩ trace)
    (hguard : Guarded KeepsListed ⟨[], m₀, []⟩ trace)
    (hpages : Throughout (WholePages P m₀.others) trace) :
    Throughout (PassPlaces P mbind nodesInfo) trace := by
  have hkept := keptInList_throughout hheap hnull hrun hguard
  intro entry hentry
  have hapart := (hkept entry hentry).pagesApart hordered (hpages entry hentry)
  exact hapart.passPlaces

/-- Two mappings of more than two mebibytes. -/
def firstMapping : Block :=
  ⟨0x7f2000400000, 0x240000, "mmap", false, by decide, by decide, by decide⟩

def secondMapping : Block :=
  ⟨0x7f2000800000, 0x280000, "mmap", false, by decide, by decide, by decide⟩

/-- Both are mapped and the first one is unmapped, while the kernel accepts every policy call: a
pass at any time leaves the policies of all placements in force. -/
theorem handled_passes_place_two_mappings :
    let one := smallProcess.appendSegment firstMapping.segment
    let two := one.appendSegment secondMapping.segment
    let mapped := [.added firstMapping.segment, .added secondMapping.segment]
    let trace : List (HandledCall × AllocState) :=
      [(.mmap firstMapping, ⟨[firstMapping], one, [.added firstMapping.segment]⟩),
        (.mmap secondMapping, ⟨[secondMapping, firstMapping], two, mapped⟩),
        (.munmap firstMapping, ⟨[secondMapping], two.removeSegments firstMapping.start,
          mapped ++ [.removed firstMapping.segment]⟩)]
    ∀ entry ∈ trace, ∀ before, PassLeaves .fourKiB (fun _ => true)
      WeightTable.twoNodeTable.records entry.2 before := by
  intro one two mapped trace
  have hfirst : Unused smallProcess.others [] firstMapping :=
    .of_ordered (by decide) (by decide)
  have hsecond : Unused smallProcess.others [firstMapping] secondMapping :=
    .of_ordered (by decide) (by decide)
  have hrun : Run (HandledStep ⟨fun _ => none⟩ smallProcess.others smallHeap.startAddress)
      ⟨[], smallProcess, []⟩ trace :=
    .cons ⟨hfirst, rfl, rfl, rfl, rfl, rfl⟩ <| .cons ⟨hsecond, rfl, rfl, rfl, rfl, rfl⟩ <|
      .cons ⟨List.Perm.swap _ _ _, rfl, rfl, rfl⟩ <| .nil _
  have hguard : Guarded KeepsListed ⟨[], smallProcess, []⟩ trace := by
    refine ⟨trivial, trivial, fun heap hheap b _ _ _ => ?_, trivial⟩
    obtain rfl : smallHeap = heap := Option.some.inj hheap
    decide
  -- every byte from the first page of a segment on lies below or above the other segments
  have happart : ∀ live ∈ [[firstMapping], [secondMapping, firstMapping], [secondMapping]],
      (smallHeap :: (smallProcess.others ++ live.filterMap Block.tracked)).Pairwise fun t u =>
        t.endAddress.toNat < (u.fromPage .fourKiB).startAddress.toNat ∨
          u.endAddress.toNat < (t.fromPage .fourKiB).startAddress.toNat := by
    decide
  have hpages : Throughout (WholePages .fourKiB smallProcess.others) trace := by
    intro entry hentry
    have hheap : entry.2.map.heapSegment? = some smallHeap ∧
        entry.2.live ∈ [[firstMapping], [secondMapping, firstMapping], [secondMapping]] := by
      simp only [trace, List.mem_cons, List.not_mem_nil, or_false] at hentry
      rcases hentry with rfl | rfl | rfl
      · exact ⟨rfl, by simp⟩
      · exact ⟨rfl, by simp⟩
      · exact ⟨rfl, by simp⟩
    constructor
    · intro heap hsame
      obtain rfl := Option.some.inj (hheap.1.symm.trans hsame)
      decide
    · intro heap hsame
      obtain rfl := Option.some.inj (hheap.1.symm.trans hsame)
      exact (happart _ hheap.2).imp fun htu => Apart.of_ordered htu
  intro entry hentry before
  obtain ⟨haccepted, hplaces⟩ := handled_passes_place .fourKiB (fun _ => true)
    WeightTable.twoNodeTable.records ⟨fun _ => none⟩ smallProcess smallHeap trace rfl (by decide)
    (by decide) hrun hguard hpages entry hentry
  exact hplaces (haccepted fun _ _ => rfl) before

end Bwap
