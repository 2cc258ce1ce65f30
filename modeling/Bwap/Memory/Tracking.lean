import Bwap.Common.Runs
import Bwap.Memory.Blocks

/-!
# Tracking the allocator

A single thread runs the handlers of the malloc family against an allocator that keeps its
promises: a new block shares no byte with a live one or with an initially tracked segment,
and every block stays on its side of the program break while the break moves. The map then
tracks the initial segments and the live blocks outside the heap, each once, and announces
each insertion and each removal once.

Null releases are the exception: the scan for the null pointer removes an initial segment
that contains address zero.
-/

namespace Bwap

open Common

/-- Where a run stands: the live blocks, the map, and the callbacks the run owes the mode. -/
structure AllocState where
  live : List Block
  map : MemoryMap
  announced : List Notice

/-- A block the allocator may hand out: it shares no byte with a live block or with an initially
tracked segment. -/
def Unused (initial : List MemorySegment) (live : List Block) (b : Block) : Prop :=
  (∀ c ∈ live, Apart b.segment c.segment) ∧ ∀ s ∈ initial, Apart b.segment s

/-- A block that ends below the others or starts above them is unused. -/
theorem Unused.of_ordered {initial : List MemorySegment} {live : List Block} {b : Block}
    (hlive : ∀ c ∈ live, b.segment.endAddress.toNat < c.segment.startAddress.toNat ∨
      c.segment.endAddress.toNat < b.segment.startAddress.toNat)
    (hinitial : ∀ s ∈ initial, b.segment.endAddress.toNat < s.startAddress.toNat ∨
      s.endAddress.toNat < b.segment.startAddress.toNat) : Unused initial live b :=
  ⟨fun c hc => .of_ordered (hlive c hc), fun s hs => .of_ordered (hinitial s hs)⟩

/-- What the allocator may answer to a call, and the callbacks the call owes the mode. After the
call every live block lies on its side of the new break. -/
inductive LibcStep (initial : List MemorySegment) (heapStart : Word) :
    List Block → Call → List Block → List Notice → Prop
  | malloc {live : List Block} (b : Block) (brk : Word) (hunused : Unused initial live b)
      (hplaced : ∀ c ∈ b :: live, c.Placed heapStart brk) (horigin : b.origin = "malloc") :
      LibcStep initial heapStart live (.malloc b.size b.start brk) (b :: live)
        (b.tracked.toList.map .added)
  | calloc {live : List Block} (b : Block) (nmemb size brk : Word)
      (hunused : Unused initial live b) (hplaced : ∀ c ∈ b :: live, c.Placed heapStart brk)
      (horigin : b.origin = "calloc") (hsize : nmemb.toNat * size.toNat = b.size.toNat) :
      LibcStep initial heapStart live (.calloc nmemb size b.start brk) (b :: live)
        (b.tracked.toList.map .added)
  | posixMemalign {live : List Block} (b : Block) (brk : Word) (hunused : Unused initial live b)
      (hplaced : ∀ c ∈ b :: live, c.Placed heapStart brk) (horigin : b.origin = "posix_memalign") :
      LibcStep initial heapStart live (.posixMemalign b.size b.start 0 brk) (b :: live)
        (b.tracked.toList.map .added)
  | realloc {live rest : List Block} (old b : Block) (brk : Word)
      (hlive : live.Perm (old :: rest)) (hunused : Unused initial rest b)
      (hplaced : ∀ c ∈ b :: rest, c.Placed heapStart brk)
      -- an old block outside the heap is still live while the call moves the break
      (hold : old.inHeap = false → old.Placed heapStart brk) (horigin : b.origin = "realloc") :
      LibcStep initial heapStart live (.realloc old.start b.size b.start brk) (b :: rest)
        (old.tracked.toList.map .removed ++ b.tracked.toList.map .added)
  | reallocNull {live : List Block} (b : Block) (brk : Word) (hunused : Unused initial live b)
      (hplaced : ∀ c ∈ b :: live, c.Placed heapStart brk) (horigin : b.origin = "realloc") :
      LibcStep initial heapStart live (.realloc 0 b.size b.start brk) (b :: live)
        (b.tracked.toList.map .added)
  | free {live rest : List Block} (old : Block) (brk : Word) (hlive : live.Perm (old :: rest))
      (hplaced : ∀ c ∈ rest, c.Placed heapStart brk) :
      LibcStep initial heapStart live (.free old.start brk) rest (old.tracked.toList.map .removed)
  | freeNull {live : List Block} (brk : Word) (hplaced : ∀ c ∈ live, c.Placed heapStart brk) :
      LibcStep initial heapStart live (.free 0 brk) live []

/-- One handler call of a run: the allocator answers as it may, and the handler returns. -/
def AllocStep (mode : Mode) (initial : List MemorySegment) (heapStart : Word) (s : AllocState)
    (call : Call) (s' : AllocState) : Prop :=
  ∃ owed, LibcStep initial heapStart s.live call s'.live owed ∧
    s.map.exec mode call = .ok (call.answer, s'.map) ∧ s'.announced = s.announced ++ owed

/-- The call frees or reallocates the null pointer. -/
def Call.releasesNull : Call → Bool
  | .free ptr _ => ptr == 0
  | .realloc ptr _ _ _ => ptr == 0
  | _ => false

/-- No scan for the null pointer finds anything: the heap contains it, or no other segment does. -/
def NullUntracked (m₀ : MemoryMap) (heap : MemorySegment) : Prop :=
  heap.startAddress = 0 ∨ ∀ s ∈ m₀.others, s.contains 0 = false

/-- The list is, up to order, the initial one with its heap end moved and one segment for each
live block outside the heap, and the mode got exactly the callbacks it was owed. -/
def TracksExactly (m₀ : MemoryMap) (s : AllocState) : Prop :=
  (∃ brk, s.map.segments.values.Perm
    ((m₀.setHeapEnd brk).segments.values ++ s.live.filterMap Block.tracked)) ∧
  s.map.notices = m₀.notices ++ s.announced

/-- The invariant of a run, with the break as the map last read it. -/
structure Tracks (m₀ : MemoryMap) (heap : MemorySegment) (brk : Word) (live : List Block)
    (announced : List Notice) (m : MemoryMap) : Prop where
  heapLive : m.heapSegment? = some (heapUpTo heap brk)
  placed : ∀ b ∈ live, b.Placed heap.startAddress brk
  apart : live.Pairwise fun b c => Apart b.segment c.segment
  apartInitial : ∀ b ∈ live, ∀ s ∈ m₀.others, Apart b.segment s
  others : m.others.Perm (m₀.others ++ live.filterMap Block.tracked)
  notices : m.notices = m₀.notices ++ announced

namespace Tracks

variable {m₀ m : MemoryMap} {heap : MemorySegment} {brk : Word} {live rest : List Block}
  {announced : List Notice}

/-- The invariant holds before the first call. -/
theorem start (h : m₀.heapSegment? = some heap) :
    Tracks m₀ heap heap.endAddress [] [] m₀ where
  heapLive := h
  placed := by simp
  apart := List.Pairwise.nil
  apartInitial := by simp
  others := by simp
  notices := by simp

/-- The order of the live blocks does not matter. -/
theorem perm (h : Tracks m₀ heap brk live announced m) (hlive : live.Perm rest) :
    Tracks m₀ heap brk rest announced m where
  heapLive := h.heapLive
  placed := fun b hb => h.placed b (hlive.mem_iff.mpr hb)
  apart := (hlive.pairwise_iff fun hbc => hbc.symm).mp h.apart
  apartInitial := fun b hb => h.apartInitial b (hlive.mem_iff.mpr hb)
  others := h.others.trans ((hlive.filterMap _).append_left _)
  notices := h.notices

/-- Rereading the break keeps the invariant while the blocks stay on their sides of it. -/
theorem reread (h : Tracks m₀ heap brk live announced m) {brk' : Word}
    (hplaced : ∀ b ∈ live, b.Placed heap.startAddress brk') :
    Tracks m₀ heap brk' live announced (m.setHeapEnd brk') where
  heapLive := MemoryMap.heapSegment?_setHeapEnd h.heapLive brk'
  placed := hplaced
  apart := h.apart
  apartInitial := h.apartInitial
  others := by simpa using h.others
  notices := h.notices

/-- Releasing a heap block leaves the list alone. -/
theorem releaseHeap {old : Block} (h : Tracks m₀ heap brk (old :: rest) announced m)
    (hside : old.inHeap = true) : Tracks m₀ heap brk rest announced m where
  heapLive := h.heapLive
  placed := fun b hb => h.placed b (List.mem_cons_of_mem _ hb)
  apart := (List.pairwise_cons.mp h.apart).2
  apartInitial := fun b hb => h.apartInitial b (List.mem_cons_of_mem _ hb)
  others := by simpa [Block.tracked, hside] using h.others
  notices := h.notices

/-- The start of a live block lies in no initial segment and in no other tracked block. -/
theorem start_untracked {old : Block} (h : Tracks m₀ heap brk (old :: rest) announced m) :
    ∀ s ∈ m₀.others ++ rest.filterMap Block.tracked, s.contains old.start = false := by
  intro s hs
  cases List.mem_append.mp hs with
  | inl hinitial =>
    exact h.apartInitial old List.mem_cons_self s hinitial _ old.segment_contains_start
  | inr hblock =>
    obtain ⟨c, hc, hsegment⟩ := List.mem_filterMap.mp hblock
    rw [Block.eq_segment_of_tracked hsegment]
    exact (List.pairwise_cons.mp h.apart).1 c hc _ old.segment_contains_start

/-- A live block outside the heap is tracked once, beside everything else. -/
theorem others_perm_cons {old : Block} (h : Tracks m₀ heap brk (old :: rest) announced m)
    (hside : old.inHeap = false) :
    m.others.Perm (old.segment :: (m₀.others ++ rest.filterMap Block.tracked)) := by
  have hothers := h.others
  simp only [List.filterMap_cons, Block.tracked, hside] at hothers
  exact hothers.trans List.perm_middle

/-- The scan for a block outside the heap removes and announces the segment of that block
alone. -/
theorem releaseOutside {old : Block} (h : Tracks m₀ heap brk (old :: rest) announced m)
    (hside : old.inHeap = false) :
    Tracks m₀ heap brk rest (announced ++ [.removed old.segment])
      (m.removeSegments old.start) := by
  have hheap : (heapUpTo heap brk).contains old.start = false := by
    rw [(h.placed old List.mem_cons_self).heap_contains, hside]
  have hothers := h.others_perm_cons hside
  have hrest := h.start_untracked
  have hself := old.segment_contains_start
  have hremoved : m.segments.values.filter (fun s => s.contains old.start) = [old.segment] := by
    rw [← List.perm_singleton]
    apply (((MemoryMap.values_perm h.heapLive).trans (hothers.cons _)).filter _).trans
    rw [List.filter_cons_of_neg (by simp [hheap]), List.filter_cons_of_pos (by simp [hself]),
      List.filter_eq_nil_iff.mpr]
    intro s hs
    simp [hrest s hs]
  have hkept : (m.removeSegments old.start).others.Perm
      (m₀.others ++ rest.filterMap Block.tracked) := by
    rw [MemoryMap.others_removeSegments]
    apply (hothers.filter _).trans
    rw [List.filter_cons_of_neg (by simp [hself]), List.filter_eq_self.mpr]
    intro s hs
    simp [hrest s hs]
  exact {
    heapLive := MemoryMap.heapSegment?_removeSegments h.heapLive hheap
    placed := fun b hb => h.placed b (List.mem_cons_of_mem _ hb)
    apart := (List.pairwise_cons.mp h.apart).2
    apartInitial := fun b hb => h.apartInitial b (List.mem_cons_of_mem _ hb)
    others := hkept
    notices := by
      change m.notices ++ (m.segments.values.filter fun s => s.contains old.start).map _ = _
      rw [hremoved, h.notices, List.append_assoc]
      rfl }

/-- Inserting what a new block is to be tracked as keeps the invariant. -/
theorem insert {b : Block} (h : Tracks m₀ heap brk live announced m)
    (hunused : Unused m₀.others live b) (hplaced : b.Placed heap.startAddress brk) :
    Tracks m₀ heap brk (b :: live) (announced ++ b.tracked.toList.map .added)
      (m.append b.tracked) := by
  have hlist : (m.append b.tracked).heapSegment? = some (heapUpTo heap brk) ∧
      (m.append b.tracked).others = m.others ++ b.tracked.toList ∧
      (m.append b.tracked).notices = m.notices ++ b.tracked.toList.map .added := by
    cases b.tracked with
    | none => simpa [MemoryMap.append] using h.heapLive
    | some segment =>
      exact ⟨MemoryMap.heapSegment?_appendSegment h.heapLive segment,
        MemoryMap.others_appendSegment h.heapLive segment, rfl⟩
  obtain ⟨hheap, hothers, hnotices⟩ := hlist
  exact {
    heapLive := hheap
    placed := List.forall_mem_cons.mpr ⟨hplaced, h.placed⟩
    apart := List.pairwise_cons.mpr ⟨hunused.1, h.apart⟩
    apartInitial := List.forall_mem_cons.mpr ⟨hunused.2, h.apartInitial⟩
    others := by
      rw [hothers]
      apply (h.others.append_right _).trans
      cases htracked : b.tracked with
      | none => simp [htracked]
      | some segment =>
        simp only [Option.toList_some, List.filterMap_cons, htracked, List.append_assoc]
        exact (List.perm_append_comm).append_left _
    notices := by rw [hnotices, h.notices, List.append_assoc] }

/-- Where no other segment contains the null pointer, the scan for it removes nothing. -/
theorem releaseNull (h : Tracks m₀ heap brk live announced m) (hnull : NullUntracked m₀ heap) :
    m.scan (if (heapUpTo heap brk).contains 0 then none else some 0) = m := by
  cases hheap : (heapUpTo heap brk).contains 0 with
  | true => rfl
  | false =>
    apply MemoryMap.removeSegments_eq_self
    intro s hs
    have hothers : ∀ t ∈ m₀.others, t.contains 0 = false := by
      cases hnull with
      | inl hstart =>
        rw [MemorySegment.contains_eq_false_iff] at hheap
        have hzero : (0 : Word).toNat = 0 := rfl
        simp [heapUpTo, hstart] at hheap
      | inr hothers => exact hothers
    cases List.mem_cons.mp ((MemoryMap.values_perm h.heapLive).mem_iff.mp hs) with
    | inl hself => rw [hself, hheap]
    | inr hother =>
      cases List.mem_append.mp (h.others.mem_iff.mp hother) with
      | inl hinitial => exact hothers s hinitial
      | inr hblock =>
        obtain ⟨b, _, hsegment⟩ := List.mem_filterMap.mp hblock
        rw [Block.eq_segment_of_tracked hsegment]
        exact b.segment_contains_zero

/-- Rereading the break and inserting a new block, as every allocation does. -/
theorem allocate {b : Block} {brk' : Word} (h : Tracks m₀ heap brk live announced m)
    (hunused : Unused m₀.others live b)
    (hplaced : ∀ c ∈ b :: live, c.Placed heap.startAddress brk') :
    Tracks m₀ heap brk' (b :: live) (announced ++ b.tracked.toList.map .added)
      ((m.setHeapEnd brk').append b.tracked) :=
  (h.reread fun c hc => hplaced c (List.mem_cons_of_mem _ hc)).insert hunused
    (hplaced b List.mem_cons_self)

/-- Rereading the break and releasing the old block of a reallocation. The break may drop below
an old block on the heap, so that block is given up first. -/
theorem rereadAndRelease {old : Block} {brk' : Word}
    (h : Tracks m₀ heap brk (old :: rest) announced m)
    (hplaced : ∀ c ∈ rest, c.Placed heap.startAddress brk')
    (hold : old.inHeap = false → old.Placed heap.startAddress brk') :
    Tracks m₀ heap brk' rest (announced ++ old.tracked.toList.map .removed)
      ((m.setHeapEnd brk').scan (if old.inHeap then none else some old.start)) := by
  cases hside : old.inHeap with
  | true => simpa [Block.tracked, hside] using (h.releaseHeap hside).reread hplaced
  | false =>
    have hreread := h.reread (List.forall_mem_cons.mpr ⟨hold hside, hplaced⟩)
    simpa [Block.tracked, hside] using hreread.releaseOutside hside

end Tracks

/-- What the allocator may answer keeps the invariant, where the handler does its edit. -/
theorem LibcStep.tracks {m₀ m : MemoryMap} {heap : MemorySegment} {brk : Word}
    {live live' : List Block} {announced owed : List Notice} {call : Call}
    (hstep : LibcStep m₀.others heap.startAddress live call live' owed)
    (h : Tracks m₀ heap brk live announced m)
    (hnull : call.releasesNull = true → NullUntracked m₀ heap) :
    ∃ brk', Tracks m₀ heap brk' live' (announced ++ owed)
      (m.applyEdit (call.edit (heapUpTo heap brk))) := by
  have hinsert : ∀ (b : Block) (brk' : Word) (origin : String),
      b.Placed heap.startAddress brk' → b.origin = origin →
      outsideHeap (heapUpTo heap brk') (extent b.start b.size origin) = b.tracked := by
    intro b brk' origin hplaced horigin
    rw [← horigin]
    exact hplaced.outsideHeap_eq
  cases hstep with
  | malloc b brk' hunused hplaced horigin =>
    have hallocate := h.allocate hunused hplaced
    rw [← hinsert b brk' _ (hplaced b List.mem_cons_self) horigin] at hallocate ⊢
    exact ⟨brk', hallocate⟩
  | calloc b nmemb size brk' hunused hplaced horigin hsize =>
    have hallocate := h.allocate hunused hplaced
    have hword : nmemb * size = b.size := by
      apply BitVec.eq_of_toNat_eq
      rw [BitVec.toNat_mul, hsize]
      exact Nat.mod_eq_of_lt b.size.isLt
    rw [← hinsert b brk' _ (hplaced b List.mem_cons_self) horigin, ← hword] at hallocate ⊢
    exact ⟨brk', hallocate⟩
  | posixMemalign b brk' hunused hplaced horigin =>
    have hallocate := h.allocate hunused hplaced
    rw [← hinsert b brk' _ (hplaced b List.mem_cons_self) horigin] at hallocate ⊢
    exact ⟨brk', hallocate⟩
  | realloc old b brk' hlive hunused hplaced hold horigin =>
    have hlive' := h.perm hlive
    have hside := (hlive'.placed old List.mem_cons_self).heap_contains
    have hrelease := hlive'.rereadAndRelease (List.forall_mem_cons.mp hplaced).2 hold
    have hinserted := hrelease.insert hunused (hplaced b List.mem_cons_self)
    rw [← hside, ← hinsert b brk' _ (hplaced b List.mem_cons_self) horigin,
      List.append_assoc] at hinserted
    rw [← hinsert b brk' _ (hplaced b List.mem_cons_self) horigin]
    exact ⟨brk', hinserted⟩
  | reallocNull b brk' hunused hplaced horigin =>
    have hreread := h.reread (List.forall_mem_cons.mp hplaced).2
    have hinserted := hreread.insert hunused (hplaced b List.mem_cons_self)
    have hscan := hreread.releaseNull (hnull rfl)
    rw [heapUpTo_contains_zero heap brk' brk] at hscan
    rw [← hscan, ← hinsert b brk' _ (hplaced b List.mem_cons_self) horigin] at hinserted
    rw [← hinsert b brk' _ (hplaced b List.mem_cons_self) horigin]
    exact ⟨brk', hinserted⟩
  | free old brk' hlive hplaced =>
    have hlive' := h.perm hlive
    have hside := (hlive'.placed old List.mem_cons_self).heap_contains
    rw [Call.edit, hside]
    cases hheap : old.inHeap with
    | true =>
      have hreleased := (hlive'.releaseHeap hheap).reread hplaced
      exact ⟨brk', by simpa [MemoryMap.applyEdit, Block.tracked, hheap] using hreleased⟩
    | false =>
      have hreleased := hlive'.releaseOutside hheap
      exact ⟨brk, by simpa [MemoryMap.applyEdit, Block.tracked, hheap] using hreleased⟩
  | freeNull brk' hplaced =>
    have hscan := h.releaseNull (hnull rfl)
    rw [Call.edit, List.append_nil]
    cases hheap : (heapUpTo heap brk).contains 0 with
    | true => exact ⟨brk', h.reread hplaced⟩
    | false =>
      rw [hheap] at hscan
      refine ⟨brk, ?_⟩
      change Tracks m₀ heap brk live announced (m.scan (some 0))
      rwa [show m.scan (some 0) = m from hscan]

/-- The invariant, for whatever break the map last read. -/
def Tracked (m₀ : MemoryMap) (heap : MemorySegment) (s : AllocState) : Prop :=
  ∃ brk, Tracks m₀ heap brk s.live s.announced s.map

/-- A handler call keeps the invariant. -/
theorem AllocStep.tracked {mode : Mode} {m₀ : MemoryMap} {heap : MemorySegment}
    {s s' : AllocState} {call : Call} (hstep : AllocStep mode m₀.others heap.startAddress s call s')
    (h : Tracked m₀ heap s) (hnull : call.releasesNull = true → NullUntracked m₀ heap) :
    Tracked m₀ heap s' := by
  obtain ⟨brk, htracks⟩ := h
  obtain ⟨owed, hlibc, hexec, hannounced⟩ := hstep
  obtain ⟨_, hmap, _⟩ := (MemoryMap.exec_eq_ok_iff mode htracks.heapLive call _ _).mp hexec
  obtain ⟨brk', hkept⟩ := hlibc.tracks htracks hnull
  rw [← hmap, ← hannounced] at hkept
  exact ⟨brk', hkept⟩

/-- The invariant says what the list is. -/
theorem Tracked.exactly {m₀ : MemoryMap} {heap : MemorySegment} {s : AllocState}
    (hheap : m₀.heapSegment? = some heap) (h : Tracked m₀ heap s) : TracksExactly m₀ s := by
  obtain ⟨brk, htracks⟩ := h
  have hinitial := MemoryMap.values_perm (MemoryMap.heapSegment?_setHeapEnd hheap brk)
  rw [MemoryMap.others_setHeapEnd] at hinitial
  have hnow := (MemoryMap.values_perm htracks.heapLive).trans (htracks.others.cons _)
  exact ⟨⟨brk, hnow.trans (hinitial.symm.append_right _)⟩, htracks.notices⟩

/-- In every state a run reaches, the map tracks the initial segments and the live blocks outside
the heap and nothing else, provided the null pointer is released only where no scan can find
it. -/
theorem allocations_tracked (mode : Mode) (m₀ : MemoryMap) (heap : MemorySegment)
    (trace : List (Call × AllocState)) (hheap : m₀.heapSegment? = some heap)
    (hrun : Run (AllocStep mode m₀.others heap.startAddress) ⟨[], m₀, []⟩ trace)
    (hnull : Guarded (fun _ call => call.releasesNull = true → NullUntracked m₀ heap)
      ⟨[], m₀, []⟩ trace) :
    Throughout (TracksExactly m₀) trace := by
  have hstart : Tracked m₀ heap ⟨[], m₀, []⟩ := ⟨heap.endAddress, Tracks.start hheap⟩
  have hkeep : ∀ s call s', Tracked m₀ heap s →
      AllocStep mode m₀.others heap.startAddress s call s' →
      (call.releasesNull = true → NullUntracked m₀ heap) → Tracked m₀ heap s' :=
    fun s call s' h hstep hguard => hstep.tracked h hguard
  exact (hrun.invariant_of_guarded hkeep hstart hnull).imp fun s h => h.exactly hheap

/-- A block that the null pointer is reallocated to. -/
def reallocatedBlock : Block :=
  ⟨0x7f0000000040, 24, "realloc", false, by decide, by decide, by decide⟩

/-- A run that allocates a block outside the heap, reallocates and frees the null pointer and then
frees the block is tracked. -/
theorem allocations_tracked_null_releases :
    let b := mappedBlock
    let c := reallocatedBlock
    let allocated := smallProcess.applyEdit ⟨some 0x1021000, none, b.tracked⟩
    let both := allocated.applyEdit ⟨some 0x1021000, some 0, c.tracked⟩
    let scanned := both.removeSegments 0
    let added : List Notice := [.added b.segment, .added c.segment]
    Throughout (TracksExactly smallProcess)
      [(Call.malloc 16 0x7f0000000010 0x1021000, ⟨[b], allocated, [.added b.segment]⟩),
        (.realloc 0 24 0x7f0000000040 0x1021000, ⟨[c, b], both, added⟩),
        (.free 0 0x1021000, ⟨[c, b], scanned, added⟩),
        (.free 0x7f0000000010 0x1021000, ⟨[c], scanned.removeSegments 0x7f0000000010,
          added ++ [.removed b.segment]⟩)] := by
  intro b c allocated both scanned added
  have hfirst : Unused smallProcess.others [] b := .of_ordered (by decide) (by decide)
  have hsecond : Unused smallProcess.others [b] c := .of_ordered (by decide) (by decide)
  have hnull : NullUntracked smallProcess smallHeap := .inr (by decide)
  apply allocations_tracked ⟨fun _ => none⟩ smallProcess smallHeap _ rfl
  · apply Run.cons
    · exact ⟨_, .malloc b 0x1021000 hfirst (by decide) rfl, rfl, rfl⟩
    · apply Run.cons
      · exact ⟨_, .reallocNull c 0x1021000 hsecond (by decide) rfl, rfl, rfl⟩
      · apply Run.cons
        · exact ⟨_, .freeNull 0x1021000 (by decide), rfl, rfl⟩
        · apply Run.cons
          · exact ⟨_, .free b 0x1021000 (List.Perm.swap _ _ _) (by decide), rfl, rfl⟩
          · exact Run.nil _
  · exact ⟨fun _ => hnull, fun _ => hnull, fun _ => hnull, fun _ => hnull, trivial⟩

/-- Without that proviso the list loses an initial segment: freeing the null pointer removes the
first page of the address space when it is tracked. -/
theorem null_free_removes_first_page :
    ¬ ∀ (mode : Mode) (m₀ : MemoryMap) (heap : MemorySegment) (trace : List (Call × AllocState)),
      m₀.heapSegment? = some heap →
      Run (AllocStep mode m₀.others heap.startAddress) ⟨[], m₀, []⟩ trace →
      Throughout (TracksExactly m₀) trace := by
  intro h
  let m₀ := smallProcess.appendSegment ⟨0, 0xfff, "anonymous"⟩
  have hrun : Run (AllocStep ⟨fun _ => none⟩ m₀.others smallHeap.startAddress) ⟨[], m₀, []⟩
      [(Call.free 0 0x1021000, ⟨[], m₀.removeSegments 0, []⟩)] :=
    .cons ⟨[], .freeNull 0x1021000 (by simp), rfl, rfl⟩ (.nil _)
  have htracked := (h _ _ _ _ rfl hrun _ (List.mem_singleton.mpr rfl)).1
  obtain ⟨brk, hperm⟩ := htracked
  have hlength : (4 : ℕ) = 5 := hperm.length_eq
  exact absurd hlength (by decide)

end Bwap
