import Bwap.Memory.Tracking

/-!
# Runs of all handlers

The handlers of the malloc family, of `mmap` and `munmap`, and of `reallocarray` in any order.
The break moves whenever the allocator likes, but the map rereads it in some handlers only, and
`handle_reallocarray` neither rereads it nor edits the list. The list stays what it should be just
as long as no released block outside the heap lies in the heap as it was last read, no address is
reallocated that the heap reaches only once the break is reread, and no `reallocarray` changes what
is tracked.
-/

namespace Bwap

open Common

/-! ## Calls -/

/-- `handle_reallocarray`, where `reallocarray` returned `result`: the map is left as it was. -/
def MemoryMap.handleReallocarray (m : MemoryMap) (_ptr _nmemb _size result : Word) :
    Except Fault (Word × MemoryMap) :=
  .ok (result, m)

/-- A handled call of a run: of the malloc family; `reallocarray`, which gives up an old block,
unless it is passed the null pointer, for a new one; `mmap` of a new block; and `munmap` of a whole
one. -/
inductive HandledCall
  | allocator (call : Call)
  | reallocarray (old : Option Block) (new : Block) (nmemb size : Word)
  | mmap (new : Block)
  | munmap (old : Block)

/-- The pointer to a block, or null. -/
def blockPointer : Option Block → Word
  | none => 0
  | some old => old.start

/-- What the allocator may answer to `reallocarray`. A block that is reallocated keeps its name. -/
inductive LibcReallocarray (initial : List MemorySegment) (heapStart : Word) :
    List Block → Option Block → Block → List Block → Prop
  | move {live rest : List Block} (old b : Block) (brk : Word) (hlive : live.Perm (old :: rest))
      (hunused : Unused initial rest b) (hplaced : ∀ c ∈ b :: rest, c.Placed heapStart brk)
      (horigin : b.origin = old.origin) :
      LibcReallocarray initial heapStart live (some old) b (b :: rest)
  | fresh {live : List Block} (b : Block) (brk : Word) (hunused : Unused initial live b)
      (hplaced : ∀ c ∈ b :: live, c.Placed heapStart brk) (horigin : b.origin = "reallocarray") :
      LibcReallocarray initial heapStart live none b (b :: live)

/-- One call of a run: libc or the kernel answers as it may, and the handler returns. -/
def HandledStep (mode : Mode) (initial : List MemorySegment) (heapStart : Word) (s : AllocState) :
    HandledCall → AllocState → Prop
  | .allocator call, s' => AllocStep mode initial heapStart s call s'
  | .reallocarray old new nmemb size, s' =>
    LibcReallocarray initial heapStart s.live old new s'.live ∧
      nmemb.toNat * size.toNat = new.size.toNat ∧
      s.map.handleReallocarray (blockPointer old) nmemb size new.start = .ok (new.start, s'.map) ∧
      s'.announced = s.announced
  | .mmap new, s' =>
    Unused initial s.live new ∧ new.origin = "mmap" ∧ new.inHeap = false ∧
      s'.live = new :: s.live ∧
      s.map.exec mode (.mmap new.size new.start) = .ok (.pointer new.start, s'.map) ∧
      s'.announced = s.announced ++ [.added new.segment]
  | .munmap old, s' =>
    s.live.Perm (old :: s'.live) ∧ old.inHeap = false ∧
      s.map.exec mode (.munmap old.start old.size 0) = .ok (.code 0, s'.map) ∧
      s'.announced = s.announced ++ [.removed old.segment]

/-- The heap is in the list, beside it just the initial segments and one segment for each live block
outside the heap, and the mode got exactly the callbacks it was owed. -/
def Listed (m₀ : MemoryMap) (heap : MemorySegment) (s : AllocState) : Prop :=
  (∃ brk, s.map.heapSegment? = some (heapUpTo heap brk)) ∧
    s.map.others.Perm (m₀.others ++ s.live.filterMap Block.tracked) ∧
    s.map.notices = m₀.notices ++ s.announced

/-- The heap, as its end was last read, does not contain the start of a block outside the heap. -/
def AllocState.ClearOfHeap (s : AllocState) (ptr : Word) : Prop :=
  ∀ heap, s.map.heapSegment? = some heap →
    ∀ b ∈ s.live, b.start = ptr → b.inHeap = false → heap.contains ptr = false

/-- What the list needs of a call: a block outside the heap that is released does not lie in the
heap as last read, an address that is reallocated lies in the heap as last read if it does once the
break is reread, and `reallocarray` changes nothing that is tracked. -/
def KeepsListed (s : AllocState) : HandledCall → Prop
  | .allocator (.free ptr _) => s.ClearOfHeap ptr
  | .allocator (.realloc ptr _ _ brk) => s.ClearOfHeap ptr ∧
    -- an address that the heap reaches only once the break is reread is looked for in the list,
    -- and found in the heap
    ∀ heap, s.map.heapSegment? = some heap →
      (heapUpTo heap brk).contains ptr = true → heap.contains ptr = true
  | .allocator _ => True
  | .reallocarray old new _ _ => old.bind Block.tracked = new.tracked
  | .mmap _ => True
  | .munmap old => s.ClearOfHeap old.start

/-! ## The invariant -/

/-- The invariant of a run, with the break as the map last read it. Nothing is known of the side of
it on which a block lies. -/
structure Lists (m₀ : MemoryMap) (heap : MemorySegment) (brk : Word) (live : List Block)
    (announced : List Notice) (m : MemoryMap) : Prop where
  heapLive : m.heapSegment? = some (heapUpTo heap brk)
  apart : live.Pairwise fun b c => Apart b.segment c.segment
  apartInitial : ∀ b ∈ live, ∀ s ∈ m₀.others, Apart b.segment s
  others : m.others.Perm (m₀.others ++ live.filterMap Block.tracked)
  notices : m.notices = m₀.notices ++ announced

/-- What is known of a run without `reallocarray` is more. -/
theorem Tracks.lists {m₀ m : MemoryMap} {heap : MemorySegment} {brk : Word} {live : List Block}
    {announced : List Notice} (h : Tracks m₀ heap brk live announced m) :
    Lists m₀ heap brk live announced m where
  heapLive := h.heapLive
  apart := h.apart
  apartInitial := h.apartInitial
  others := h.others
  notices := h.notices

namespace Lists

variable {m₀ m : MemoryMap} {heap : MemorySegment} {brk : Word} {live rest : List Block}
  {announced : List Notice}

/-- The order of the live blocks does not matter. -/
theorem perm (h : Lists m₀ heap brk live announced m) (hlive : live.Perm rest) :
    Lists m₀ heap brk rest announced m where
  heapLive := h.heapLive
  apart := (hlive.pairwise_iff fun hbc => hbc.symm).mp h.apart
  apartInitial := fun b hb => h.apartInitial b (hlive.mem_iff.mpr hb)
  others := h.others.trans ((hlive.filterMap _).append_left _)
  notices := h.notices

/-- Rereading the break puts every block on its side of it again. -/
theorem reread (h : Lists m₀ heap brk live announced m) {brk' : Word}
    (hplaced : ∀ b ∈ live, b.Placed heap.startAddress brk') :
    Tracks m₀ heap brk' live announced (m.setHeapEnd brk') where
  heapLive := MemoryMap.heapSegment?_setHeapEnd h.heapLive brk'
  placed := hplaced
  apart := h.apart
  apartInitial := h.apartInitial
  others := by simpa using h.others
  notices := h.notices

/-- Releasing a heap block leaves the list alone. -/
theorem releaseHeap {old : Block} (h : Lists m₀ heap brk (old :: rest) announced m)
    (hside : old.inHeap = true) : Lists m₀ heap brk rest announced m where
  heapLive := h.heapLive
  apart := (List.pairwise_cons.mp h.apart).2
  apartInitial := fun b hb => h.apartInitial b (List.mem_cons_of_mem _ hb)
  others := by simpa [Block.tracked, hside] using h.others
  notices := h.notices

/-- The start of a live block lies in no initial segment and in no other tracked block. -/
theorem start_untracked {old : Block} (h : Lists m₀ heap brk (old :: rest) announced m) :
    ∀ s ∈ m₀.others ++ rest.filterMap Block.tracked, s.contains old.start = false := by
  intro s hs
  cases List.mem_append.mp hs with
  | inl hinitial =>
    exact h.apartInitial old List.mem_cons_self s hinitial _ old.segment_contains_start
  | inr hblock =>
    obtain ⟨c, hc, hsegment⟩ := List.mem_filterMap.mp hblock
    rw [Block.eq_segment_of_tracked hsegment]
    exact (List.pairwise_cons.mp h.apart).1 c hc _ old.segment_contains_start

/-- A live block outside the heap is tracked once, beside everything else. -/
theorem others_perm_cons {old : Block} (h : Lists m₀ heap brk (old :: rest) announced m)
    (hside : old.inHeap = false) :
    m.others.Perm (old.segment :: (m₀.others ++ rest.filterMap Block.tracked)) := by
  have hothers := h.others
  simp only [List.filterMap_cons, Block.tracked, hside] at hothers
  exact hothers.trans List.perm_middle

/-- The scan for a block outside the heap removes and announces its segment alone, if the heap does
not contain its start. -/
theorem releaseOutside {old : Block} (h : Lists m₀ heap brk (old :: rest) announced m)
    (hside : old.inHeap = false) (hclear : (heapUpTo heap brk).contains old.start = false) :
    Lists m₀ heap brk rest (announced ++ [.removed old.segment])
      (m.removeSegments old.start) := by
  have hothers := h.others_perm_cons hside
  have hself := old.segment_contains_start
  have hrest := h.start_untracked
  have hremoved : m.segments.values.filter (fun s => s.contains old.start) = [old.segment] := by
    rw [← List.perm_singleton]
    apply (((MemoryMap.values_perm h.heapLive).trans (hothers.cons _)).filter _).trans
    rw [List.filter_cons_of_neg (by simp [hclear]), List.filter_cons_of_pos (by simp [hself]),
      List.filter_eq_nil_iff.mpr]
    intro s hs
    simp [hrest s hs]
  exact {
    heapLive := MemoryMap.heapSegment?_removeSegments h.heapLive hclear
    apart := (List.pairwise_cons.mp h.apart).2
    apartInitial := fun b hb => h.apartInitial b (List.mem_cons_of_mem _ hb)
    others := by
      rw [MemoryMap.others_removeSegments]
      apply (hothers.filter _).trans
      rw [List.filter_cons_of_neg (by simp [hself]), List.filter_eq_self.mpr]
      intro s hs
      simp [hrest s hs]
    notices := by
      change m.notices ++ (m.segments.values.filter fun s => s.contains old.start).map _ = _
      rw [hremoved, h.notices, List.append_assoc]
      rfl }

/-- Appending the segment of a new block outside the heap. -/
theorem insertOutside {b : Block} (h : Lists m₀ heap brk live announced m)
    (hunused : Unused m₀.others live b) (hside : b.inHeap = false) :
    Lists m₀ heap brk (b :: live) (announced ++ [.added b.segment])
      (m.appendSegment b.segment) where
  heapLive := MemoryMap.heapSegment?_appendSegment h.heapLive b.segment
  apart := List.pairwise_cons.mpr ⟨hunused.1, h.apart⟩
  apartInitial := List.forall_mem_cons.mpr ⟨hunused.2, h.apartInitial⟩
  others := by
    have hblocks : (b :: live).filterMap Block.tracked =
        b.segment :: live.filterMap Block.tracked := by
      simp [Block.tracked, hside]
    rw [MemoryMap.others_appendSegment h.heapLive, hblocks]
    apply (h.others.append_right _).trans
    rw [List.append_assoc]
    exact List.perm_append_comm.append_left _
  notices := by
    change m.notices ++ [.added b.segment] = _
    rw [h.notices, List.append_assoc]

end Lists

/-- A scan changes nothing if neither the heap nor another segment contains its address. -/
theorem MemoryMap.removeSegments_of_others {m : MemoryMap} {heap : MemorySegment} {addr : Word}
    (hheap : m.heapSegment? = some heap) (hself : heap.contains addr = false)
    (hothers : ∀ s ∈ m.others, s.contains addr = false) : m.removeSegments addr = m := by
  apply MemoryMap.removeSegments_eq_self
  intro s hs
  cases List.mem_cons.mp ((MemoryMap.values_perm hheap).mem_iff.mp hs) with
  | inl hs => rw [hs, hself]
  | inr hs => exact hothers s hs

/-- No segment other than the heap contains the start of a heap block. -/
theorem Lists.heap_start_untracked {m₀ m : MemoryMap} {heap : MemorySegment} {brk : Word}
    {rest : List Block} {announced : List Notice} {old : Block}
    (h : Lists m₀ heap brk (old :: rest) announced m)
    (hside : old.inHeap = true) : ∀ s ∈ m.others, s.contains old.start = false := by
  intro s hs
  exact h.start_untracked s ((h.releaseHeap hside).others.mem_iff.mp hs)

/-- Nor the null pointer. -/
theorem Lists.null_untracked {m₀ m : MemoryMap} {heap : MemorySegment} {brk : Word}
    {live : List Block} {announced : List Notice} (h : Lists m₀ heap brk live announced m)
    (hnull : ∀ s ∈ m₀.others, s.contains 0 = false) :
    ∀ s ∈ m.others, s.contains 0 = false := by
  intro s hs
  cases List.mem_append.mp (h.others.mem_iff.mp hs) with
  | inl hinitial => exact hnull s hinitial
  | inr hblock =>
    obtain ⟨b, _, hsegment⟩ := List.mem_filterMap.mp hblock
    rw [Block.eq_segment_of_tracked hsegment]
    exact b.segment_contains_zero

/-- What an allocation inserts is what the list is to track for its block. -/
theorem Block.Placed.outsideHeap_extent {b : Block} {heap : MemorySegment} {brk : Word}
    {origin : String} (h : b.Placed heap.startAddress brk) (horigin : b.origin = origin) :
    outsideHeap (heapUpTo heap brk) (extent b.start b.size origin) = b.tracked := by
  rw [← horigin]
  exact h.outsideHeap_eq

/-- What may be inserted comes after the other segments. -/
theorem MemoryMap.others_append {m : MemoryMap} {heap : MemorySegment}
    (h : m.heapSegment? = some heap) (inserted : Option MemorySegment) :
    (m.append inserted).others = m.others ++ inserted.toList := by
  cases inserted with
  | none => simp
  | some segment => exact m.others_appendSegment h segment

/-! ## The malloc family -/

/-- Rereading the break and releasing the old block of a reallocation. A block on the heap that the
heap did not reach when it was last read is looked for in the list, and found nowhere if the heap
still does not reach it. -/
theorem Lists.rereadAndRelease {m₀ m : MemoryMap} {heap : MemorySegment} {brk brk' : Word}
    {rest : List Block} {announced : List Notice} {old : Block}
    (h : Lists m₀ heap brk (old :: rest) announced m)
    (hplaced : ∀ c ∈ rest, c.Placed heap.startAddress brk')
    (hold : old.inHeap = false → old.Placed heap.startAddress brk')
    (hclear : old.inHeap = false → (heapUpTo heap brk).contains old.start = false)
    (hreach : (heapUpTo heap brk').contains old.start = true →
      (heapUpTo heap brk).contains old.start = true) :
    Tracks m₀ heap brk' rest (announced ++ old.tracked.toList.map .removed)
      ((m.setHeapEnd brk').scan
        (if (heapUpTo heap brk).contains old.start then none else some old.start)) := by
  cases hside : old.inHeap with
  | false =>
    have hreread := h.reread (List.forall_mem_cons.mpr ⟨hold hside, hplaced⟩)
    rw [hclear hside]
    simpa [Block.tracked, hside] using hreread.releaseOutside hside
  | true =>
    have hreread := (h.releaseHeap hside).reread hplaced
    have hscan : (m.setHeapEnd brk').scan
        (if (heapUpTo heap brk).contains old.start then none else some old.start) =
          m.setHeapEnd brk' := by
      cases hread : (heapUpTo heap brk).contains old.start with
      | true => rfl
      | false =>
        have hbelow : (heapUpTo heap brk').contains old.start = false := by
          rw [← Bool.not_eq_true]
          intro hreached
          exact Bool.false_ne_true (hread.symm.trans (hreach hreached))
        refine MemoryMap.removeSegments_of_others hreread.heapLive hbelow ?_
        rw [MemoryMap.others_setHeapEnd]
        exact h.heap_start_untracked hside
    rw [hscan]
    simpa [Block.tracked, hside] using hreread

/-- Rereading the break and inserting what a new block is to be tracked as. -/
theorem Lists.allocate {m₀ m : MemoryMap} {heap : MemorySegment} {brk brk' : Word}
    {live : List Block} {announced : List Notice} {b : Block} {origin : String}
    (h : Lists m₀ heap brk live announced m) (hunused : Unused m₀.others live b)
    (hplaced : ∀ c ∈ b :: live, c.Placed heap.startAddress brk') (horigin : b.origin = origin) :
    Lists m₀ heap brk' (b :: live) (announced ++ b.tracked.toList.map .added)
      (m.applyEdit ⟨some brk', none,
        outsideHeap (heapUpTo heap brk') (extent b.start b.size origin)⟩) := by
  have hnew := hplaced b List.mem_cons_self
  rw [hnew.outsideHeap_extent horigin]
  exact ((h.reread (List.forall_mem_cons.mp hplaced).2).insert hunused hnew).lists

/-- What the allocator may answer keeps the invariant, where the handler does its edit and the call
keeps what is listed. -/
theorem LibcStep.lists {m₀ : MemoryMap} {heap : MemorySegment} {brk : Word} {s : AllocState}
    {live' : List Block} {owed : List Notice} {call : Call}
    (hstep : LibcStep m₀.others heap.startAddress s.live call live' owed)
    (h : Lists m₀ heap brk s.live s.announced s.map)
    (hnull : ∀ t ∈ m₀.others, t.contains 0 = false) (hkeeps : KeepsListed s (.allocator call)) :
    ∃ brk', Lists m₀ heap brk' live' (s.announced ++ owed)
      (s.map.applyEdit (call.edit (heapUpTo heap brk))) := by
  cases hstep with
  | malloc b brk' hunused hplaced horigin =>
    exact ⟨brk', h.allocate hunused hplaced horigin⟩
  | calloc b nmemb size brk' hunused hplaced horigin hsize =>
    have hword : nmemb * size = b.size := by
      apply BitVec.eq_of_toNat_eq
      rw [BitVec.toNat_mul, hsize]
      exact Nat.mod_eq_of_lt b.size.isLt
    rw [Call.edit, hword]
    exact ⟨brk', h.allocate hunused hplaced horigin⟩
  | posixMemalign b brk' hunused hplaced horigin =>
    exact ⟨brk', h.allocate hunused hplaced horigin⟩
  | realloc old b brk' hlive hunused hplaced hold horigin =>
    have hmem : old ∈ s.live := hlive.mem_iff.mpr List.mem_cons_self
    have hrelease := (h.perm hlive).rereadAndRelease (List.forall_mem_cons.mp hplaced).2 hold
      (hkeeps.1 _ h.heapLive old hmem rfl) (hkeeps.2 _ h.heapLive)
    have hinserted := hrelease.insert hunused (hplaced b List.mem_cons_self)
    rw [← (hplaced b List.mem_cons_self).outsideHeap_extent horigin,
      List.append_assoc] at hinserted
    rw [← (hplaced b List.mem_cons_self).outsideHeap_extent horigin]
    exact ⟨brk', hinserted.lists⟩
  | reallocNull b brk' hunused hplaced horigin =>
    have hreread := h.reread (List.forall_mem_cons.mp hplaced).2
    have hinserted := hreread.insert hunused (hplaced b List.mem_cons_self)
    have hscan := hreread.releaseNull (.inr hnull)
    rw [heapUpTo_contains_zero heap brk' brk] at hscan
    rw [← hscan, ← (hplaced b List.mem_cons_self).outsideHeap_extent horigin] at hinserted
    rw [← (hplaced b List.mem_cons_self).outsideHeap_extent horigin]
    exact ⟨brk', hinserted.lists⟩
  | free old brk' hlive hplaced =>
    have hmem : old ∈ s.live := hlive.mem_iff.mpr List.mem_cons_self
    have hlive' := h.perm hlive
    rw [Call.edit]
    cases hside : old.inHeap with
    | false =>
      have hclear := hkeeps _ h.heapLive old hmem rfl hside
      have hreleased := hlive'.releaseOutside hside hclear
      rw [hclear]
      exact ⟨brk, by simpa [MemoryMap.applyEdit, Block.tracked, hside] using hreleased⟩
    | true =>
      have hreleased := hlive'.releaseHeap hside
      cases hread : (heapUpTo heap brk).contains old.start with
      | true =>
        have hreread := (hreleased.reread hplaced).lists
        exact ⟨brk', by simpa [MemoryMap.applyEdit, Block.tracked, hside] using hreread⟩
      | false =>
        -- the heap does not reach the block, and neither does any segment
        have hsame := MemoryMap.removeSegments_of_others h.heapLive hread
          (hlive'.heap_start_untracked hside)
        refine ⟨brk, ?_⟩
        change Lists m₀ heap brk _ _ (s.map.removeSegments old.start)
        rw [hsame]
        simpa [Block.tracked, hside] using hreleased
  | freeNull brk' hplaced =>
    rw [Call.edit, List.append_nil]
    cases hread : (heapUpTo heap brk).contains 0 with
    | true => exact ⟨brk', (h.reread hplaced).lists⟩
    | false =>
      have hsame := MemoryMap.removeSegments_of_others h.heapLive hread (h.null_untracked hnull)
      refine ⟨brk, ?_⟩
      change Lists m₀ heap brk _ _ (s.map.removeSegments 0)
      rwa [hsame]

/-! ## Reallocating arrays -/

/-- What `reallocarray` does to the live blocks. -/
theorem LibcReallocarray.blocks {initial : List MemorySegment} {heapStart : Word}
    {live live' : List Block} {old : Option Block} {b : Block}
    (hstep : LibcReallocarray initial heapStart live old b live') :
    ∃ rest : List Block, live.Perm (old.toList ++ rest) ∧ live' = b :: rest ∧
      Unused initial rest b := by
  cases hstep with
  | move old b brk hlive hunused hplaced horigin => exact ⟨_, hlive, rfl, hunused⟩
  | fresh b brk hunused hplaced horigin => exact ⟨_, List.Perm.refl _, rfl, hunused⟩

/-- What is tracked for a block and the others. -/
theorem filterMap_tracked_append (old : Option Block) (rest : List Block) :
    (old.toList ++ rest).filterMap Block.tracked =
      (old.bind Block.tracked).toList ++ rest.filterMap Block.tracked := by
  cases old with
  | none => rfl
  | some o => cases ho : o.tracked <;> simp [ho]

theorem filterMap_tracked_cons (b : Block) (rest : List Block) :
    (b :: rest).filterMap Block.tracked =
      b.tracked.toList ++ rest.filterMap Block.tracked :=
  filterMap_tracked_append (some b) rest

/-- `reallocarray` keeps the invariant when it changes nothing that is tracked. -/
theorem Lists.reallocarray {m₀ m : MemoryMap} {heap : MemorySegment} {brk : Word}
    {live live' : List Block} {announced : List Notice} {old : Option Block} {b : Block}
    (h : Lists m₀ heap brk live announced m)
    (hstep : LibcReallocarray m₀.others heap.startAddress live old b live')
    (htracked : old.bind Block.tracked = b.tracked) : Lists m₀ heap brk live' announced m := by
  obtain ⟨rest, hlive, rfl, hunused⟩ := hstep.blocks
  have h' := h.perm hlive
  exact {
    heapLive := h'.heapLive
    apart := List.pairwise_cons.mpr ⟨hunused.1, (List.pairwise_append.mp h'.apart).2.1⟩
    apartInitial := List.forall_mem_cons.mpr
      ⟨hunused.2, fun c hc => h'.apartInitial c (List.mem_append_right _ hc)⟩
    others := by
      have hothers := h'.others
      rwa [filterMap_tracked_append, htracked, ← filterMap_tracked_cons] at hothers
    notices := h'.notices }

/-- What is tracked for a block cannot change while the list stays as it is. -/
theorem Lists.tracked_of_listed {m₀ m : MemoryMap} {heap : MemorySegment} {brk : Word}
    {live live' : List Block} {announced : List Notice} {old : Option Block} {b : Block}
    (h : Lists m₀ heap brk live announced m)
    (hstep : LibcReallocarray m₀.others heap.startAddress live old b live')
    (hlisted : m.others.Perm (m₀.others ++ live'.filterMap Block.tracked)) :
    old.bind Block.tracked = b.tracked := by
  obtain ⟨rest, hlive, rfl, -⟩ := hstep.blocks
  have hperm := (h.perm hlive).others.symm.trans hlisted
  rw [filterMap_tracked_append, filterMap_tracked_cons, List.perm_append_left_iff,
    List.perm_append_right_iff] at hperm
  cases hb : b.tracked with
  | none =>
    rw [hb, Option.toList_none, List.perm_nil] at hperm
    exact Option.toList_eq_nil_iff.mp hperm
  | some segment =>
    rw [hb, Option.toList_some, List.perm_singleton] at hperm
    exact Option.toList_eq_singleton_iff.mp hperm

/-! ## What goes wrong otherwise -/

/-- The heap is gone from the list once an edit removes the segments containing an address that the
heap contains by then. -/
theorem MemoryMap.heapSegment?_applyEdit_none {m : MemoryMap} {heap : MemorySegment} {addr : Word}
    {e : Edit} (hheap : (m.reread e.rereads).heapSegment? = some heap)
    (hremoves : e.removes = some addr) (hcontains : heap.contains addr = true) :
    (m.applyEdit e).heapSegment? = none := by
  have hgone : ((m.reread e.rereads).removeSegments addr).heapSegment? = none := by
    rw [Option.eq_none_iff_forall_ne_some]
    intro s hs
    have hkept := (NodeList.get?_removeIf_eq_some_iff _ _ _ _).mp hs
    rw [Option.some.inj (hkept.1.symm.trans hheap), hcontains] at hkept
    exact Bool.false_ne_true hkept.2.symm
  have hold : (m.reread e.rereads).heap <
      ((m.reread e.rereads).removeSegments addr).segments.fresh :=
    (m.reread e.rereads).segments.lt_fresh_of_mem
      (((m.reread e.rereads).segments.mem_handles_iff _).mpr ⟨heap, hheap⟩)
  rw [applyEdit, hremoves]
  cases e.inserts with
  | none => exact hgone
  | some segment => exact (NodeList.get?_pushBack_of_lt _ _ hold).trans hgone

/-- A block outside the heap that is released stays in the list if nothing is removed. -/
theorem Lists.not_listed_of_kept {m₀ m : MemoryMap} {heap : MemorySegment} {brk : Word}
    {rest : List Block} {announced : List Notice} {old : Block}
    (h : Lists m₀ heap brk (old :: rest) announced m) (hside : old.inHeap = false)
    (new : List MemorySegment) :
    ¬(m.others ++ new).Perm (m₀.others ++ (new ++ rest.filterMap Block.tracked)) := by
  intro hperm
  have hkept := (h.others_perm_cons hside).length_eq
  have hlength := hperm.length_eq
  simp only [List.length_append, List.length_cons] at hkept hlength
  omega

/-- A block outside the heap that starts at the address of a released block is that block. -/
theorem Lists.eq_of_start {m₀ m : MemoryMap} {heap : MemorySegment} {brk : Word}
    {rest : List Block} {announced : List Notice} {old b : Block}
    (h : Lists m₀ heap brk (old :: rest) announced m)
    (hb : b ∈ old :: rest) (hstart : b.start = old.start) : b = old := by
  cases List.mem_cons.mp hb with
  | inl hself => exact hself
  | inr hrest =>
    have hfalse := (List.pairwise_cons.mp h.apart).1 b hrest b.start
      (hstart ▸ old.segment_contains_start)
    exact absurd (hfalse.symm.trans b.segment_contains_start) Bool.false_ne_true

/-- No block starts at the null pointer. -/
theorem AllocState.clearOfHeap_null (s : AllocState) : s.ClearOfHeap 0 :=
  fun _ _ b _ hstart _ => absurd hstart b.nonnull

/-- A released block is clear of the heap if it lies on it whenever it is taken for a heap block. -/
theorem Lists.clearOfHeap {m₀ : MemoryMap} {heap : MemorySegment} {brk : Word} {s : AllocState}
    {rest : List Block} {old : Block} (h : Lists m₀ heap brk s.live s.announced s.map)
    (hlive : s.live.Perm (old :: rest))
    (htaken : (heapUpTo heap brk).contains old.start = true → old.inHeap = true) :
    s.ClearOfHeap old.start := by
  intro heap' hheap' b hb hstart hside
  rw [← Option.some.inj (h.heapLive.symm.trans hheap'), ← Bool.not_eq_true]
  intro hcontains
  rw [(h.perm hlive).eq_of_start (hlive.mem_iff.mp hb) hstart, htaken hcontains] at hside
  exact Bool.false_ne_true hside.symm

/-- A block outside the heap that is freed does not lie in the heap as last read, if the list is
right afterwards. -/
theorem LibcStep.clear_of_free {m₀ : MemoryMap} {heap : MemorySegment} {brk ptr brk' : Word}
    {s : AllocState} {live' : List Block} {owed : List Notice}
    (hstep : LibcStep m₀.others heap.startAddress s.live (.free ptr brk') live' owed)
    (h : Lists m₀ heap brk s.live s.announced s.map)
    (hlisted : (s.map.applyEdit ((Call.free ptr brk').edit (heapUpTo heap brk))).others.Perm
      (m₀.others ++ live'.filterMap Block.tracked)) : s.ClearOfHeap ptr := by
  cases hstep with
  | freeNull _ hplaced => exact s.clearOfHeap_null
  | free old _ hlive hplaced =>
    refine h.clearOfHeap hlive fun hread => ?_
    by_contra hside
    rw [Call.edit, if_pos hread] at hlisted
    have hsame : (s.map.setHeapEnd brk').others.Perm
      (m₀.others ++ live'.filterMap Block.tracked) := hlisted
    rw [MemoryMap.others_setHeapEnd] at hsame
    refine (h.perm hlive).not_listed_of_kept (Bool.not_eq_true _ ▸ hside) [] ?_
    simpa using hsame

/-- Nor does one that is reallocated. -/
theorem LibcStep.clear_of_realloc {m₀ : MemoryMap} {heap : MemorySegment}
    {brk ptr size result brk' : Word} {s : AllocState} {live' : List Block} {owed : List Notice}
    (hstep : LibcStep m₀.others heap.startAddress s.live (.realloc ptr size result brk') live' owed)
    (h : Lists m₀ heap brk s.live s.announced s.map)
    (hlisted : (s.map.applyEdit
      ((Call.realloc ptr size result brk').edit (heapUpTo heap brk))).others.Perm
      (m₀.others ++ live'.filterMap Block.tracked)) : s.ClearOfHeap ptr := by
  cases hstep with
  | reallocNull b _ hunused hplaced horigin => exact s.clearOfHeap_null
  | @realloc rest old b _ hlive hunused hplaced hold horigin =>
    refine h.clearOfHeap hlive fun hread => ?_
    by_contra hside
    have hheap := MemoryMap.heapSegment?_setHeapEnd h.heapLive brk'
    have htracked : outsideHeap (heapUpTo (heapUpTo heap brk) brk')
        (extent b.start b.size "realloc") = b.tracked :=
      (hplaced b List.mem_cons_self).outsideHeap_extent horigin
    rw [Call.edit, if_pos hread, htracked] at hlisted
    have hinserted : ((s.map.setHeapEnd brk').append b.tracked).others.Perm
        (m₀.others ++ (b :: rest).filterMap Block.tracked) := hlisted
    rw [MemoryMap.others_append hheap, MemoryMap.others_setHeapEnd,
      filterMap_tracked_cons] at hinserted
    exact (h.perm hlive).not_listed_of_kept (Bool.not_eq_true _ ▸ hside) _ hinserted

/-! ## Runs -/

/-- The invariant, for whatever break the map last read. -/
def KeptInList (m₀ : MemoryMap) (heap : MemorySegment) (s : AllocState) : Prop :=
  ∃ brk, Lists m₀ heap brk s.live s.announced s.map

/-- The invariant says what the list is. -/
theorem KeptInList.listed {m₀ : MemoryMap} {heap : MemorySegment} {s : AllocState}
    (h : KeptInList m₀ heap s) : Listed m₀ heap s := by
  obtain ⟨brk, hlists⟩ := h
  exact ⟨⟨brk, hlists.heapLive⟩, hlists.others, hlists.notices⟩

/-- The segment that `handle_mmap` inserts for a block. -/
theorem Block.extent_eq_segment {b : Block} {origin : String} (horigin : b.origin = origin) :
    extent b.start b.size origin = b.segment := by
  rw [segment, horigin]

/-- A call that meets its guard keeps the invariant. -/
theorem HandledStep.kept {mode : Mode} {m₀ : MemoryMap} {heap : MemorySegment} {s s' : AllocState}
    {call : HandledCall} (hnull : ∀ t ∈ m₀.others, t.contains 0 = false)
    (hstep : HandledStep mode m₀.others heap.startAddress s call s') (h : KeptInList m₀ heap s)
    (hguard : KeepsListed s call) : KeptInList m₀ heap s' := by
  obtain ⟨brk, hlists⟩ := h
  have hheap := hlists.heapLive
  cases call with
  | allocator call =>
    obtain ⟨owed, hlibc, hexec, hannounced⟩ := hstep
    obtain ⟨-, hmap, -⟩ := (MemoryMap.exec_eq_ok_iff mode hheap call _ _).mp hexec
    rw [KeptInList, hmap, hannounced]
    exact hlibc.lists hlists hnull hguard
  | reallocarray old new nmemb size =>
    obtain ⟨hlibc, -, hmap, hannounced⟩ := hstep
    have hsame : s.map = s'.map := (Prod.mk.inj (Except.ok.inj hmap)).2
    rw [KeptInList, ← hsame, hannounced]
    exact ⟨brk, hlists.reallocarray hlibc hguard⟩
  | mmap new =>
    obtain ⟨hunused, horigin, hside, hlive, hexec, hannounced⟩ := hstep
    have hmap := (MemoryMap.exec_mmap_eq_ok hexec).2
    rw [KeptInList, hlive, hmap, hannounced, Block.extent_eq_segment horigin]
    exact ⟨brk, hlists.insertOutside hunused hside⟩
  | munmap old =>
    obtain ⟨hlive, hside, hexec, hannounced⟩ := hstep
    have hclear := hguard _ hheap old (hlive.mem_iff.mpr List.mem_cons_self) rfl hside
    rw [KeptInList, MemoryMap.exec_munmap_eq_ok hexec, hannounced]
    exact ⟨brk, (hlists.perm hlive).releaseOutside hside hclear⟩

/-- A call after which the list is as it should be meets its guard. -/
theorem HandledStep.keeps_of_listed {mode : Mode} {m₀ : MemoryMap} {heap : MemorySegment}
    {s s' : AllocState} {call : HandledCall}
    (hstep : HandledStep mode m₀.others heap.startAddress s call s') (h : KeptInList m₀ heap s)
    (hlisted : Listed m₀ heap s') : KeepsListed s call := by
  obtain ⟨brk, hlists⟩ := h
  have hheap := hlists.heapLive
  obtain ⟨⟨brk', hlive'⟩, hothers, -⟩ := hlisted
  cases call with
  | allocator call =>
    obtain ⟨owed, hlibc, hexec, -⟩ := hstep
    obtain ⟨-, hmap, -⟩ := (MemoryMap.exec_eq_ok_iff mode hheap call _ _).mp hexec
    rw [hmap] at hlive' hothers
    cases call with
    | free ptr brk'' => exact hlibc.clear_of_free hlists hothers
    | realloc ptr size result brk'' =>
      refine ⟨hlibc.clear_of_realloc hlists hothers, ?_⟩
      intro heap' hheap' hreached
      by_contra hmissed
      have hsame := Option.some.inj (hheap.symm.trans hheap')
      rw [hsame] at hlive'
      have hremoves : ((Call.realloc ptr size result brk'').edit heap').removes = some ptr :=
        if_neg hmissed
      have hreread :
          (s.map.reread ((Call.realloc ptr size result brk'').edit heap').rereads).heapSegment? =
            some (heapUpTo heap' brk'') :=
        MemoryMap.heapSegment?_setHeapEnd hheap' brk''
      rw [MemoryMap.heapSegment?_applyEdit_none hreread hremoves hreached] at hlive'
      exact Option.some_ne_none _ hlive'.symm
    | _ => trivial
  | reallocarray old new nmemb size =>
    obtain ⟨hlibc, -, hmap, -⟩ := hstep
    have hsame : s.map = s'.map := (Prod.mk.inj (Except.ok.inj hmap)).2
    rw [← hsame] at hothers
    exact hlists.tracked_of_listed hlibc hothers
  | mmap new => trivial
  | munmap old =>
    obtain ⟨hlive, hside, hexec, -⟩ := hstep
    refine hlists.clearOfHeap hlive fun hread => ?_
    by_contra
    -- the scan would take the heap away
    have hgone : (s.map.applyEdit ⟨none, some old.start, none⟩).heapSegment? = none :=
      MemoryMap.heapSegment?_applyEdit_none hheap rfl hread
    rw [MemoryMap.exec_munmap_eq_ok hexec] at hlive'
    exact Option.some_ne_none _ (hlive'.symm.trans hgone)

/-- The invariant holds before the first call. -/
theorem keptInList_start {m₀ : MemoryMap} {heap : MemorySegment}
    (hheap : m₀.heapSegment? = some heap) : KeptInList m₀ heap ⟨[], m₀, []⟩ :=
  ⟨heap.endAddress, (Tracks.start hheap).lists⟩

/-- It holds throughout a run whose calls meet their guards. -/
theorem keptInList_throughout {mode : Mode} {m₀ : MemoryMap} {heap : MemorySegment}
    {trace : List (HandledCall × AllocState)} (hheap : m₀.heapSegment? = some heap)
    (hnull : ∀ s ∈ m₀.others, s.contains 0 = false)
    (hrun : Run (HandledStep mode m₀.others heap.startAddress) ⟨[], m₀, []⟩ trace)
    (hguard : Guarded KeepsListed ⟨[], m₀, []⟩ trace) : Throughout (KeptInList m₀ heap) trace := by
  refine hrun.invariant_of_guarded ?_ (keptInList_start hheap) hguard
  intro s call s' h hstep hcall
  exact hstep.kept hnull h hcall

/-- In a run of the handlers, the list and the callbacks are in every state just what they should be
if and only if no released block outside the heap lies in the heap as last read, no address is
reallocated that the heap reaches only once the break is reread, and no `reallocarray` changes
anything that is tracked. -/
theorem handled_listed_iff (mode : Mode) (m₀ : MemoryMap) (heap : MemorySegment)
    (trace : List (HandledCall × AllocState)) (hheap : m₀.heapSegment? = some heap)
    (hnull : ∀ s ∈ m₀.others, s.contains 0 = false)
    (hrun : Run (HandledStep mode m₀.others heap.startAddress) ⟨[], m₀, []⟩ trace) :
    Throughout (Listed m₀ heap) trace ↔ Guarded KeepsListed ⟨[], m₀, []⟩ trace := by
  refine hrun.throughout_iff_guarded (fun s h => h.listed) ?_ ?_ (keptInList_start hheap)
  · intro s call s' h hstep hguard
    exact hstep.kept hnull h hguard
  · intro s call s' h hstep hlisted
    exact hstep.keeps_of_listed h hlisted

/-- A block on the heap. -/
def firstArray : Block :=
  ⟨0x1000020, 48, "malloc", true, by decide, by decide, by decide⟩

/-- A larger one above the break as it was when the first one was allocated. -/
def secondArray : Block :=
  ⟨0x1021020, 0x8000, "malloc", true, by decide, by decide, by decide⟩

/-- The block it is reallocated to. -/
def thirdArray : Block :=
  ⟨0x1000040, 80, "realloc", true, by decide, by decide, by decide⟩

/-- A block on the heap is moved above the break as last read, and reallocated there: the heap is
lost. -/
theorem handled_realloc_loses_heap :
    let allocated := smallProcess.setHeapEnd 0x1021000
    let lost := allocated.applyEdit ⟨some 0x1031000, some 0x1021020, none⟩
    let trace : List (HandledCall × AllocState) :=
      [(.allocator (.malloc 48 0x1000020 0x1021000), ⟨[firstArray], allocated, []⟩),
        (.reallocarray (some firstArray) secondArray 0x800 16, ⟨[secondArray], allocated, []⟩),
        (.allocator (.realloc 0x1021020 80 0x1000040 0x1031000), ⟨[thirdArray], lost, []⟩)]
    Run (HandledStep ⟨fun _ => none⟩ smallProcess.others smallHeap.startAddress)
        ⟨[], smallProcess, []⟩ trace ∧
      ¬ Throughout (Listed smallProcess smallHeap) trace := by
  intro allocated lost trace
  have hrun : Run (HandledStep ⟨fun _ => none⟩ smallProcess.others smallHeap.startAddress)
      ⟨[], smallProcess, []⟩ trace := by
    apply Run.cons
    · exact ⟨_, .malloc firstArray 0x1021000 (.of_ordered (by decide) (by decide)) (by decide) rfl,
        rfl, rfl⟩
    · apply Run.cons
      · exact ⟨.move firstArray secondArray 0x1031000 (List.Perm.refl _)
          (.of_ordered (by decide) (by decide)) (by decide) rfl, by decide, rfl, rfl⟩
      · apply Run.cons
        · exact ⟨_, .realloc secondArray thirdArray 0x1031000 (List.Perm.refl _)
            (.of_ordered (by decide) (by decide)) (by decide) (by decide) rfl, rfl, rfl⟩
        · exact Run.nil _
  refine ⟨hrun, ?_⟩
  rw [handled_listed_iff _ smallProcess smallHeap trace rfl (by decide) hrun]
  intro hguarded
  exact absurd (hguarded.2.2.1.2 _ rfl (by decide)) (by decide)

end Bwap
