import Bwap.Mode.WeightedAdaptive

/-!
# Failed calls

The handlers do not look at whether the wrapped call failed. A failed call is harmless only
by accident: the null pointer, or the address left in the caller's pointer, has to lie in the
heap for nothing to be inserted, and the address to be released in no segment for nothing to
be removed.
-/

namespace Bwap

open Common

/-- `MAP_FAILED`. -/
def mapFailed : Word := BitVec.allOnes 64

/-- The wrapped call reported a failure, of a request for at least one byte. -/
def Call.Failed : Call → Prop
  | .malloc size result _ => size ≠ 0 ∧ result = 0
  | .calloc nmemb size result _ => nmemb ≠ 0 ∧ size ≠ 0 ∧ result = 0
  | .realloc _ size result _ => size ≠ 0 ∧ result = 0
  | .free _ _ => False
  | .posixMemalign _ _ result _ => result ≠ 0
  | .mmap _ result => result = mapFailed
  | .munmap _ _ result => result ≠ 0

/-- The handler returns what the wrapped call answered, delivers nothing to the mode and leaves
the list as it was, up to the end of the heap. -/
def FailureAtomic (mode : Mode) (m : MemoryMap) (call : Call) : Prop :=
  ∃ m', m.exec mode call = .ok (call.answer, m') ∧ m'.notices = m.notices ∧
    ∃ brk, m'.segments = (m.setHeapEnd brk).segments

/-- The heap pointer is live, and the heap contains an address once it ends at the break. -/
def HeapReaches (m : MemoryMap) (brk addr : Word) : Prop :=
  ∃ heap, m.heapSegment? = some heap ∧ (heapUpTo heap brk).contains addr = true

/-- No segment contains an address. -/
def Untracked (m : MemoryMap) (addr : Word) : Prop :=
  ∀ s ∈ m.segments.values, s.contains addr = false

/-- When a failed call does no harm: a heap that starts at the null pointer keeps failed
allocations out of the list, and an address that no segment contains is removed from none. -/
def Harmless (m : MemoryMap) : Call → Prop
  | .malloc _ _ brk => HeapReaches m brk 0
  | .calloc _ _ _ brk => HeapReaches m brk 0
  | .realloc ptr _ _ brk => HeapReaches m brk 0 ∧
      (m.HeapHolds ptr ∨ Untracked (m.setHeapEnd brk) ptr)
  | .free _ _ => True
  | .posixMemalign _ memptr _ brk => HeapReaches m brk memptr
  | .mmap _ _ => False
  | .munmap addr _ _ => Untracked m addr

variable {mode : Mode} {m : MemoryMap} {heap : MemorySegment}

/-- Moving the end of the heap to some break gives back the same list. -/
theorem exists_setHeapEnd_eq (m : MemoryMap) : ∃ brk, m.segments = (m.setHeapEnd brk).segments := by
  cases hheap : m.heapSegment? with
  | some heap =>
    refine ⟨heap.endAddress, ?_⟩
    rw [m.setHeapEnd_eq_self fun s hs => by rw [Option.some.inj (hs.symm.trans hheap)]]
  | none =>
    refine ⟨0, ?_⟩
    rw [m.setHeapEnd_eq_self fun s hs => absurd (hs.symm.trans hheap) (by simp)]

/-- An edit is atomic exactly when it inserts nothing and its scan finds nothing. -/
theorem failureAtomic_iff_edit {call : Call} {e : Edit}
    (hexec : m.exec mode call = (m.perform mode e).map (call.answer, ·)) :
    FailureAtomic mode m call ↔
      e.inserts = none ∧ ∀ addr, e.removes = some addr → Untracked (m.reread e.rereads) addr := by
  apply Iff.intro
  · intro h
    obtain ⟨m', hok, hnotices, -⟩ := h
    rw [hexec, MemoryMap.perform] at hok
    cases hmode : e.inserts.bind mode.processSegmentAddition with
    | some message => simp [hmode, Except.map] at hok
    | none =>
      simp only [hmode, Except.map, Except.ok.injEq, Prod.mk.injEq, true_and] at hok
      rw [← hok, MemoryMap.notices_applyEdit, List.append_assoc, List.append_right_eq_self,
        List.append_eq_nil_iff] at hnotices
      obtain ⟨hremoved, hadded⟩ := hnotices
      have hinserts : e.inserts = none := by simpa using hadded
      refine ⟨hinserts, fun addr haddr s hs => ?_⟩
      rw [haddr] at hremoved
      have hnone : ∀ t ∈ (m.reread e.rereads).segments.values, t.contains addr = false := by
        simpa using hremoved
      exact hnone s hs
  · intro h
    obtain ⟨hinserts, huntracked⟩ := h
    have hedit : m.applyEdit e = m.reread e.rereads := by
      rw [MemoryMap.applyEdit, hinserts, MemoryMap.append_none]
      cases hremoves : e.removes with
      | none => rfl
      | some addr => exact MemoryMap.removeSegments_eq_self _ (huntracked addr hremoves)
    refine ⟨m.reread e.rereads, ?_, ?_, ?_⟩
    · rw [hexec, MemoryMap.perform, hinserts, hedit]
      rfl
    · cases e.rereads <;> rfl
    · cases e.rereads with
      | none => exact exists_setHeapEnd_eq m
      | some brk => exact ⟨brk, rfl⟩

/-- No handler that follows a dead heap pointer returns anything. -/
theorem not_failureAtomic_of_dead (hdead : m.heapSegment? = none) {call : Call}
    (huses : call.usesHeap = true) : ¬ FailureAtomic mode m call := by
  intro h
  obtain ⟨m', hok, -⟩ := h
  rw [MemoryMap.exec_eq_dangling mode hdead huses] at hok
  exact absurd hok (by simp)

/-- A failed allocation is atomic exactly when the heap reaches the address it would be recorded
under. -/
theorem failureAtomic_iff_heapReaches {call : Call} {brk : Word} (segment : MemorySegment)
    (huses : call.usesHeap = true)
    (hedit : ∀ heap, call.edit heap = ⟨some brk, none, outsideHeap (heapUpTo heap brk) segment⟩) :
    FailureAtomic mode m call ↔ HeapReaches m brk segment.startAddress := by
  cases hheap : m.heapSegment? with
  | none =>
    have hright : ¬ HeapReaches m brk segment.startAddress := fun ⟨heap, hlive, _⟩ =>
      absurd (hlive.symm.trans hheap) (by simp)
    exact iff_of_false (not_failureAtomic_of_dead hheap huses) hright
  | some heap =>
    rw [failureAtomic_iff_edit (MemoryMap.exec_eq mode hheap call), hedit, HeapReaches]
    simp [hheap, outsideHeap]

/-- A failed reallocation is atomic exactly when the heap reaches the null pointer and the scan
for the old block is skipped or finds nothing. -/
theorem failureAtomic_realloc_iff (ptr size brk : Word) :
    FailureAtomic mode m (.realloc ptr size 0 brk) ↔ Harmless m (.realloc ptr size 0 brk) := by
  cases hheap : m.heapSegment? with
  | none =>
    have hright : ¬ Harmless m (.realloc ptr size 0 brk) := fun ⟨⟨heap, hlive, _⟩, _⟩ =>
      absurd (hlive.symm.trans hheap) (by simp)
    exact iff_of_false (not_failureAtomic_of_dead hheap rfl) hright
  | some heap =>
    rw [failureAtomic_iff_edit (MemoryMap.exec_eq mode hheap _)]
    cases hptr : heap.contains ptr with
    | true =>
      simp [Call.edit, outsideHeap, hptr, Harmless, HeapReaches, MemoryMap.HeapHolds, hheap,
        extent]
    | false =>
      simp [Call.edit, outsideHeap, hptr, Harmless, HeapReaches, MemoryMap.HeapHolds, hheap,
        extent]

/-- A failed call is atomic exactly when it is harmless, in every mode. -/
theorem failureAtomic_iff_harmless (mode : Mode) (m : MemoryMap) (call : Call)
    (hfailed : call.Failed) : FailureAtomic mode m call ↔ Harmless m call := by
  cases call with
  | malloc size result brk =>
    obtain ⟨-, hnull⟩ := hfailed
    subst hnull
    exact failureAtomic_iff_heapReaches (extent 0 size "malloc") rfl fun heap => rfl
  | calloc nmemb size result brk =>
    obtain ⟨-, -, hnull⟩ := hfailed
    subst hnull
    exact failureAtomic_iff_heapReaches (extent 0 (nmemb * size) "calloc") rfl fun heap => rfl
  | realloc ptr size result brk =>
    obtain ⟨-, hnull⟩ := hfailed
    subst hnull
    exact failureAtomic_realloc_iff ptr size brk
  | free ptr brk => exact absurd hfailed (by simp [Call.Failed])
  | posixMemalign size memptr result brk =>
    exact failureAtomic_iff_heapReaches (extent memptr size "posix_memalign") rfl fun heap => rfl
  | mmap length result =>
    rw [failureAtomic_iff_edit (MemoryMap.exec_mmap mode m length result)]
    simp [Harmless]
  | munmap addr length result =>
    rw [failureAtomic_iff_edit (MemoryMap.exec_munmap mode m addr length result)]
    simp [Harmless]

/-- A failed `posix_memalign` that found an address of the heap in the caller's pointer is
atomic. -/
theorem failureAtomic_posixMemalign_stale :
    FailureAtomic ⟨fun _ => none⟩ smallProcess (.posixMemalign 64 0x1000010 12 0x1021000) :=
  (failureAtomic_iff_harmless _ _ _ (by simp [Call.Failed])).mpr ⟨smallHeap, rfl, by decide⟩

/-- A failed large allocation stops the process in the weighted adaptive mode, as no page at the
null pointer is mapped. -/
theorem failed_malloc_dies {P : PageSize} {mbind : MbindCall → Bool} {table : WeightTable}
    (hsorted : table.Ascending) (hcount : table.records.length ≤ P.bytes)
    (hheap : m.heapSegment? = some heap) (hstart : heap.startAddress ≠ 0) {size brk : Word}
    (hlarge : 2 ^ 20 < size.toNat) (hfit : size.toNat + P.bytes ≤ 2 ^ 64)
    (hrefused : ∀ call, InRange 0 ((extent 0 size "malloc").pageAlignedLength P) call.start →
      mbind call = false) :
    m.exec (weightedAdaptiveMode P mbind table.records) (.malloc size 0 brk) =
      .error (.died "mbind interleave failed") := by
  have houtside : (heapUpTo heap brk).contains 0 = false := by
    have hpos : 0 < heap.startAddress.toNat := Nat.pos_of_ne_zero fun hzero =>
      hstart (BitVec.eq_of_toNat_eq hzero)
    rw [MemorySegment.contains_eq_false_iff]
    exact Or.inl hpos
  have hdown : P.alignDown 0 = 0 := by simp [PageSize.alignDown]
  have hdied : (weightedAdaptiveMode P mbind table.records).processSegmentAddition
      (extent 0 size "malloc") = some "mbind interleave failed" :=
    weightedAdaptiveMode_refused "malloc" hsorted hcount hlarge (by simpa using hfit)
      (by rwa [hdown])
  have hedit : ((Call.malloc size 0 brk).edit heap).inserts = some (extent 0 size "malloc") := by
    change (if (heapUpTo heap brk).contains 0 then none else _) = _
    rw [houtside]
    rfl
  rw [MemoryMap.exec_eq _ hheap, MemoryMap.perform, hedit, Option.bind_some, hdied]
  rfl

/-- A failed allocation is tracked as a segment at the null pointer, and in the weighted adaptive
mode it stops the process. -/
theorem failed_malloc_tracked_or_fatal :
    (Call.malloc 0x200000 0 0x1021000).Failed ∧
    ¬ FailureAtomic ⟨fun _ => none⟩ smallProcess (.malloc 0x200000 0 0x1021000) ∧
    smallProcess.exec (weightedAdaptiveMode ⟨12, by decide⟩ (fun call => 0x400000 ≤ call.start)
      WeightTable.twoNodeTable.records) (.malloc 0x200000 0 0x1021000) =
        .error (.died "mbind interleave failed") := by
  have hunreached : ¬ HeapReaches smallProcess 0x1021000 0 := by
    intro h
    obtain ⟨heap, hheap, hcontains⟩ := h
    rw [← Option.some.inj (show some smallHeap = some heap from hheap)] at hcontains
    exact absurd hcontains (by decide)
  have hlength : (extent 0 0x200000 "malloc").pageAlignedLength ⟨12, by decide⟩ = 0x200000 := by
    decide
  refine ⟨⟨by decide, rfl⟩, ?_, ?_⟩
  · rw [failureAtomic_iff_heapReaches (extent 0 0x200000 "malloc") rfl fun heap => rfl]
    exact hunreached
  · apply failed_malloc_dies WeightTable.twoNodeTable_ascending (by decide)
      rfl (by decide) (by decide) (by decide)
    intro call hcall
    have hzero : call.start - 0 = call.start := BitVec.sub_zero _
    rw [hlength, InRange, hzero, BitVec.lt_def] at hcall
    rw [decide_eq_false_iff_not, BitVec.le_def]
    have hbound : (0x200000 : Word).toNat < (0x400000 : Word).toNat := by decide
    omega

end Bwap
