import Bwap.Memory.Distinguished

/-!
# The end of the heap

A segment ends at its last byte, as the maps file gives it, but a reread of the program break
stores the break itself, which is the first byte after the heap. From then on the heap has one
byte too many: a block placed exactly at the break is taken for a block on the heap, and every
other block is told apart rightly.
-/

namespace Bwap

open Common

/-- The heap segment contains exactly the addresses from its start up to a break. -/
def MemoryMap.HeapIs (m : MemoryMap) (brk : Word) : Prop :=
  ∃ heap, m.heapSegment? = some heap ∧
    ∀ a, heap.contains a = true ↔ heap.startAddress.toNat ≤ a.toNat ∧ a.toNat < brk.toNat

/-- The break that the handler of a call passes to `updateHeap`, if it runs it. -/
def MemoryMap.rereads? (m : MemoryMap) (call : Call) : Option Word :=
  m.heapSegment?.bind fun heap => (call.edit heap).rereads

/-- The block that libc returned for an allocation, with the break reread after it. -/
def Call.returned? : Call → Option (Word × Word)
  | .malloc _ result brk => some (result, brk)
  | .calloc _ _ result brk => some (result, brk)
  | .realloc _ _ result brk => some (result, brk)
  | .posixMemalign _ memptr _ brk => some (memptr, brk)
  | _ => none

/-- The number of bytes that an allocation was asked for. -/
def Call.bytes : Call → ℕ
  | .malloc size _ _ => size.toNat
  | .calloc nmemb size _ _ => nmemb.toNat * size.toNat
  | .realloc _ size _ _ => size.toNat
  | .posixMemalign size _ _ _ => size.toNat
  | _ => 0

/-- After the `updateHeap` of a call, the heap segment ends at the break. -/
def ReadsExactly (m : MemoryMap) (call : Call) : Prop :=
  ∀ brk, m.rereads? call = some brk → ∀ m', m.updateHeap brk = .ok m' → m'.HeapIs brk

/-- A returned block is left out of the list exactly when it starts on the heap. -/
def Classifies (mode : Mode) (m : MemoryMap) (call : Call) : Prop :=
  ∀ heap p brk m', m.heapSegment? = some heap → call.returned? = some (p, brk) →
    HandlerStep mode m call m' →
      (m'.insertedSince m.segments.fresh = [] ↔
        heap.startAddress.toNat ≤ p.toNat ∧ p.toNat < brk.toNat)

/-- The break lies below the heap. -/
def BreakBelowHeap (m : MemoryMap) (call : Call) : Prop :=
  ∀ heap brk, m.heapSegment? = some heap → m.rereads? call = some brk →
    brk.toNat < heap.startAddress.toNat

/-- A returned block does not start at a break that is not below the heap. -/
def OffTheBreak (m : MemoryMap) (call : Call) : Prop :=
  ∀ heap p brk, m.heapSegment? = some heap → call.returned? = some (p, brk) →
    p ≠ brk ∨ brk.toNat < heap.startAddress.toNat

variable {mode : Mode} {m : MemoryMap} {heap : MemorySegment}

/-- The heap up to a break contains the break too. -/
theorem heapUpTo_contains_iff (heap : MemorySegment) (brk a : Word) :
    (heapUpTo heap brk).contains a = true ↔
      heap.startAddress.toNat ≤ a.toNat ∧ a.toNat ≤ brk.toNat :=
  (heapUpTo heap brk).contains_iff a

/-- It has one address too many, unless it is empty. -/
theorem heapIs_updateHeap_iff (hheap : m.heapSegment? = some heap) (brk : Word) :
    (m.setHeapEnd brk).HeapIs brk ↔ brk.toNat < heap.startAddress.toNat := by
  have hafter := MemoryMap.heapSegment?_setHeapEnd hheap brk
  apply Iff.intro
  · intro h
    obtain ⟨heap', hheap', hexact⟩ := h
    obtain rfl := Option.some.inj (hheap'.symm.trans hafter)
    by_contra hle
    have hbreak := (hexact brk).mp ((heapUpTo_contains_iff heap brk brk).mpr ⟨by omega, le_rfl⟩)
    omega
  · intro hbelow
    refine ⟨heapUpTo heap brk, hafter, fun a => ?_⟩
    rw [heapUpTo_contains_iff]
    change _ ↔ heap.startAddress.toNat ≤ a.toNat ∧ a.toNat < brk.toNat
    omega

/-- The heap is read exactly only where the break lies below it. -/
theorem readsExactly_iff (m : MemoryMap) (call : Call) :
    ReadsExactly m call ↔ BreakBelowHeap m call := by
  apply Iff.intro
  · intro h heap brk hheap hrereads
    exact (heapIs_updateHeap_iff hheap brk).mp
      (h brk hrereads _ (MemoryMap.updateHeap_eq hheap brk))
  · intro h brk hrereads m' hupdate
    cases hheap : m.heapSegment? with
    | none => simp [MemoryMap.rereads?, hheap] at hrereads
    | some heap =>
      rw [MemoryMap.updateHeap_eq hheap, Except.ok.injEq] at hupdate
      rw [← hupdate]
      exact (heapIs_updateHeap_iff hheap brk).mpr (h heap brk hheap hrereads)

/-- A segment is left out of the list exactly when the heap contains its start. -/
theorem outsideHeap_eq_none_iff (heap segment : MemorySegment) :
    outsideHeap heap segment = none ↔ heap.contains segment.startAddress = true := by
  unfold outsideHeap
  split_ifs with hinside
  · simp [hinside]
  · simp [hinside]

/-- A returned block is inserted with its extent, unless the heap contains it with its new end. The
number of bytes wraps around. -/
theorem inserts_of_returned {call : Call} {p brk : Word} (heap : MemorySegment)
    (hreturned : call.returned? = some (p, brk)) :
    ∃ size name, size.toNat = call.bytes % 2 ^ 64 ∧
      (call.edit heap).inserts = outsideHeap (heapUpTo heap brk) (extent p size name) := by
  cases call with
  | free ptr brk => simp [Call.returned?] at hreturned
  | mmap length result => simp [Call.returned?] at hreturned
  | munmap addr length result => simp [Call.returned?] at hreturned
  | malloc size result brk =>
    obtain ⟨rfl, rfl⟩ := Prod.mk.inj (Option.some.inj hreturned)
    exact ⟨size, "malloc", (Nat.mod_eq_of_lt size.isLt).symm, rfl⟩
  | calloc nmemb size result brk =>
    obtain ⟨rfl, rfl⟩ := Prod.mk.inj (Option.some.inj hreturned)
    exact ⟨nmemb * size, "calloc", BitVec.toNat_mul nmemb size, rfl⟩
  | realloc ptr size result brk =>
    obtain ⟨rfl, rfl⟩ := Prod.mk.inj (Option.some.inj hreturned)
    exact ⟨size, "realloc", (Nat.mod_eq_of_lt size.isLt).symm, rfl⟩
  | posixMemalign size memptr result brk =>
    obtain ⟨rfl, rfl⟩ := Prod.mk.inj (Option.some.inj hreturned)
    exact ⟨size, "posix_memalign", (Nat.mod_eq_of_lt size.isLt).symm, rfl⟩

/-- A returned block is left out of the list exactly when the heap contains it with its new end. -/
theorem inserts_eq_none_iff {call : Call} {p brk : Word}
    (hreturned : call.returned? = some (p, brk)) :
    (call.edit heap).inserts = none ↔ (heapUpTo heap brk).contains p = true := by
  obtain ⟨size, name, -, hinserts⟩ := inserts_of_returned heap hreturned
  rw [hinserts]
  exact outsideHeap_eq_none_iff _ _

/-- In a step, the returned block is told apart rightly exactly when it does not start at the
break. -/
theorem classifies_iff {call : Call} {m' : MemoryMap} (hstep : HandlerStep mode m call m') :
    Classifies mode m call ↔ OffTheBreak m call := by
  apply Iff.intro
  · intro h heap p brk hheap hreturned
    have hclass := h heap p brk m' hheap hreturned hstep
    obtain ⟨-, rfl, -⟩ := (MemoryMap.exec_eq_ok_iff mode hheap call _ _).mp hstep
    rw [MemoryMap.insertedSince_applyEdit, Option.toList_eq_nil_iff, inserts_eq_none_iff hreturned,
      heapUpTo_contains_iff] at hclass
    by_contra hbad
    push Not at hbad
    obtain ⟨rfl, hle⟩ := hbad
    omega
  · intro h heap p brk m'' hheap hreturned hstep'
    obtain ⟨-, rfl, -⟩ := (MemoryMap.exec_eq_ok_iff mode hheap call _ _).mp hstep'
    rw [MemoryMap.insertedSince_applyEdit, Option.toList_eq_nil_iff, inserts_eq_none_iff hreturned,
      heapUpTo_contains_iff]
    rcases h heap p brk hheap hreturned with hne | hbelow
    · have hword : p.toNat ≠ brk.toNat := fun heq => hne (BitVec.eq_of_toNat_eq heq)
      omega
    · omega

/-- In every run of the handlers, the heap segment is exact after each reread just as long as the
break lies below the heap, and every returned block is told apart rightly just as long as none
of them starts at the break. -/
theorem heap_classification_iff (mode : Mode) (m₀ : MemoryMap) (trace : List (Call × MemoryMap))
    (hrun : Run (HandlerStep mode) m₀ trace) :
    (Guarded ReadsExactly m₀ trace ↔ Guarded BreakBelowHeap m₀ trace) ∧
      (Guarded (Classifies mode) m₀ trace ↔ Guarded OffTheBreak m₀ trace) :=
  ⟨hrun.guarded_congr fun m call _ _ => readsExactly_iff m call,
    hrun.guarded_congr fun _ _ _ hstep => classifies_iff hstep⟩

/-- A block a page below the break is rightly taken for one on the heap. -/
theorem heap_classification_below_break :
    Guarded (Classifies ⟨fun _ => none⟩) smallProcess
      [(Call.malloc 16 0x1020000 0x1021000, smallProcess.setHeapEnd 0x1021000)] := by
  have hstep : HandlerStep ⟨fun _ => none⟩ smallProcess (.malloc 16 0x1020000 0x1021000)
      (smallProcess.setHeapEnd 0x1021000) := rfl
  refine (heap_classification_iff _ _ _ (.cons hstep (.nil _))).2.mpr ⟨?_, trivial⟩
  intro heap p brk _ hreturned
  obtain ⟨rfl, rfl⟩ : (0x1020000 : Word) = p ∧ (0x1021000 : Word) = brk := by
    simpa [Call.returned?] using hreturned
  exact Or.inl (by decide)

/-- A block exactly at the break is taken for one on the heap, and the heap contains the break. -/
theorem heap_classification_at_break :
    MemoryMap.ofMaps ⟨fun _ => none⟩ 0x400800 0x600808 smallProcessLines = .ok smallProcess ∧
      HandlerStep ⟨fun _ => none⟩ smallProcess (.malloc 16 0x1021000 0x1021000)
        (smallProcess.setHeapEnd 0x1021000) ∧
      (smallProcess.setHeapEnd 0x1021000).insertedSince smallProcess.segments.fresh = [] ∧
      ¬ (smallProcess.setHeapEnd 0x1021000).HeapIs 0x1021000 := by
  refine ⟨ofMaps_smallProcess, rfl, by decide, ?_⟩
  rw [heapIs_updateHeap_iff (show smallProcess.heapSegment? = some smallHeap from rfl)]
  decide

end Bwap
