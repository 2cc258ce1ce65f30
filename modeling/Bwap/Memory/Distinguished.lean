import Bwap.Common.Fallible
import Bwap.Common.Runs
import Bwap.Memory.Blocks
import Bwap.Memory.Startup

/-!
# The distinguished segments

The heap, the stack, the text and the data segment are reached through pointers into the
list. The scans that remove segments do not spare them: a call keeps all four exactly when
its scan, if it makes one, is for an address outside each of them. Frees and reallocations
of blocks that libc handed out scan for no such address, so only `munmap` can.
-/

namespace Bwap

open Common

namespace MemoryMap

/-- The four pointers into the list. -/
def pointers (m : MemoryMap) : List ℕ := [m.heap, m.stack, m.text, m.data]

/-- Each pointer designates an element of the list. -/
def Distinguished (m : MemoryMap) : Prop := ∀ node ∈ m.pointers, node ∈ m.segments.handles

/-- None of the four segments contains an address. -/
def Clear (m : MemoryMap) (addr : Word) : Prop :=
  ∀ node ∈ m.pointers, (m.segments.get? node).any (fun s => s.contains addr) = false

instance (m : MemoryMap) : Decidable m.Distinguished :=
  inferInstanceAs (Decidable (∀ node ∈ m.pointers, node ∈ m.segments.handles))

instance (m : MemoryMap) (addr : Word) : Decidable (m.Clear addr) :=
  inferInstanceAs (Decidable (∀ node ∈ m.pointers,
    (m.segments.get? node).any (fun s => s.contains addr) = false))

/-- The scan of a call, if it makes one, spares the four segments. -/
def Spares (m : MemoryMap) : Call → Prop
  | .free ptr _ => m.HeapHolds ptr ∨ m.Clear ptr
  | .realloc ptr _ _ brk => m.HeapHolds ptr ∨ (m.setHeapEnd brk).Clear ptr
  | .munmap addr _ _ => m.Clear addr
  | _ => True

variable {m : MemoryMap} {heap : MemorySegment}

@[simp] theorem pointers_applyEdit (m : MemoryMap) (e : Edit) :
    (m.applyEdit e).pointers = m.pointers := by
  obtain ⟨rereads, removes, inserts⟩ := e
  cases rereads <;> cases removes <;> cases inserts <;> rfl

@[simp] theorem pointers_reread (m : MemoryMap) (rereads : Option Word) :
    (m.reread rereads).pointers = m.pointers := by
  cases rereads <;> rfl

@[simp] theorem handles_reread (m : MemoryMap) (rereads : Option Word) :
    (m.reread rereads).segments.handles = m.segments.handles := by
  cases rereads with
  | none => rfl
  | some brk => exact NodeList.handles_modify _ _ _

/-- Appending neither ends nor begins the life of an older node. -/
theorem mem_handles_append {node : ℕ} (hold : node < m.segments.fresh)
    (inserts : Option MemorySegment) :
    node ∈ (m.append inserts).segments.handles ↔ node ∈ m.segments.handles := by
  cases inserts with
  | none => rfl
  | some segment =>
    change node ∈ (m.segments.pushBack segment).handles ↔ _
    rw [NodeList.handles_pushBack, List.mem_append, List.mem_singleton]
    exact or_iff_left (by omega)

/-- An edit keeps the four segments exactly when its scan is for an address outside them. -/
theorem distinguished_applyEdit_iff (hm : m.Distinguished) (e : Edit) :
    (m.applyEdit e).Distinguished ↔
      ∀ addr, e.removes = some addr → (m.reread e.rereads).Clear addr := by
  have hlive : ∀ node ∈ m.pointers, node ∈ (m.reread e.rereads).segments.handles := by
    intro node hnode
    rw [handles_reread]
    exact hm node hnode
  have hold : ∀ node ∈ m.pointers,
      node < ((m.reread e.rereads).scan e.removes).segments.fresh := by
    intro node hnode
    have hfresh : ((m.reread e.rereads).scan e.removes).segments.fresh =
        (m.reread e.rereads).segments.fresh := by
      cases e.removes <;> rfl
    rw [hfresh]
    exact (m.reread e.rereads).segments.lt_fresh_of_mem (hlive node hnode)
  have hafter : (m.applyEdit e).Distinguished ↔
      ∀ node ∈ m.pointers, node ∈ ((m.reread e.rereads).scan e.removes).segments.handles := by
    rw [Distinguished, pointers_applyEdit]
    exact forall₂_congr fun node hnode => mem_handles_append (hold node hnode) e.inserts
  rw [hafter]
  cases hremoves : e.removes with
  | none => simpa [Distinguished] using hm
  | some addr =>
    simp only [scan_some, Option.some.injEq, forall_eq', Clear, pointers_reread]
    exact forall₂_congr fun node hnode => mem_handles_removeSegments (hlive node hnode) addr

/-- Distinguished segments include a heap to follow. -/
theorem Distinguished.exists_heap (hm : m.Distinguished) :
    ∃ heap, m.heapSegment? = some heap :=
  (m.segments.mem_handles_iff m.heap).mp (hm m.heap (by simp [pointers]))

/-- While the four pointers are live, no handler follows a pointer to a deleted node. -/
theorem Distinguished.exec_ne_dangling (hm : m.Distinguished) (mode : Mode) (call : Call) :
    m.exec mode call ≠ .error .danglingNode := by
  obtain ⟨heap, hheap⟩ := hm.exists_heap
  rw [exec_eq mode hheap, perform]
  cases (call.edit heap).inserts.bind mode.processSegmentAddition with
  | some message => simp [Except.map]
  | none => simp [Except.map]

/-- The scan a call makes is for an address outside the four segments exactly when it spares
them. -/
theorem spares_iff (hheap : m.heapSegment? = some heap) (call : Call) :
    (∀ addr, (call.edit heap).removes = some addr →
      (m.reread (call.edit heap).rereads).Clear addr) ↔ m.Spares call := by
  cases call with
  | free ptr brk =>
    cases hptr : heap.contains ptr with
    | true => simp [Call.edit, Spares, HeapHolds, hheap, hptr]
    | false => simp [Call.edit, Spares, HeapHolds, hheap, hptr]
  | realloc ptr size result brk =>
    cases hptr : heap.contains ptr with
    | true => simp [Call.edit, Spares, HeapHolds, hheap, hptr]
    | false => simp [Call.edit, Spares, HeapHolds, hheap, hptr]
  | _ => simp [Call.edit, Spares]

end MemoryMap

/-! ## Runs -/

/-- One handler call that returns. -/
def HandlerStep (mode : Mode) (m : MemoryMap) (call : Call) (m' : MemoryMap) : Prop :=
  m.exec mode call = .ok (call.answer, m')

/-- A call keeps the four segments exactly when it spares them. -/
theorem HandlerStep.distinguished_iff {mode : Mode} {m m' : MemoryMap} {call : Call}
    (hstep : HandlerStep mode m call m') (hm : m.Distinguished) :
    m'.Distinguished ↔ m.Spares call := by
  obtain ⟨heap, hheap⟩ := hm.exists_heap
  obtain ⟨-, rfl, -⟩ := (MemoryMap.exec_eq_ok_iff mode hheap call _ _).mp hstep
  rw [MemoryMap.distinguished_applyEdit_iff hm, MemoryMap.spares_iff hheap]

/-! ## The state the constructor builds -/

namespace MapBuilder

/-- The pointers that were set. -/
def pointers (b : MapBuilder) : List ℕ :=
  b.heap.toList ++ b.stack.toList ++ b.text.toList ++ b.data.toList

/-- Each pointer that was set designates an element of the list. -/
def Sound (b : MapBuilder) : Prop := ∀ node ∈ b.pointers, node ∈ b.segments.handles

/-- Appending a segment and letting some of the pointers designate it keeps them sound. -/
theorem Sound.emplaceBack {b b' : MapBuilder} (hb : b.Sound) {s : MemorySegment}
    (hsegments : b'.segments = b.segments.pushBack s)
    (hheap : b'.heap = b.heap ∨ b'.heap = some b.segments.fresh)
    (hstack : b'.stack = b.stack ∨ b'.stack = some b.segments.fresh)
    (htext : b'.text = b.text ∨ b'.text = some b.segments.fresh)
    (hdata : b'.data = b.data ∨ b'.data = some b.segments.fresh) : b'.Sound := by
  intro node hnode
  rw [hsegments, NodeList.handles_pushBack, List.mem_append, List.mem_singleton]
  have hpointers : node ∈ b.pointers ∨ node = b.segments.fresh := by
    simp only [pointers, List.mem_append, Option.mem_toList] at hnode ⊢
    grind
  cases hpointers with
  | inl hold => exact Or.inl (hb node hold)
  | inr hnew => exact Or.inr hnew

/-- Announcing changes neither the list nor the pointers. -/
theorem Sound.announce {mode : Mode} {b b' : MapBuilder} {s : MemorySegment} {name : String}
    (hb : b.Sound) (h : b.announce mode s name = .ok b') : b'.Sound := by
  unfold MapBuilder.announce at h
  split at h
  · exact absurd h (by simp)
  · rw [← Except.ok.inj h]
    exact hb

/-- A parsed line keeps the pointers sound. -/
theorem Sound.addSegment {mode : Mode} {etext edata : Word} {b b' : MapBuilder}
    {s : MemorySegment} (hb : b.Sound) (h : b.addSegment mode etext edata s = .ok b') :
    b'.Sound := by
  unfold MapBuilder.addSegment at h
  split_ifs at h
  · apply Sound.announce _ h
    exact hb.emplaceBack rfl (Or.inr rfl) (Or.inl rfl) (Or.inl rfl) (Or.inl rfl)
  · rw [← Except.ok.inj h]
    exact hb.emplaceBack rfl (Or.inl rfl) (Or.inr rfl) (Or.inl rfl) (Or.inl rfl)
  · apply Sound.announce _ h
    exact hb.emplaceBack rfl (Or.inl rfl) (Or.inl rfl) (Or.inr rfl) (Or.inl rfl)
  · apply Sound.announce _ h
    exact hb.emplaceBack rfl (Or.inl rfl) (Or.inl rfl) (Or.inl rfl) (Or.inr rfl)
  · apply Sound.announce _ h
    exact hb.emplaceBack rfl (Or.inl rfl) (Or.inl rfl) (Or.inl rfl) (Or.inl rfl)
  · rwa [← Except.ok.inj h]

/-- The loop over the lines keeps the pointers sound. -/
theorem Sound.addLines {mode : Mode} {etext edata : Word} {b b' : MapBuilder}
    {lines : List (List Char)} (hb : b.Sound) (h : b.addLines mode etext edata lines = .ok b') :
    b'.Sound := by
  induction lines generalizing b with
  | nil => rwa [← Except.ok.inj h]
  | cons line lines ih =>
    obtain ⟨b₁, hline, hrest⟩ := bind_eq_ok_iff.mp h
    obtain ⟨s, -, hsegment⟩ := bind_eq_ok_iff.mp hline
    exact ih (hb.addSegment hsegment) hrest

end MapBuilder

/-- The checks after the loop leave four pointers that were set. -/
theorem MapBuilder.Sound.finish {b : MapBuilder} {m : MemoryMap} (hb : b.Sound)
    (h : b.finish = .ok m) : m.Distinguished := by
  obtain ⟨segments, heap, stack, text, data, notices⟩ := b
  unfold MapBuilder.finish at h
  split at h
  case h_5 heap stack text data hheap hstack htext hdata =>
    rw [← Except.ok.inj h]
    intro node hnode
    apply hb
    simp only [MemoryMap.pointers, List.mem_cons, List.not_mem_nil, or_false] at hnode
    simp only [MapBuilder.pointers, List.mem_append, Option.mem_toList]
    grind
  all_goals exact absurd h (by simp)

/-- The constructor leaves all four pointers at elements of the list. -/
theorem MemoryMap.ofMaps_distinguished {mode : Mode} {etext edata : Word}
    {lines : List (List Char)} {m : MemoryMap}
    (h : MemoryMap.ofMaps mode etext edata lines = .ok m) : m.Distinguished := by
  obtain ⟨b, hlines, hfinish⟩ := bind_eq_ok_iff.mp h
  have hempty : MapBuilder.empty.Sound := by
    simp [MapBuilder.Sound, MapBuilder.pointers, MapBuilder.empty]
  exact (hempty.addLines hlines).finish hfinish

/-- In a run from the state the constructor builds, the four pointers designate elements of the
list in every state reached if and only if every scan of the run is for an address outside the
four segments. -/
theorem distinguished_throughout_iff (mode : Mode) (etext edata : Word) (lines : List (List Char))
    (m₀ : MemoryMap) (trace : List (Call × MemoryMap))
    (hbuilt : MemoryMap.ofMaps mode etext edata lines = .ok m₀)
    (hrun : Run (HandlerStep mode) m₀ trace) :
    Throughout MemoryMap.Distinguished trace ↔ Guarded MemoryMap.Spares m₀ trace :=
  hrun.throughout_iff_guarded (fun _ hm => hm)
    (fun _ _ _ hm hstep hspares => (hstep.distinguished_iff hm).mpr hspares)
    (fun _ _ _ hm hstep hm' => (hstep.distinguished_iff hm).mp hm')
    (MemoryMap.ofMaps_distinguished hbuilt)

/-- Mapping a page and unmapping it again keeps the four segments of the small process. -/
theorem distinguished_throughout_mmap_munmap :
    let mapped := smallProcess.appendSegment (extent 0x7f0000000000 0x1000 "mmap")
    Throughout MemoryMap.Distinguished
      [(Call.mmap 0x1000 0x7f0000000000, mapped),
        (Call.munmap 0x7f0000000000 0x1000 0, mapped.removeSegments 0x7f0000000000)] := by
  intro mapped
  have hspares : mapped.Clear 0x7f0000000000 := by decide
  have hmmap : HandlerStep ⟨fun _ => none⟩ smallProcess (.mmap 0x1000 0x7f0000000000) mapped := rfl
  have hmunmap : HandlerStep ⟨fun _ => none⟩ mapped (.munmap 0x7f0000000000 0x1000 0)
      (mapped.removeSegments 0x7f0000000000) := rfl
  exact (distinguished_throughout_iff ⟨fun _ => none⟩ 0x400800 0x600808 smallProcessLines
    smallProcess _ ofMaps_smallProcess (.cons hmmap (.cons hmunmap (.nil _)))).mpr
    ⟨trivial, hspares, trivial⟩

/-- Unmapping the first page of the heap deletes the heap's node, and the next allocation follows
a pointer to it. -/
theorem munmap_heap_dangles :
    MemoryMap.ofMaps ⟨fun _ => none⟩ 0x400800 0x600808 smallProcessLines = .ok smallProcess ∧
      Run (HandlerStep ⟨fun _ => none⟩) smallProcess
        [(Call.munmap 0x1000000 0x1000 0, smallProcess.removeSegments 0x1000000)] ∧
      ¬ (smallProcess.removeSegments 0x1000000).Distinguished ∧
      (smallProcess.removeSegments 0x1000000).exec ⟨fun _ => none⟩
        (.malloc 16 0x1001000 0x1021000) = .error .danglingNode := by
  refine ⟨ofMaps_smallProcess, .cons rfl (.nil _), by decide, rfl⟩

/-- A block that libc handed out and that shares no byte with the stack, the text and the data
can be freed and reallocated without deleting a distinguished segment. -/
theorem MemoryMap.spares_release {m : MemoryMap} {heap : MemorySegment} {b : Block} {brk : Word}
    (hheap : m.heapSegment? = some heap) (hplaced : b.Placed heap.startAddress heap.endAddress)
    (hbreak : b.inHeap = false → b.Placed heap.startAddress brk)
    (hapart : ∀ node ∈ m.pointers, node ≠ m.heap →
      ∀ s, m.segments.get? node = some s → Apart b.segment s) :
    m.Spares (.free b.start brk) ∧ ∀ size result, m.Spares (.realloc b.start size result brk) := by
  have hside : heap.contains b.start = b.inHeap := hplaced.heap_contains
  cases hin : b.inHeap with
  | true =>
    have hholds : m.HeapHolds b.start := ⟨heap, hheap, by rw [hside, hin]⟩
    exact ⟨Or.inl hholds, fun _ _ => Or.inl hholds⟩
  | false =>
    have hclear : ∀ node ∈ m.pointers, node ≠ m.heap →
        (m.segments.get? node).any (fun s => s.contains b.start) = false := by
      intro node hnode hne
      cases hget : m.segments.get? node with
      | none => rfl
      | some s => exact hapart node hnode hne s hget _ b.segment_contains_start
    have hnow : m.Clear b.start := by
      intro node hnode
      by_cases hne : node = m.heap
      · rw [hne, show m.segments.get? m.heap = some heap from hheap, Option.any_some, hside, hin]
      · exact hclear node hnode hne
    have hafter : (m.setHeapEnd brk).Clear b.start := by
      intro node hnode
      by_cases hne : node = m.heap
      · rw [hne, show (m.setHeapEnd brk).segments.get? m.heap = some (heapUpTo heap brk) from
          heapSegment?_setHeapEnd hheap brk, Option.any_some, (hbreak hin).heap_contains, hin]
      · rw [show (m.setHeapEnd brk).segments.get? node = m.segments.get? node from
          NodeList.get?_modify_of_ne _ _ hne]
        exact hclear node hnode hne
    exact ⟨Or.inr hnow, fun _ _ => Or.inr hafter⟩

end Bwap
