import Bwap.Common.Fallible
import Bwap.Common.NodeList
import Bwap.Memory.Segment

/-!
# The memory map and its handlers

The map owns a list of segments and four pointers into it. A handler calls the wrapped
libc or kernel function, rereads the program break where its own code does, and edits the
list; each edit is announced to the mode. What the wrapped call answered and what `sbrk(0)`
returned afterwards are arguments of the handler, so that every outcome of the environment
is a choice of arguments. A handler that follows a pointer to a deleted node, or whose mode
stops the process, does not return.
-/

namespace Bwap

open Common

/-- A callback to the mode. -/
inductive Notice
  | added (segment : MemorySegment)
  | removed (segment : MemorySegment)
deriving DecidableEq, Repr

/-- What the handlers use of the selected mode: `processSegmentAddition` returns, or a check in
it ends the process with a message. `processSegmentRemoval` is the empty default in every mode. -/
structure Mode where
  processSegmentAddition : MemorySegment → Option String

/-- `MemoryMap`: the segment list, the four pointers into it, and the callbacks made so far. -/
structure MemoryMap where
  segments : NodeList MemorySegment
  heap : ℕ
  stack : ℕ
  text : ℕ
  data : ℕ
  notices : List Notice

namespace MemoryMap

/-- Follow a pointer into the list. -/
def deref (m : MemoryMap) (node : ℕ) : Except Fault MemorySegment :=
  match m.segments.get? node with
  | some segment => .ok segment
  | none => .error .danglingNode

/-- Write the end address of the heap segment. -/
def setHeapEnd (m : MemoryMap) (brk : Word) : MemoryMap :=
  { m with segments := m.segments.modify m.heap fun s => { s with endAddress := brk } }

/-- `updateHeap`: the end of the heap follows the program break `sbrk(0)`. -/
def updateHeap (m : MemoryMap) (brk : Word) : Except Fault MemoryMap := do
  let heap ← m.deref m.heap
  if heap.endAddress ≠ brk then return m.setHeapEnd brk
  else return m

/-- The test `_heap->contains(addr)`. -/
def heapContains (m : MemoryMap) (addr : Word) : Except Fault Bool := do
  let heap ← m.deref m.heap
  return heap.contains addr

/-- The list with a segment appended and announced. -/
def appendSegment (m : MemoryMap) (segment : MemorySegment) : MemoryMap :=
  { m with
    segments := m.segments.pushBack segment
    notices := m.notices ++ [.added segment] }

/-- The locked section that appends a segment and announces it to the mode. -/
def insertSegment (mode : Mode) (m : MemoryMap) (segment : MemorySegment) :
    Except Fault MemoryMap :=
  match mode.processSegmentAddition segment with
  | some message => .error (.died message)
  | none => .ok (m.appendSegment segment)

/-- The locked section that removes and announces every segment containing an address. -/
def removeSegments (m : MemoryMap) (addr : Word) : MemoryMap :=
  { m with
    segments := m.segments.removeIf fun s => s.contains addr
    notices := m.notices ++ (m.segments.values.filter fun s => s.contains addr).map .removed }

/-- What `handle_malloc`, `handle_calloc` and `handle_posix_memalign` do with the bytes they got:
reread the break, then insert a segment unless the start lies in the heap. -/
def trackAllocation (mode : Mode) (m : MemoryMap) (segment : MemorySegment) (brk : Word) :
    Except Fault MemoryMap := do
  let m ← m.updateHeap brk
  let isInHeap ← m.heapContains segment.startAddress
  if isInHeap then return m
  else m.insertSegment mode segment

/-- `handle_malloc`, where `malloc` returned `result`. -/
def handleMalloc (mode : Mode) (m : MemoryMap) (size result brk : Word) :
    Except Fault (Word × MemoryMap) := do
  let m ← m.trackAllocation mode (extent result size "malloc") brk
  return (result, m)

/-- `handle_calloc`, where `calloc` returned `result`. -/
def handleCalloc (mode : Mode) (m : MemoryMap) (nmemb size result brk : Word) :
    Except Fault (Word × MemoryMap) := do
  let m ← m.trackAllocation mode (extent result (nmemb * size) "calloc") brk
  return (result, m)

/-- `handle_posix_memalign`, where `posix_memalign` returned `result` and left `memptr` in the
caller's pointer. -/
def handlePosixMemalign (mode : Mode) (m : MemoryMap) (size memptr : Word) (result : ℤ)
    (brk : Word) : Except Fault (ℤ × MemoryMap) := do
  let m ← m.trackAllocation mode (extent memptr size "posix_memalign") brk
  return (result, m)

/-- `handle_realloc`, where `realloc` returned `result`: the old block is classified before the
call against the break as last read, the new one after it. -/
def handleRealloc (mode : Mode) (m : MemoryMap) (ptr size result brk : Word) :
    Except Fault (Word × MemoryMap) := do
  let wasInHeap ← m.heapContains ptr
  let m ← m.updateHeap brk
  let isInHeap ← m.heapContains result
  let m := if wasInHeap then m else m.removeSegments ptr
  if isInHeap then return (result, m)
  else
    let m ← m.insertSegment mode (extent result size "realloc")
    return (result, m)

/-- `handle_free`: the block is classified against the break as last read. -/
def handleFree (m : MemoryMap) (ptr brk : Word) : Except Fault MemoryMap := do
  let wasInHeap ← m.heapContains ptr
  if wasInHeap then m.updateHeap brk
  else return m.removeSegments ptr

/-- `handle_mmap`, where `mmap` returned `result`. -/
def handleMmap (mode : Mode) (m : MemoryMap) (length result : Word) :
    Except Fault (Word × MemoryMap) := do
  let m ← m.insertSegment mode (extent result length "mmap")
  return (result, m)

/-- `handle_munmap`, where `munmap` returned `result`; the length does not enter the removal. -/
def handleMunmap (m : MemoryMap) (addr _length : Word) (result : ℤ) : ℤ × MemoryMap :=
  (result, m.removeSegments addr)

end MemoryMap

/-- What a handler hands back to the application. -/
inductive Answer
  | pointer (address : Word)
  | code (value : ℤ)
  | unit
deriving DecidableEq, Repr

/-- A handled call with its arguments and what its environment answered. -/
inductive Call
  | malloc (size result brk : Word)
  | calloc (nmemb size result brk : Word)
  | realloc (ptr size result brk : Word)
  | free (ptr brk : Word)
  | posixMemalign (size memptr : Word) (result : ℤ) (brk : Word)
  | mmap (length result : Word)
  | munmap (addr length : Word) (result : ℤ)
deriving DecidableEq, Repr

/-- What the wrapped function answered. -/
def Call.answer : Call → Answer
  | .malloc _ result _ => .pointer result
  | .calloc _ _ result _ => .pointer result
  | .realloc _ _ result _ => .pointer result
  | .free _ _ => .unit
  | .posixMemalign _ _ result _ => .code result
  | .mmap _ result => .pointer result
  | .munmap _ _ result => .code result

/-- The handlers that follow the heap pointer. -/
def Call.usesHeap : Call → Bool
  | .mmap _ _ => false
  | .munmap _ _ _ => false
  | _ => true

namespace MemoryMap

/-- Run the handler of a call. -/
def exec (mode : Mode) (m : MemoryMap) : Call → Except Fault (Answer × MemoryMap)
  | .malloc size result brk =>
    (m.handleMalloc mode size result brk).map fun r => (.pointer r.1, r.2)
  | .calloc nmemb size result brk =>
    (m.handleCalloc mode nmemb size result brk).map fun r => (.pointer r.1, r.2)
  | .realloc ptr size result brk =>
    (m.handleRealloc mode ptr size result brk).map fun r => (.pointer r.1, r.2)
  | .free ptr brk => (m.handleFree ptr brk).map fun r => (.unit, r)
  | .posixMemalign size memptr result brk =>
    (m.handlePosixMemalign mode size memptr result brk).map fun r => (.code r.1, r.2)
  | .mmap length result => (m.handleMmap mode length result).map fun r => (.pointer r.1, r.2)
  | .munmap addr length result =>
    .ok (.code (m.handleMunmap addr length result).1, (m.handleMunmap addr length result).2)

/-! ## Reading the list -/

/-- The segment the heap pointer leads to, if its node is still there. -/
def heapSegment? (m : MemoryMap) : Option MemorySegment := m.segments.get? m.heap

/-- The heap pointer is live, and the heap contains an address as it was last read. -/
def HeapHolds (m : MemoryMap) (addr : Word) : Prop :=
  ∃ heap, m.heapSegment? = some heap ∧ heap.contains addr = true

/-- The segments other than the heap, in list order. -/
def others (m : MemoryMap) : List MemorySegment :=
  m.segments.valuesWhere fun node => node != m.heap

/-- The segments inserted after the list had given out a number of handles. -/
def insertedSince (m : MemoryMap) (fresh : ℕ) : List MemorySegment :=
  m.segments.valuesWhere fun node => decide (fresh ≤ node)

end MemoryMap

/-! ## Handlers as edits -/

/-- The heap segment once its end follows the program break. -/
def heapUpTo (heap : MemorySegment) (brk : Word) : MemorySegment := { heap with endAddress := brk }

/-- What one handler does to the list, in this order: it moves the end of the heap, removes the
segments containing an address, and appends a segment. -/
structure Edit where
  rereads : Option Word
  removes : Option Word
  inserts : Option MemorySegment

/-- The segment an allocation inserts, which is none when it starts in the heap. -/
def outsideHeap (heap segment : MemorySegment) : Option MemorySegment :=
  if heap.contains segment.startAddress then none else some segment

/-- The edit a call makes when the heap pointer leads to `heap`. -/
def Call.edit (heap : MemorySegment) : Call → Edit
  | .malloc size result brk =>
    ⟨some brk, none, outsideHeap (heapUpTo heap brk) (extent result size "malloc")⟩
  | .calloc nmemb size result brk =>
    ⟨some brk, none, outsideHeap (heapUpTo heap brk) (extent result (nmemb * size) "calloc")⟩
  | .realloc ptr size result brk =>
    ⟨some brk, if heap.contains ptr then none else some ptr,
      outsideHeap (heapUpTo heap brk) (extent result size "realloc")⟩
  | .free ptr brk => if heap.contains ptr then ⟨some brk, none, none⟩ else ⟨none, some ptr, none⟩
  | .posixMemalign size memptr _ brk =>
    ⟨some brk, none, outsideHeap (heapUpTo heap brk) (extent memptr size "posix_memalign")⟩
  | .mmap length result => ⟨none, none, some (extent result length "mmap")⟩
  | .munmap addr _ _ => ⟨none, some addr, none⟩

namespace MemoryMap

/-- Move the end of the heap if the edit does. -/
def reread (m : MemoryMap) : Option Word → MemoryMap
  | none => m
  | some brk => m.setHeapEnd brk

/-- Remove the segments containing an address if the edit does. -/
def scan (m : MemoryMap) : Option Word → MemoryMap
  | none => m
  | some addr => m.removeSegments addr

/-- Append a segment if the edit does. -/
def append (m : MemoryMap) : Option MemorySegment → MemoryMap
  | none => m
  | some segment => m.appendSegment segment

/-- The map after an edit. -/
def applyEdit (m : MemoryMap) (e : Edit) : MemoryMap :=
  ((m.reread e.rereads).scan e.removes).append e.inserts

/-- Perform an edit, unless the mode stops the process over the segment it inserts. -/
def perform (mode : Mode) (m : MemoryMap) (e : Edit) : Except Fault MemoryMap :=
  match e.inserts.bind mode.processSegmentAddition with
  | some message => .error (.died message)
  | none => .ok (m.applyEdit e)

@[simp] theorem reread_none (m : MemoryMap) : m.reread none = m := rfl

@[simp] theorem reread_some (m : MemoryMap) (brk : Word) : m.reread (some brk) = m.setHeapEnd brk :=
  rfl

@[simp] theorem scan_none (m : MemoryMap) : m.scan none = m := rfl

@[simp] theorem scan_some (m : MemoryMap) (addr : Word) :
    m.scan (some addr) = m.removeSegments addr := rfl

@[simp] theorem append_none (m : MemoryMap) : m.append none = m := rfl

@[simp] theorem append_some (m : MemoryMap) (segment : MemorySegment) :
    m.append (some segment) = m.appendSegment segment := rfl

/-- Neither moving the end of the heap nor removing segments gives out a handle. -/
@[simp] theorem fresh_scan_reread (m : MemoryMap) (rereads removes : Option Word) :
    ((m.reread rereads).scan removes).segments.fresh = m.segments.fresh := by
  cases rereads <;> cases removes <;> rfl

section Spec

variable {m : MemoryMap} {heap : MemorySegment}

/-- Following a live pointer. -/
theorem deref_eq {node : ℕ} {segment : MemorySegment} (h : m.segments.get? node = some segment) :
    m.deref node = .ok segment := by
  simp [deref, h]

/-- A handler that follows a dead heap pointer does not return. -/
theorem exec_eq_dangling (mode : Mode) (hdead : m.heapSegment? = none) {call : Call}
    (huses : call.usesHeap = true) : m.exec mode call = .error .danglingNode := by
  have hderef : m.deref m.heap = .error .danglingNode := by
    unfold deref
    rw [show m.segments.get? m.heap = none from hdead]
  cases call with
  | mmap length result => exact absurd huses Bool.false_ne_true
  | munmap addr length result => exact absurd huses Bool.false_ne_true
  | _ =>
    simp [exec, handleMalloc, handleCalloc, handleRealloc, handleFree, handlePosixMemalign,
      trackAllocation, updateHeap, heapContains, hderef, Except.map]

/-- Writing the end the heap already has changes nothing. -/
theorem setHeapEnd_eq_self (m : MemoryMap) {brk : Word}
    (hend : ∀ heap, m.heapSegment? = some heap → heap.endAddress = brk) : m.setHeapEnd brk = m := by
  rw [setHeapEnd, NodeList.modify_eq_self]
  intro heap hheap
  rw [← hend heap hheap]

/-- With a live heap pointer, the heap ends at the break after `updateHeap`. -/
theorem updateHeap_eq (h : m.heapSegment? = some heap) (brk : Word) :
    m.updateHeap brk = .ok (m.setHeapEnd brk) := by
  simp only [updateHeap, deref_eq h, ok_bind, pure_eq_ok]
  split_ifs with hend
  · rfl
  · rw [m.setHeapEnd_eq_self fun s hs => by rw [Option.some.inj (hs.symm.trans h), not_not.mp hend]]

/-- With a live heap pointer, the heap test reads its segment. -/
theorem heapContains_eq (h : m.heapSegment? = some heap) (addr : Word) :
    m.heapContains addr = .ok (heap.contains addr) := by
  simp [heapContains, deref_eq h]

/-- The heap pointer leads to the heap with its new end. -/
theorem heapSegment?_setHeapEnd (h : m.heapSegment? = some heap) (brk : Word) :
    (m.setHeapEnd brk).heapSegment? = some (heapUpTo heap brk) :=
  NodeList.get?_modify_self _ _ h

/-- An edit that inserts what lies outside the heap either stops there or inserts. -/
theorem perform_outsideHeap (mode : Mode) (m : MemoryMap) (heap segment : MemorySegment)
    (rereads removes : Option Word) :
    m.perform mode ⟨rereads, removes, outsideHeap heap segment⟩ =
      if heap.contains segment.startAddress then .ok ((m.reread rereads).scan removes)
      else ((m.reread rereads).scan removes).insertSegment mode segment := by
  unfold outsideHeap
  split_ifs <;> rfl

/-- Tracking an allocation: only a start outside the heap inserts a segment. -/
theorem trackAllocation_eq (mode : Mode) (h : m.heapSegment? = some heap)
    (segment : MemorySegment) (brk : Word) :
    m.trackAllocation mode segment brk =
      m.perform mode ⟨some brk, none, outsideHeap (heapUpTo heap brk) segment⟩ := by
  simp only [trackAllocation, updateHeap_eq h, ok_bind,
    heapContains_eq (heapSegment?_setHeapEnd h brk), perform_outsideHeap]
  rfl

/-- Releasing a block: a heap block rereads the break, any other one removes segments. -/
theorem handleFree_eq (mode : Mode) (h : m.heapSegment? = some heap) (ptr brk : Word) :
    m.handleFree ptr brk = m.perform mode ((Call.free ptr brk).edit heap) := by
  simp only [handleFree, heapContains_eq h, ok_bind, updateHeap_eq h, Call.edit]
  split_ifs <;> rfl

/-- Reallocating: the removal of the old block and the insertion of the new one are decided
independently of each other. -/
theorem handleRealloc_eq (mode : Mode) (h : m.heapSegment? = some heap)
    (ptr size result brk : Word) :
    m.handleRealloc mode ptr size result brk =
      (m.perform mode ((Call.realloc ptr size result brk).edit heap)).map (result, ·) := by
  simp only [handleRealloc, heapContains_eq h, ok_bind, updateHeap_eq h,
    heapContains_eq (heapSegment?_setHeapEnd h brk), Call.edit, perform_outsideHeap]
  change (if (heapUpTo heap brk).contains result then _ else _) =
    (if (heapUpTo heap brk).contains result then _ else _ : Except Fault MemoryMap).map (result, ·)
  split_ifs <;> simp only [Except.map, scan] <;> rfl

/-- `handle_mmap` performs its edit whatever the heap pointer leads to. -/
theorem exec_mmap (mode : Mode) (m : MemoryMap) (length result : Word) :
    m.exec mode (.mmap length result) =
      (m.perform mode ⟨none, none, some (extent result length "mmap")⟩).map
        (.pointer result, ·) := by
  simp only [exec, handleMmap, insertSegment, perform, Option.bind_some]
  split <;> rfl

/-- `handle_munmap` performs its edit whatever the heap pointer leads to. -/
theorem exec_munmap (mode : Mode) (m : MemoryMap) (addr length : Word) (result : ℤ) :
    m.exec mode (.munmap addr length result) =
      (m.perform mode ⟨none, some addr, none⟩).map (.code result, ·) := rfl

/-- A handler performs its edit and hands back what the wrapped function answered. -/
theorem exec_eq (mode : Mode) (h : m.heapSegment? = some heap) (call : Call) :
    m.exec mode call = (m.perform mode (call.edit heap)).map (call.answer, ·) := by
  cases call with
  | malloc size result brk =>
    simp only [exec, handleMalloc, trackAllocation_eq mode h]
    change Except.map _ (m.perform mode ((Call.malloc size result brk).edit heap) >>= _) = _
    cases m.perform mode ((Call.malloc size result brk).edit heap) <;> rfl
  | calloc nmemb size result brk =>
    simp only [exec, handleCalloc, trackAllocation_eq mode h]
    change Except.map _ (m.perform mode ((Call.calloc nmemb size result brk).edit heap) >>= _) = _
    cases m.perform mode ((Call.calloc nmemb size result brk).edit heap) <;> rfl
  | realloc ptr size result brk =>
    simp only [exec, handleRealloc_eq mode h]
    cases m.perform mode ((Call.realloc ptr size result brk).edit heap) <;> rfl
  | free ptr brk =>
    simp only [exec, handleFree_eq mode h]
    rfl
  | posixMemalign size memptr result brk =>
    simp only [exec, handlePosixMemalign, trackAllocation_eq mode h]
    change Except.map _ (m.perform mode ((Call.posixMemalign size memptr result brk).edit heap) >>=
      _) = _
    cases m.perform mode ((Call.posixMemalign size memptr result brk).edit heap) <;> rfl
  | mmap length result => exact exec_mmap mode m length result
  | munmap addr length result => rfl

/-- A call that returns hands back the environment's answer, leaves the edited map behind, and
the mode accepted what was inserted. -/
theorem exec_eq_ok_iff (mode : Mode) (h : m.heapSegment? = some heap) (call : Call)
    (answer : Answer) (m' : MemoryMap) :
    m.exec mode call = .ok (answer, m') ↔
      answer = call.answer ∧ m' = m.applyEdit (call.edit heap) ∧
        (call.edit heap).inserts.bind mode.processSegmentAddition = none := by
  rw [exec_eq mode h, perform]
  cases hmode : (call.edit heap).inserts.bind mode.processSegmentAddition with
  | some message => simp [Except.map]
  | none => simp [Except.map, eq_comm]

/-- An insertion that returns was accepted by the mode and appended its segment. -/
theorem insertSegment_eq_ok {mode : Mode} {segment : MemorySegment} {m' : MemoryMap}
    (h : m.insertSegment mode segment = .ok m') :
    mode.processSegmentAddition segment = none ∧ m' = m.appendSegment segment := by
  unfold insertSegment at h
  cases hmode : mode.processSegmentAddition segment with
  | some message => simp [hmode] at h
  | none =>
    simp only [hmode, Except.ok.injEq] at h
    exact ⟨rfl, h.symm⟩

/-- An `mmap` that returns was accepted by the mode and appended its segment. -/
theorem exec_mmap_eq_ok {mode : Mode} {length result : Word} {answer : Answer} {m' : MemoryMap}
    (h : m.exec mode (.mmap length result) = .ok (answer, m')) :
    mode.processSegmentAddition (extent result length "mmap") = none ∧
      m' = m.appendSegment (extent result length "mmap") := by
  rw [exec_mmap, perform, Option.bind_some] at h
  cases hmode : mode.processSegmentAddition (extent result length "mmap") with
  | some message => simp [hmode, Except.map] at h
  | none =>
    simp only [hmode, Except.map, Except.ok.injEq, Prod.mk.injEq] at h
    exact ⟨rfl, h.2.symm⟩

/-- An `munmap` removes the segments that contain its address. -/
theorem exec_munmap_eq_ok {mode : Mode} {addr length : Word} {result : ℤ} {answer : Answer}
    {m' : MemoryMap} (h : m.exec mode (.munmap addr length result) = .ok (answer, m')) :
    m' = m.removeSegments addr := by
  rw [exec, Except.ok.injEq, Prod.mk.injEq] at h
  exact h.2.symm

/-! ## What an edit changes -/

/-- All segments are the heap and the others. -/
theorem values_perm (h : m.heapSegment? = some heap) :
    m.segments.values.Perm (heap :: m.others) :=
  m.segments.values_perm h

@[simp] theorem others_setHeapEnd (m : MemoryMap) (brk : Word) :
    (m.setHeapEnd brk).others = m.others :=
  NodeList.valuesWhere_modify (fun node => node != m.heap) m.segments m.heap _ (by simp)

@[simp] theorem others_removeSegments (m : MemoryMap) (addr : Word) :
    (m.removeSegments addr).others = m.others.filter fun s => !s.contains addr :=
  NodeList.valuesWhere_removeIf (fun node => node != m.heap) m.segments fun s => s.contains addr

/-- An appended segment is not the heap. -/
theorem others_appendSegment (h : m.heapSegment? = some heap) (segment : MemorySegment) :
    (m.appendSegment segment).others = m.others ++ [segment] := by
  have hlive : m.heap < m.segments.fresh :=
    m.segments.lt_fresh_of_mem ((m.segments.mem_handles_iff m.heap).mpr ⟨heap, h⟩)
  have hnew : (m.segments.fresh != m.heap) = true := bne_iff_ne.mpr (by omega)
  rw [others, appendSegment, NodeList.valuesWhere_pushBack]
  simp [others, hnew]

/-- An edit announces what its scan removes and then what it inserts. -/
theorem notices_applyEdit (m : MemoryMap) (e : Edit) :
    (m.applyEdit e).notices = m.notices ++
      (e.removes.toList.flatMap fun addr =>
        ((m.reread e.rereads).segments.values.filter fun s => s.contains addr).map .removed) ++
      e.inserts.toList.map .added := by
  obtain ⟨rereads, removes, inserts⟩ := e
  cases rereads <;> cases removes <;> cases inserts <;>
    simp [applyEdit, appendSegment, removeSegments, setHeapEnd]

/-- A segment appended since then is counted. -/
theorem insertedSince_appendSegment {fresh : ℕ} (h : fresh ≤ m.segments.fresh)
    (segment : MemorySegment) :
    (m.appendSegment segment).insertedSince fresh = m.insertedSince fresh ++ [segment] := by
  rw [insertedSince, appendSegment, NodeList.valuesWhere_pushBack]
  simp [insertedSince, h]

@[simp] theorem insertedSince_removeSegments (m : MemoryMap) (fresh : ℕ) (addr : Word) :
    (m.removeSegments addr).insertedSince fresh =
      (m.insertedSince fresh).filter fun s => !s.contains addr :=
  NodeList.valuesWhere_removeIf _ m.segments fun s => s.contains addr

/-- Before any insertion nothing is counted. -/
theorem insertedSince_fresh (m : MemoryMap) : m.insertedSince m.segments.fresh = [] := by
  rw [insertedSince, NodeList.valuesWhere, List.map_eq_nil_iff, List.filter_eq_nil_iff]
  intro node hnode
  have hold := m.segments.bounded node hnode
  simp only [decide_eq_true_eq]
  omega

/-- What an edit has inserted is counted from the handle the list would give out next. -/
theorem insertedSince_applyEdit (m : MemoryMap) (e : Edit) :
    (m.applyEdit e).insertedSince m.segments.fresh = e.inserts.toList := by
  have hnone : ((m.reread e.rereads).scan e.removes).insertedSince m.segments.fresh = [] := by
    rw [← fresh_scan_reread m e.rereads e.removes]
    exact insertedSince_fresh _
  cases hinserts : e.inserts with
  | none => rw [applyEdit, hinserts, append_none, hnone, Option.toList_none]
  | some segment =>
    rw [applyEdit, hinserts, append_some,
      insertedSince_appendSegment (fresh_scan_reread m _ _).ge, hnone, Option.toList_some,
      List.nil_append]

/-- A live node survives a scan exactly when its segment does not contain the address. -/
theorem mem_handles_removeSegments {node : ℕ} (hlive : node ∈ m.segments.handles) (addr : Word) :
    node ∈ (m.removeSegments addr).segments.handles ↔
      (m.segments.get? node).any (fun s => s.contains addr) = false := by
  obtain ⟨s, hs⟩ := (m.segments.mem_handles_iff node).mp hlive
  rw [hs, Option.any_some]
  exact m.segments.mem_handles_removeIf_iff _ hs

/-- A scan that finds no segment changes nothing. -/
theorem removeSegments_eq_self (m : MemoryMap) {addr : Word}
    (h : ∀ s ∈ m.segments.values, s.contains addr = false) : m.removeSegments addr = m := by
  have hnone : m.segments.values.filter (fun s => s.contains addr) = [] := by
    rw [List.filter_eq_nil_iff]
    intro s hs
    simp [h s hs]
  rw [removeSegments, hnone, NodeList.removeIf_eq_self _ _ h]
  simp

/-- The heap survives a scan for an address it does not contain. -/
theorem heapSegment?_removeSegments (h : m.heapSegment? = some heap) {addr : Word}
    (haddr : heap.contains addr = false) : (m.removeSegments addr).heapSegment? = some heap :=
  (NodeList.get?_removeIf_eq_some_iff _ _ _ _).mpr ⟨h, haddr⟩

/-- Appending leaves the heap where it is. -/
theorem heapSegment?_appendSegment (h : m.heapSegment? = some heap) (segment : MemorySegment) :
    (m.appendSegment segment).heapSegment? = some heap := by
  have hlive : m.heap < m.segments.fresh :=
    m.segments.lt_fresh_of_mem ((m.segments.mem_handles_iff m.heap).mpr ⟨heap, h⟩)
  rw [heapSegment?, appendSegment, NodeList.get?_pushBack_of_lt _ _ hlive]
  exact h

end Spec

end MemoryMap

/-! ## A small process -/

/-- The heap of a small process. -/
def smallHeap : MemorySegment := ⟨0x1000000, 0x1020fff, "heap"⟩

/-- The map of a small process: its text, its data, its heap and its stack. -/
def smallProcess : MemoryMap where
  segments := (((NodeList.empty.pushBack ⟨0x400000, 0x400fff, "text"⟩).pushBack
    ⟨0x600000, 0x600fff, "data"⟩).pushBack smallHeap).pushBack
    ⟨0x7ffffffde000, 0x7fffffffefff, "stack"⟩
  text := 0
  data := 1
  heap := 2
  stack := 3
  notices := [.added ⟨0x400000, 0x400fff, "text"⟩, .added ⟨0x600000, 0x600fff, "data"⟩,
    .added smallHeap]

end Bwap
