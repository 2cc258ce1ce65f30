import Bwap.Memory.MapsLine
import Bwap.Memory.MemoryMap

/-!
# Building the map

The constructor reads the maps file line by line. It keeps the heap, the stack, the mapping
that contains the end of the text, the one that contains the end of the initialised data and
the mappings without a name, and it announces all of them but the stack. Afterwards each of
the four pointers must have been set.
-/

namespace Bwap

open Common

/-- The map under construction; a pointer that was not set yet is null. -/
structure MapBuilder where
  segments : NodeList MemorySegment
  heap : Option ℕ
  stack : Option ℕ
  text : Option ℕ
  data : Option ℕ
  notices : List Notice

namespace MapBuilder

/-- Before the first line. -/
def empty : MapBuilder := ⟨NodeList.empty, none, none, none, none, []⟩

/-- Append a segment under a new name. -/
def emplaceBack (b : MapBuilder) (s : MemorySegment) (name : String) : MapBuilder :=
  { b with segments := b.segments.pushBack { s with name := name } }

/-- Announce a segment to the mode. -/
def announce (mode : Mode) (b : MapBuilder) (s : MemorySegment) (name : String) :
    Except Fault MapBuilder :=
  match mode.processSegmentAddition { s with name := name } with
  | some message => .error (.died message)
  | none => .ok { b with notices := b.notices ++ [.added { s with name := name }] }

/-- The classification of a parsed line. The symbols are declared as pointers, so that one
element before them is eight bytes before them. -/
def addSegment (mode : Mode) (etext edata : Word) (b : MapBuilder) (s : MemorySegment) :
    Except Fault MapBuilder :=
  if s.name = "[heap]" then
    { b.emplaceBack s "heap" with heap := some b.segments.fresh }.announce mode s "heap"
  else if s.name = "[stack]" then
    .ok { b.emplaceBack s "stack" with stack := some b.segments.fresh }
  else if s.contains (etext - 8) then
    { b.emplaceBack s "text" with text := some b.segments.fresh }.announce mode s "text"
  else if s.contains (edata - 8) then
    { b.emplaceBack s "data" with data := some b.segments.fresh }.announce mode s "data"
  else if s.name = "" then (b.emplaceBack s "anonymous").announce mode s "anonymous"
  else .ok b

/-- One pass of the loop over the lines. -/
def addLine (mode : Mode) (etext edata : Word) (b : MapBuilder) (line : List Char) :
    Except Fault MapBuilder := do
  let s ← MemorySegment.ofLine line
  b.addSegment mode etext edata s

/-- The loop over the lines. -/
def addLines (mode : Mode) (etext edata : Word) (b : MapBuilder) :
    List (List Char) → Except Fault MapBuilder
  | [] => .ok b
  | line :: lines => do
    let b ← b.addLine mode etext edata line
    b.addLines mode etext edata lines

/-- The checks after the loop. -/
def finish (b : MapBuilder) : Except Fault MemoryMap :=
  match b.heap, b.stack, b.text, b.data with
  | none, _, _, _ => .error (.died "didnt find the heap!")
  | some _, none, _, _ => .error (.died "didnt find the stack!")
  | some _, some _, none, _ => .error (.died "didnt find the text segment!")
  | some _, some _, some _, none => .error (.died "didnt find the data segment!")
  | some heap, some stack, some text, some data =>
    .ok ⟨b.segments, heap, stack, text, data, b.notices⟩

end MapBuilder

/-- The constructor `MemoryMap::MemoryMap`, on the lines of the maps file. -/
def MemoryMap.ofMaps (mode : Mode) (etext edata : Word) (lines : List (List Char)) :
    Except Fault MemoryMap := do
  let b ← MapBuilder.empty.addLines mode etext edata lines
  b.finish

/-- The maps file of the small process. -/
def smallProcessLines : List (List Char) :=
  ["00400000-00401000 r-xp 00000000 00:01 7    /bin/a\n".toList,
    "00600000-00601000 rw-p 00000000 00:01 7    /bin/a\n".toList,
    "01000000-01021000 rw-p 00000000 00:00 0    [heap]\n".toList,
    "7ffffffde000-7ffffffff000 rw-p 00000000 00:00 0    [stack]\n".toList]

/-- The constructor builds the map of the small process from its maps file. -/
theorem ofMaps_smallProcess :
    MemoryMap.ofMaps ⟨fun _ => none⟩ 0x400800 0x600808 smallProcessLines = .ok smallProcess := by
  rfl

end Bwap
