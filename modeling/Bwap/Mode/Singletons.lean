import Bwap.Memory.Startup
import Bwap.Mode.Configuration
import Bwap.Mode.InitialPass

/-!
# The two singletons

`MemoryMap::getInstance` and `Runtime::getInstance` set their pointers only after the constructors
return. The constructor of the map asks the runtime for the mode, and that of the runtime may
start the mode, which may ask for the map. The recursion ends, and both objects exist, except for
the scan mode when it starts by itself: each map then waits for another one.

A thread that a mode starts is recorded and not run. It asks for the map too, perhaps while the
constructor is still at work, and may then build a second one; so what is computed here is what
the library does where no thread is recorded.
-/

namespace Bwap

open Common

/-- Why the objects are not built. The last one stands for a recursion that is too deep. -/
inductive StartFault
  | map (fault : Fault)
  | load (fault : LoadFault)
  | tooDeep
deriving DecidableEq, Repr

/-- The pointers of the two singletons, and the modes whose threads were started. -/
structure Singletons where
  runtime : Option Configuration
  memory : Option MemoryMap
  threads : List ModeName

/-- Before anything is built. -/
def Singletons.start : Singletons := ⟨none, none, []⟩

/-- What building the singletons depends on. -/
structure StartEnv where
  P : PageSize
  mbind : MbindCall → Bool
  nodesInfo : List Record
  config : Except LoadFault Configuration
  etext : Word
  edata : Word
  lines : List (List Char)

/-- `_autostart`. -/
def Configuration.autostart (config : Configuration) : Bool :=
  config.bound "_autostart" == some (.bool true)

/-- The threads that `start` creates. -/
def ModeName.startedThreads : ModeName → List ModeName
  | .adaptive => [.adaptive]
  | .fixed => [.fixed]
  | .wadaptive => [.wadaptive]
  | .disabled | .scan => []

/-- Building the runtime starts no thread: nothing starts by itself, or it is a mode without one. -/
def Configuration.StartsNoThread (config : Configuration) : Prop :=
  config.autostart = true → config.mode.startedThreads = []

/-- After the runtime is built. -/
def Singletons.ready (config : Configuration) : Singletons :=
  ⟨some config, none, if config.autostart then config.mode.startedThreads else []⟩

/-- No thread is recorded exactly when the configuration starts none. -/
theorem Singletons.ready_threads_iff (config : Configuration) :
    (Singletons.ready config).threads = [] ↔ config.StartsNoThread := by
  unfold Singletons.ready Configuration.StartsNoThread
  split_ifs with hauto
  · simp [hauto]
  · simp [hauto]

namespace StartEnv

variable (env : StartEnv)

/-- `processSegmentAddition` of each mode. -/
def callbacks : ModeName → Mode
  | .scan | .wadaptive => weightedAdaptiveMode env.P env.mbind env.nodesInfo
  | .adaptive | .disabled | .fixed => ⟨fun _ => none⟩

/-- A line of the maps file for which the constructor of the map asks the runtime for its mode. -/
def Announced (s : MemorySegment) : Prop :=
  s.name = "[heap]" ∨ s.name ≠ "[stack]" ∧
    (s.contains (env.etext - 8) ∨ s.contains (env.edata - 8) ∨ s.name = "")

instance (s : MemorySegment) : Decidable (env.Announced s) :=
  inferInstanceAs (Decidable (_ ∨ _ ∧ (_ ∨ _ ∨ _)))

section Memory

variable (memory : Singletons → Except StartFault (MemoryMap × Singletons))

/-- `Runtime::startSelectedMode`, and `start` of the mode as far as it runs in the calling thread: a
thread that it creates is recorded. -/
def startSelectedMode (config : Configuration) (s : Singletons) :
    Except StartFault Singletons :=
  match config.mode with
  | .scan => do
    let (segments, s) ← memory s
    if (placeAllWeightedInitial env.P env.mbind env.nodesInfo segments.segments.values).aborted then
      .error (.map (.died "mbind interleave failed"))
    else .ok s
  | mode => .ok { s with threads := s.threads ++ mode.startedThreads }

/-- `Runtime::getInstance`. -/
def runtimeInstance (s : Singletons) : Except StartFault (Configuration × Singletons) :=
  match s.runtime with
  | some config => .ok (config, s)
  | none => do
    let config ← env.config.mapError .load
    let s ← if config.autostart then env.startSelectedMode memory config s else .ok s
    return (config, { s with runtime := some config })

/-- One pass of the loop in the constructor of the map. -/
def mapLine (state : MapBuilder × Singletons) (line : List Char) :
    Except StartFault (MapBuilder × Singletons) := do
  let (b, s) := state
  let segment ← (MemorySegment.ofLine line).mapError .map
  if env.Announced segment then
    let (config, s) ← env.runtimeInstance memory s
    let b ← (b.addSegment (env.callbacks config.mode) env.etext env.edata segment).mapError .map
    return (b, s)
  else
    let b ← (b.addSegment ⟨fun _ => none⟩ env.etext env.edata segment).mapError .map
    return (b, s)

end Memory

/-- `MemoryMap::getInstance`, up to some depth of constructors inside each other. -/
def memoryInstance : ℕ → Singletons → Except StartFault (MemoryMap × Singletons)
  | 0, s =>
    match s.memory with
    | some segments => .ok (segments, s)
    | none => .error .tooDeep
  | depth + 1, s =>
    match s.memory with
    | some segments => .ok (segments, s)
    | none => do
      let (b, s) ← env.lines.foldlM (env.mapLine (memoryInstance depth)) (MapBuilder.empty, s)
      let segments ← b.finish.mapError .map
      return (segments, { s with memory := some segments })

/-- The configuration is loaded, and it does not start the scan mode by itself. -/
def Terminates (config : Configuration) : Prop :=
  env.config = .ok config ∧ ¬(config.autostart = true ∧ config.mode = .scan)

/-! ## One line -/

/-- A line that is not announced is kept for the stack, whatever the mode. -/
theorem addSegment_of_not_announced {b : MapBuilder} {segment : MemorySegment}
    (h : ¬env.Announced segment) (mode : Mode) :
    b.addSegment mode env.etext env.edata segment = .ok (if segment.name = "[stack]" then
      { b.emplaceBack segment "stack" with stack := some b.segments.fresh } else b) := by
  simp only [Announced, not_or, not_and] at h
  unfold MapBuilder.addSegment
  rw [if_neg h.1]
  by_cases hstack : segment.name = "[stack]"
  · rw [if_pos hstack, if_pos hstack]
  · obtain ⟨htext, hdata, hname⟩ := h.2 hstack
    rw [if_neg hstack, if_neg htext, if_neg hdata, if_neg hname, if_neg hstack]

/-- Nor does it set the heap. -/
theorem heap_of_not_announced {b b' : MapBuilder} {segment : MemorySegment} {mode : Mode}
    (h : ¬env.Announced segment) (hadd : b.addSegment mode env.etext env.edata segment = .ok b') :
    b'.heap = b.heap := by
  rw [env.addSegment_of_not_announced h] at hadd
  rw [← Except.ok.inj hadd]
  split_ifs
  · rfl
  · rfl

/-- Building the runtime while there is none, unless that starts the scan mode. -/
theorem runtimeInstance_start {config : Configuration} (hterminates : env.Terminates config)
    (memory : Singletons → Except StartFault (MemoryMap × Singletons)) :
    env.runtimeInstance memory .start = .ok (config, .ready config) := by
  obtain ⟨hload, hmode⟩ := hterminates
  have hstart (hauto : config.autostart = true) : env.startSelectedMode memory config .start =
      .ok ⟨none, none, config.mode.startedThreads⟩ := by
    unfold startSelectedMode
    cases hname : config.mode with
    | scan => exact absurd ⟨hauto, hname⟩ hmode
    | adaptive => rfl
    | disabled => rfl
    | fixed => rfl
    | wadaptive => rfl
  change (env.config.mapError StartFault.load >>= _) = _
  rw [hload]
  cases hauto : config.autostart with
  | false => simp [hauto, Singletons.ready, Singletons.start]
  | true => simp [hauto, hstart hauto, Singletons.ready]

/-- The runtime is there once it is built. -/
theorem runtimeInstance_ready (config : Configuration)
    (memory : Singletons → Except StartFault (MemoryMap × Singletons)) :
    env.runtimeInstance memory (.ready config) = .ok (config, .ready config) := rfl

/-! ## The constructor of the map -/

/-- The checks after the loop fail without a heap. -/
theorem heap_of_finish {b : MapBuilder} {segments : MemoryMap} (h : b.finish = .ok segments) :
    b.heap ≠ none := by
  intro hnone
  rw [MapBuilder.finish, hnone] at h
  exact absurd h (by simp)

section Terminating

variable {env} {config : Configuration} (hterminates : env.Terminates config)
  (memory : Singletons → Except StartFault (MemoryMap × Singletons))

/-- The runtime is built at the first line that is announced, that of the heap at the latest. -/
def InStep (config : Configuration) (b : MapBuilder) (s : Singletons) : Prop :=
  (s = .start ∨ s = .ready config) ∧ (b.heap ≠ none → s = .ready config)

include hterminates

/-- Asking for the runtime during the loop. -/
theorem runtimeInstance_inStep {b : MapBuilder} {s : Singletons} (hs : InStep config b s) :
    env.runtimeInstance memory s = .ok (config, .ready config) := by
  rcases hs.1 with rfl | rfl
  · exact env.runtimeInstance_start hterminates memory
  · exact env.runtimeInstance_ready config memory

/-- A pass does what it does in the mode of the configuration. -/
theorem mapLine_eq {b : MapBuilder} {s : Singletons} (hs : InStep config b s) (line : List Char) :
    ∃ s', env.mapLine memory (b, s) line =
        ((b.addLine (env.callbacks config.mode) env.etext env.edata line).mapError StartFault.map
          >>= fun b' => .ok (b', s')) ∧
      ∀ b', b.addLine (env.callbacks config.mode) env.etext env.edata line = .ok b' →
        InStep config b' s' := by
  unfold mapLine MapBuilder.addLine
  cases hparsed : MemorySegment.ofLine line with
  | error fault => exact ⟨s, rfl, fun b' hb' => absurd hb' (by simp)⟩
  | ok segment =>
    by_cases hannounced : env.Announced segment
    · refine ⟨.ready config, ?_, fun b' _ => ⟨.inr rfl, fun _ => rfl⟩⟩
      simp only [mapError_ok, ok_bind, if_pos hannounced,
        runtimeInstance_inStep hterminates memory hs]
      rfl
    · refine ⟨s, ?_, fun b' hb' => ⟨hs.1, fun hheap => hs.2 ?_⟩⟩
      · simp only [mapError_ok, ok_bind, if_neg hannounced,
          env.addSegment_of_not_announced hannounced]
        rfl
      · rwa [env.heap_of_not_announced hannounced hb'] at hheap

/-- So does the loop. -/
theorem foldlM_mapLine_eq {b : MapBuilder} {s : Singletons} (hs : InStep config b s)
    (lines : List (List Char)) :
    ∃ s', lines.foldlM (env.mapLine memory) (b, s) =
        ((b.addLines (env.callbacks config.mode) env.etext env.edata lines).mapError StartFault.map
          >>= fun b' => .ok (b', s')) ∧
      ∀ b', b.addLines (env.callbacks config.mode) env.etext env.edata lines = .ok b' →
        InStep config b' s' := by
  induction lines generalizing b s with
  | nil => exact ⟨s, rfl, fun b' hb' => Except.ok.inj hb' ▸ hs⟩
  | cons line lines ih =>
    obtain ⟨s', hfirst, hkept⟩ := mapLine_eq hterminates memory hs line
    rw [List.foldlM_cons, hfirst, MapBuilder.addLines]
    cases hline : b.addLine (env.callbacks config.mode) env.etext env.edata line with
    | error fault => exact ⟨s, rfl, fun b' hb' => absurd hb' (by simp)⟩
    | ok b₁ => exact ih (hkept b₁ hline)

/-- The map is built as the constructor builds it in the mode of the configuration, and the runtime
along with it. -/
theorem memoryInstance_eq (depth : ℕ) :
    env.memoryInstance (depth + 1) .start =
      ((MemoryMap.ofMaps (env.callbacks config.mode) env.etext env.edata env.lines).mapError
        StartFault.map >>= fun segments =>
          .ok (segments, { Singletons.ready config with memory := some segments })) := by
  have hempty : InStep config .empty .start := ⟨.inl rfl, fun h => absurd rfl h⟩
  obtain ⟨s', hloop, hkept⟩ :=
    foldlM_mapLine_eq hterminates (env.memoryInstance depth) hempty env.lines
  rw [memoryInstance, MemoryMap.ofMaps]
  change env.lines.foldlM (env.mapLine (env.memoryInstance depth)) (.empty, .start) >>= _ = _
  rw [hloop]
  cases hlines : MapBuilder.empty.addLines (env.callbacks config.mode) env.etext env.edata
      env.lines with
  | error fault => rfl
  | ok b =>
    simp only [mapError_ok, ok_bind]
    cases hfinish : b.finish with
    | error fault => rfl
    | ok segments =>
      rw [(hkept b hlines).2 (heap_of_finish hfinish)]
      rfl

end Terminating

/-! ## Constructors inside each other -/

section Blocked

variable {env} {memory : Singletons → Except StartFault (MemoryMap × Singletons)}

/-- Where the first map has to wait for another one, or for a configuration that is not loaded, the
runtime is not built. -/
theorem runtimeInstance_blocked (hblocked : ∀ config, ¬env.Terminates config)
    (hmemory : ∀ result, memory .start ≠ .ok result) (result : Configuration × Singletons) :
    env.runtimeInstance memory .start ≠ .ok result := by
  intro hok
  obtain ⟨config, hload, hrest⟩ := bind_eq_ok_iff.mp hok
  rw [mapError_eq_ok_iff] at hload
  obtain ⟨hauto, hscan⟩ : config.autostart = true ∧ config.mode = .scan := by
    by_contra hnot
    exact hblocked config ⟨hload, hnot⟩
  rw [if_pos hauto] at hrest
  obtain ⟨s, hstart, -⟩ := bind_eq_ok_iff.mp hrest
  rw [startSelectedMode, hscan] at hstart
  obtain ⟨built, hbuilt, -⟩ := bind_eq_ok_iff.mp hstart
  exact hmemory built hbuilt

/-- Then no line sets the heap, since its line is announced. -/
theorem heap_of_foldlM_mapLine (hblocked : ∀ config, ¬env.Terminates config)
    (hmemory : ∀ result, memory .start ≠ .ok result) {b b' : MapBuilder} {s' : Singletons}
    {lines : List (List Char)}
    (hloop : lines.foldlM (env.mapLine memory) (b, .start) = .ok (b', s')) : b'.heap = b.heap := by
  induction lines generalizing b with
  | nil =>
    obtain ⟨rfl, -⟩ := Prod.mk.inj (Except.ok.inj hloop)
    rfl
  | cons line lines ih =>
    obtain ⟨⟨b₁, s₁⟩, hline, hrest⟩ := foldlM_cons_eq_ok_iff.mp hloop
    obtain ⟨segment, -, hpass⟩ := bind_eq_ok_iff.mp hline
    by_cases hannounced : env.Announced segment
    · rw [if_pos hannounced] at hpass
      obtain ⟨built, hbuilt, -⟩ := bind_eq_ok_iff.mp hpass
      exact absurd hbuilt (runtimeInstance_blocked hblocked hmemory built)
    · rw [if_neg hannounced] at hpass
      obtain ⟨b₂, hadd, hsame⟩ := bind_eq_ok_iff.mp hpass
      obtain ⟨rfl, rfl⟩ := Prod.mk.inj (Except.ok.inj hsame)
      rw [ih hrest, env.heap_of_not_announced hannounced (mapError_eq_ok_iff.mp hadd)]

/-- So the map is not built, to whatever depth. -/
theorem memoryInstance_blocked (hblocked : ∀ config, ¬env.Terminates config) (depth : ℕ)
    (result : MemoryMap × Singletons) : env.memoryInstance depth .start ≠ .ok result := by
  induction depth generalizing result with
  | zero => simp [memoryInstance, Singletons.start]
  | succ depth ih =>
    intro hok
    obtain ⟨⟨b, s⟩, hloop, hrest⟩ := bind_eq_ok_iff.mp hok
    obtain ⟨segments, hfinish, -⟩ := bind_eq_ok_iff.mp hrest
    exact heap_of_finish (mapError_eq_ok_iff.mp hfinish)
      (heap_of_foldlM_mapLine hblocked ih hloop)

/-- The lines before the first announced one are kept without the runtime. -/
theorem foldlM_mapLine_append {before rest : List (List Char)} {b : MapBuilder} {s : Singletons}
    (hbefore : ∀ line ∈ before, ∃ segment, MemorySegment.ofLine line = .ok segment ∧
      ¬env.Announced segment) :
    ∃ b', (before ++ rest).foldlM (env.mapLine memory) (b, s) =
      rest.foldlM (env.mapLine memory) (b', s) := by
  induction before generalizing b with
  | nil => exact ⟨b, rfl⟩
  | cons line before ih =>
    obtain ⟨⟨segment, hparsed, hannounced⟩, hothers⟩ := List.forall_mem_cons.mp hbefore
    obtain ⟨b', hrest⟩ := ih hothers
    refine ⟨b', ?_⟩
    rw [List.cons_append, List.foldlM_cons, mapLine]
    simp only [hparsed, mapError_ok, ok_bind, if_neg hannounced,
      env.addSegment_of_not_announced hannounced]
    exact hrest

/-- The scan mode that starts by itself builds maps inside each other without end, from the first
line on that is announced. -/
theorem memoryInstance_scan {config : Configuration} (hload : env.config = .ok config)
    (hauto : config.autostart = true) (hscan : config.mode = .scan)
    {before after : List (List Char)} {line : List Char}
    (hlines : env.lines = before ++ line :: after)
    (hbefore : ∀ line ∈ before, ∃ segment, MemorySegment.ofLine line = .ok segment ∧
      ¬env.Announced segment)
    {segment : MemorySegment} (hparsed : MemorySegment.ofLine line = .ok segment)
    (hannounced : env.Announced segment) (depth : ℕ) :
    env.memoryInstance depth .start = .error .tooDeep := by
  induction depth with
  | zero => rfl
  | succ depth ih =>
    obtain ⟨b, hskip⟩ := @foldlM_mapLine_append env (env.memoryInstance depth) before
      (line :: after) .empty .start hbefore
    have hruntime : env.runtimeInstance (env.memoryInstance depth) .start = .error .tooDeep := by
      change (env.config.mapError StartFault.load >>= _) = _
      simp [hload, hauto, startSelectedMode, hscan, ih]
    have hpass : env.mapLine (env.memoryInstance depth) (b, .start) line = .error .tooDeep := by
      rw [mapLine]
      simp only [hparsed, mapError_ok, ok_bind, if_pos hannounced, hruntime, error_bind]
    change env.lines.foldlM (env.mapLine (env.memoryInstance depth)) (.empty, .start) >>= _ = _
    rw [hlines, hskip, List.foldlM_cons, hpass]
    rfl

end Blocked

/-- A line that is announced is the first of them in the file, if the loop sets the heap. -/
theorem exists_first_announced {mode : Mode} {b b' : MapBuilder} {lines : List (List Char)}
    (hlines : b.addLines mode env.etext env.edata lines = .ok b') (hheap : b'.heap ≠ b.heap) :
    ∃ before line after segment, lines = before ++ line :: after ∧
      (∀ line ∈ before, ∃ segment, MemorySegment.ofLine line = .ok segment ∧
        ¬env.Announced segment) ∧
      MemorySegment.ofLine line = .ok segment ∧ env.Announced segment := by
  induction lines generalizing b with
  | nil => exact absurd (congrArg MapBuilder.heap (Except.ok.inj hlines).symm) hheap
  | cons line lines ih =>
    obtain ⟨b₁, hline, hrest⟩ := bind_eq_ok_iff.mp hlines
    obtain ⟨segment, hparsed, hadd⟩ := bind_eq_ok_iff.mp hline
    by_cases hannounced : env.Announced segment
    · exact ⟨[], line, lines, segment, rfl, by simp, hparsed, hannounced⟩
    · have hsame := env.heap_of_not_announced hannounced hadd
      obtain ⟨before, first, after, found, rfl, hbefore, hfound⟩ := ih hrest (hsame ▸ hheap)
      exact ⟨line :: before, first, after, found, rfl,
        List.forall_mem_cons.mpr ⟨⟨segment, hparsed, hannounced⟩, hbefore⟩, hfound⟩

/-- The map is built, with the runtime, exactly when the configuration is loaded, it is not the scan
mode that starts by itself, and the maps file describes a process; one constructor inside another
is never needed. -/
theorem memoryInstance_ok_iff (depth : ℕ) (segments : MemoryMap) (s : Singletons) :
    env.memoryInstance depth .start = .ok (segments, s) ↔
      0 < depth ∧ ∃ config, env.Terminates config ∧
        MemoryMap.ofMaps (env.callbacks config.mode) env.etext env.edata env.lines = .ok segments ∧
        s = { Singletons.ready config with memory := some segments } := by
  constructor
  · intro hok
    obtain ⟨config, hterminates⟩ : ∃ config, env.Terminates config := by
      by_contra hnone
      exact memoryInstance_blocked (not_exists.mp hnone) depth _ hok
    cases depth with
    | zero => exact absurd hok (by simp [memoryInstance, Singletons.start])
    | succ depth =>
      rw [memoryInstance_eq hterminates] at hok
      obtain ⟨built, hbuilt, hresult⟩ := bind_eq_ok_iff.mp hok
      obtain ⟨rfl, rfl⟩ := Prod.mk.inj (Except.ok.inj hresult)
      exact ⟨Nat.succ_pos depth, config, hterminates, mapError_eq_ok_iff.mp hbuilt, rfl⟩
  · rintro ⟨hdepth, config, hterminates, hbuilt, rfl⟩
    obtain ⟨depth, rfl⟩ := Nat.exists_eq_succ_of_ne_zero hdepth.ne'
    rw [memoryInstance_eq hterminates, hbuilt]
    rfl

/-- Where the scan mode starts by itself, in a process whose map it could build, the constructors
of the map call each other without end. -/
theorem scan_autostart_recurses (env : StartEnv) {config : Configuration}
    (hload : env.config = .ok config) (hauto : config.autostart = true)
    (hscan : config.mode = .scan) {segments : MemoryMap}
    (hmaps : MemoryMap.ofMaps (env.callbacks .scan) env.etext env.edata env.lines = .ok segments)
    (depth : ℕ) : env.memoryInstance depth .start = .error .tooDeep := by
  obtain ⟨b, hlines, hfinish⟩ := bind_eq_ok_iff.mp hmaps
  obtain ⟨before, line, after, segment, hsplit, hbefore, hparsed, hannounced⟩ :=
    env.exists_first_announced hlines (heap_of_finish hfinish)
  exact memoryInstance_scan hload hauto hscan hsplit hbefore hparsed hannounced depth

end StartEnv

/-- The configuration of a mode that starts by itself. -/
def autostarted (mode : ModeName) : Configuration :=
  ⟨mode, fun name => if name = "_autostart" then some (.bool true) else none⟩

/-- The small process, before anything is built. -/
def smallStart (mode : ModeName) : StartEnv :=
  ⟨.fourKiB, fun _ => true, [⟨0, 50⟩, ⟨1, 50⟩], .ok (autostarted mode), 0x400800, 0x600808,
    smallProcessLines⟩

/-- The scan mode in the small process. -/
theorem scan_autostart_recurses_small :
    (smallStart .scan).memoryInstance 1000 .start = .error .tooDeep := by
  obtain ⟨segments, hmaps⟩ : ∃ segments, MemoryMap.ofMaps ((smallStart .scan).callbacks .scan)
      0x400800 0x600808 smallProcessLines = .ok segments := ⟨smallProcess, by rfl⟩
  exact StartEnv.scan_autostart_recurses (smallStart .scan) rfl rfl rfl hmaps 1000

end Bwap
