import Bwap.Common.Runs
import Bwap.Mode.InitialPass

/-!
# Hand-over from memory initialisation to adaptation

`memInitThread` places the segments by weight, pass after pass, until `MEM_INIT` is set. `start`
sets it and starts `adaptiveThread`, which publishes the segments for migration. The three run
interleaved. `MEM_INIT` is read at the head of a pass only, so a pass that is under way at the
publication goes on. What counts as a placement is a policy call: a segment that the pass visits
without making one is as good as passed over.
-/

namespace Bwap

open Common

/-- Where `memInitThread` is: before its test, at the first of the segments left in its pass, past
the last one before them, or at its end. -/
inductive MemInitPosition
  | testing
  | atSegment (left : List MemorySegment)
  | pastSegment (left : List MemorySegment)
  | finished

/-- Where the caller of `start` is. -/
inductive StartPosition
  | settingMemInit
  | startingThread
  | returned
deriving DecidableEq

/-- Where `adaptiveThread` is. -/
inductive AdaptivePosition
  | notStarted
  | exporting (left : List MemorySegment)
  | published

/-- `MEM_INIT`, the positions of the three, the shared vector, the policy calls `memInitThread` has
made, in order, and whether one of them stopped the process. -/
structure HandOverState where
  memInit : ℕ
  memInitThread : MemInitPosition
  start : StartPosition
  adaptiveThread : AdaptivePosition
  shared : List (Word × Word)
  calls : List IssuedCall
  died : Bool

/-- The atomic steps. -/
inductive HandOverLabel
  | testMemInit
  | placeSegment
  | advance
  | sleep
  | setMemInit
  | startThread
  | exportSegment
  | publish
deriving DecidableEq, Repr

namespace HandOver

variable (P : PageSize) (mbind : MbindCall → Bool) (nodesInfo : List Record)
  (segments : List MemorySegment)

/-- Before the first step of any of the three. -/
def initial : HandOverState := ⟨0, .testing, .settingMemInit, .notStarted, [], [], false⟩

/-- The segments `memInitThread` hands to `place_pages_weighted_initial`. -/
def IsPlaced (segment : MemorySegment) : Prop := segment.length > (1 : Word) <<< 14

instance (segment : MemorySegment) : Decidable (IsPlaced segment) :=
  inferInstanceAs (Decidable (_ > _))

/-- The segments `adaptiveThread` exports. -/
def IsExported (segment : MemorySegment) : Prop := segment.length > (1 : Word) <<< 20

instance (segment : MemorySegment) : Decidable (IsExported segment) :=
  inferInstanceAs (Decidable (_ > _))

/-- `memInitThread` at a segment: short ones are passed over. -/
def place (segment : MemorySegment) (left : List MemorySegment) (s : HandOverState) :
    HandOverState :=
  if IsPlaced segment then
    let placement := placeSegmentWeightedInitial P mbind nodesInfo segment
    { s with
      memInitThread := .pastSegment left
      calls := s.calls ++ placement.issued
      died := placement.aborted }
  else { s with memInitThread := .pastSegment left }

/-- `adaptiveThread` at a segment. -/
def exportOne (segment : MemorySegment) (left : List MemorySegment) (s : HandOverState) :
    HandOverState :=
  if IsExported segment then
    { s with
      adaptiveThread := .exporting left
      shared := s.shared ++ [(segment.pageAlignedStartAddress P, segment.pageAlignedLength P)] }
  else { s with adaptiveThread := .exporting left }

/-- The steps of the three, while the process is alive. -/
inductive Step : HandOverState → HandOverLabel → HandOverState → Prop
  | enterPass {s : HandOverState} (halive : s.died = false) (hat : s.memInitThread = .testing)
      (hunset : s.memInit = 0) :
      Step s .testMemInit { s with memInitThread := .atSegment segments }
  | leaveLoop {s : HandOverState} (halive : s.died = false) (hat : s.memInitThread = .testing)
      (hset : s.memInit ≠ 0) : Step s .testMemInit { s with memInitThread := .finished }
  | placeSegment {s : HandOverState} {segment : MemorySegment} {left : List MemorySegment}
      (halive : s.died = false) (hat : s.memInitThread = .atSegment (segment :: left)) :
      Step s .placeSegment (place P mbind nodesInfo segment left s)
  | advance {s : HandOverState} {left : List MemorySegment} (halive : s.died = false)
      (hat : s.memInitThread = .pastSegment left) :
      Step s .advance { s with memInitThread := .atSegment left }
  | sleep {s : HandOverState} (halive : s.died = false) (hat : s.memInitThread = .atSegment []) :
      Step s .sleep { s with memInitThread := .testing }
  | setMemInit {s : HandOverState} (halive : s.died = false) (hat : s.start = .settingMemInit) :
      Step s .setMemInit { s with memInit := 1, start := .startingThread }
  | startThread {s : HandOverState} (halive : s.died = false) (hat : s.start = .startingThread) :
      Step s .startThread { s with start := .returned, adaptiveThread := .exporting segments }
  | exportSegment {s : HandOverState} {segment : MemorySegment} {left : List MemorySegment}
      (halive : s.died = false) (hat : s.adaptiveThread = .exporting (segment :: left)) :
      Step s .exportSegment (exportOne P segment left s)
  | publish {s : HandOverState} (halive : s.died = false)
      (hat : s.adaptiveThread = .exporting []) :
      Step s .publish { s with adaptiveThread := .published }

/-- The segments left in the pass of `memInitThread`. -/
def left : MemInitPosition → List MemorySegment
  | .atSegment left => left
  | .pastSegment left => left
  | _ => []

/-- No step of a run from a state on makes a call of an initial-weight placement. -/
def NeverPlacesAgain (s : HandOverState) : Prop :=
  ∀ more, Run (Step P mbind nodesInfo segments) s more → (final s more).calls = s.calls

/-- No segment left in the pass is one whose placement makes a call. -/
def PassDone (s : HandOverState) : Prop :=
  ∀ segment ∈ left s.memInitThread, ¬ GetsCalls P nodesInfo segment

section Runs

variable {P mbind nodesInfo segments} {s s' : HandOverState} {label : HandOverLabel}

/-- `MEM_INIT` is set before the adaptive thread is started. -/
def Announced (s : HandOverState) : Prop :=
  s.memInit = 1 ∨ s.start = .settingMemInit ∧ s.adaptiveThread = .notStarted

/-- Exporting changes the shared vector and the position of `adaptiveThread` only. -/
theorem exists_exportOne_eq (segment : MemorySegment) (rest : List MemorySegment)
    (s : HandOverState) : ∃ shared, exportOne P segment rest s =
      { s with adaptiveThread := .exporting rest, shared := shared } := by
  unfold exportOne
  split_ifs
  · exact ⟨_, rfl⟩
  · exact ⟨s.shared, rfl⟩

/-- Every step keeps the order in which `start` does its work. -/
theorem Step.announced (hstep : Step P mbind nodesInfo segments s label s')
    (h : Announced s) : Announced s' := by
  cases hstep with
  | enterPass _ _ _ => exact h
  | leaveLoop _ _ _ => exact h
  | placeSegment _ _ =>
    unfold place
    split_ifs
    · exact h
    · exact h
  | advance _ _ => exact h
  | sleep _ _ => exact h
  | setMemInit _ _ => exact .inl rfl
  | startThread _ hat =>
    exact .inl (h.resolve_right fun hbefore => by simp [hat] at hbefore)
  | @exportSegment segment rest _ hat =>
    obtain ⟨_, hexport⟩ := exists_exportOne_eq segment rest s
    rw [hexport]
    exact .inl (h.resolve_right fun hbefore => by simp [hat] at hbefore)
  | publish _ hat => exact .inl (h.resolve_right fun hbefore => by simp [hat] at hbefore)

/-- A segment that gets no call is passed over. -/
theorem place_of_not_getsCalls {segment : MemorySegment} (hnone : ¬ GetsCalls P nodesInfo segment)
    (rest : List MemorySegment) (halive : s.died = false) :
    place P mbind nodesInfo segment rest s = { s with memInitThread := .pastSegment rest } := by
  have hempty : placeSegmentWeightedInitial P mbind nodesInfo segment = ⟨[], false⟩ := by
    rw [placeSegmentWeightedInitial_eq, (segmentCalls_eq_nil_iff P nodesInfo segment).mpr hnone]
    rfl
  unfold place
  split_ifs
  · simp [hempty, halive]
  · rfl

/-- Any other one is long enough for `memInitThread`, and its placement makes a call. -/
theorem calls_place_of_getsCalls {segment : MemorySegment}
    (hcalls : GetsCalls P nodesInfo segment) (rest : List MemorySegment) :
    (place P mbind nodesInfo segment rest s).calls ≠ s.calls := by
  have hsome : segmentCalls P nodesInfo segment ≠ [] := fun hnil =>
    (segmentCalls_eq_nil_iff P nodesInfo segment).mp hnil hcalls
  have hlong : IsPlaced segment := by
    by_contra hshort
    exact hsome (segmentCalls_of_short P nodesInfo hshort)
  have hissued : (placeSegmentWeightedInitial P mbind nodesInfo segment).issued ≠ [] := by
    rw [placeSegmentWeightedInitial_eq]
    exact (Placement.issueAll_issued_eq_nil_iff mbind _).not.mpr hsome
  rw [place, if_pos hlong]
  exact fun hsame => hissued (List.append_right_eq_self.mp hsame)

/-- `MEM_INIT` is set, the pass has no more calls to make, and none was made since a state. -/
structure Quiet (P : PageSize) (nodesInfo : List Record) (before : HandOverState)
    (s : HandOverState) : Prop where
  memInit : s.memInit = 1
  passDone : PassDone P nodesInfo s
  calls : s.calls = before.calls

/-- A pass that has no more calls to make is the last one. -/
theorem Step.quiet {before : HandOverState} (hstep : Step P mbind nodesInfo segments s label s')
    (h : Quiet P nodesInfo before s) : Quiet P nodesInfo before s' := by
  cases hstep with
  | enterPass _ _ hunset => exact absurd (h.memInit.symm.trans hunset) (by decide)
  | leaveLoop _ _ _ => exact ⟨h.memInit, by simp [PassDone, left], h.calls⟩
  | @placeSegment segment rest halive hat =>
    have hleft := h.passDone
    rw [PassDone, hat] at hleft
    obtain ⟨hnone, hrest⟩ := List.forall_mem_cons.mp hleft
    rw [place_of_not_getsCalls hnone rest halive]
    exact ⟨h.memInit, hrest, h.calls⟩
  | @advance rest _ hat =>
    have hrest := h.passDone
    rw [PassDone, hat] at hrest
    exact ⟨h.memInit, hrest, h.calls⟩
  | sleep _ _ => exact ⟨h.memInit, by simp [PassDone, left], h.calls⟩
  | setMemInit _ _ => exact ⟨rfl, h.passDone, h.calls⟩
  | startThread _ _ => exact ⟨h.memInit, h.passDone, h.calls⟩
  | @exportSegment segment rest _ _ =>
    obtain ⟨_, hexport⟩ := exists_exportOne_eq segment rest s
    rw [hexport]
    exact ⟨h.memInit, h.passDone, h.calls⟩
  | publish _ _ => exact ⟨h.memInit, h.passDone, h.calls⟩

/-- From a segment of its pass on, `memInitThread` can run alone to the next one that gets a
call. -/
theorem exists_run_placing {rest : List MemorySegment} (halive : s.died = false)
    (hat : s.memInitThread = .atSegment rest)
    (hleft : ∃ segment ∈ rest, GetsCalls P nodesInfo segment) :
    ∃ more, Run (Step P mbind nodesInfo segments) s more ∧ (final s more).calls ≠ s.calls := by
  induction rest generalizing s with
  | nil => exact absurd hleft (by simp)
  | cons segment rest ih =>
    have hplace : Step P mbind nodesInfo segments s .placeSegment
        (place P mbind nodesInfo segment rest s) := .placeSegment halive hat
    by_cases hcalls : GetsCalls P nodesInfo segment
    · exact ⟨[(.placeSegment, _)], .cons hplace (.nil _), calls_place_of_getsCalls hcalls rest⟩
    · rw [place_of_not_getsCalls hcalls rest halive] at hplace
      have hadvance : Step P mbind nodesInfo segments
          { s with memInitThread := .pastSegment rest } .advance
          { s with memInitThread := .atSegment rest } := .advance halive rfl
      obtain ⟨more, hmore, hmade⟩ := ih (s := { s with memInitThread := .atSegment rest })
        halive rfl (by simpa [hcalls] using hleft)
      exact ⟨(.placeSegment, _) :: (.advance, _) :: more, .cons hplace (.cons hadvance hmore),
        hmade⟩

/-- A pass that has a call left to make can go on to make it. -/
theorem NeverPlacesAgain.passDone (h : NeverPlacesAgain P mbind nodesInfo segments s)
    (halive : s.died = false) : PassDone P nodesInfo s := by
  by_contra hleft
  simp only [PassDone, not_forall, not_not, exists_prop] at hleft
  cases hat : s.memInitThread with
  | testing => simp [hat, left] at hleft
  | finished => simp [hat, left] at hleft
  | atSegment rest =>
    rw [hat] at hleft
    obtain ⟨more, hmore, hmade⟩ := exists_run_placing halive hat hleft
    exact hmade (h more hmore)
  | pastSegment rest =>
    rw [hat] at hleft
    have hadvance : Step P mbind nodesInfo segments s .advance
        { s with memInitThread := .atSegment rest } := .advance halive hat
    obtain ⟨more, hmore, hmade⟩ : ∃ more, Run (Step P mbind nodesInfo segments)
        { s with memInitThread := .atSegment rest } more ∧
          (final { s with memInitThread := .atSegment rest } more).calls ≠ s.calls :=
      exists_run_placing halive rfl hleft
    exact hmade (h _ (.cons hadvance hmore))

/-- In every interleaving, once the segments are published `memInitThread` never makes another call
of an initial-weight placement, if and only if no segment left in the pass it was in gets one. -/
theorem publish_hands_over_iff (trace : List (HandOverLabel × HandOverState))
    (hrun : Run (Step P mbind nodesInfo segments) initial trace)
    (hpublish : Step P mbind nodesInfo segments (final initial trace) .publish s') :
    NeverPlacesAgain P mbind nodesInfo segments s' ↔
      PassDone P nodesInfo (final initial trace) := by
  have hannounced : Announced (final initial trace) :=
    hrun.final_invariant (fun _ _ _ h hstep => hstep.announced h) (.inr ⟨rfl, rfl⟩)
  cases hpublish with
  | publish halive hat =>
    constructor
    · intro h
      exact h.passDone halive
    · intro hdone more hmore
      have hset := hannounced.resolve_right fun hbefore => by simp [hat] at hbefore
      have hstart : Quiet P nodesInfo { final initial trace with adaptiveThread := .published }
          { final initial trace with adaptiveThread := .published } := ⟨hset, hdone, rfl⟩
      exact (hmore.final_invariant (fun _ _ _ h hstep => Step.quiet hstep h) hstart).calls

end Runs

/-! ## A short and a large mapping -/

/-- A mapping of 64 KiB: `memInitThread` visits it, and makes no call. -/
def shortMapping : MemorySegment := extent 0x7f0000000000 0x10000 "mmap"

/-- A mapping of two mebibytes. -/
def largeMapping : MemorySegment := extent 0x7f0000000000 0x200000 "mmap"

/-- The steps of a process with a single mapping, on two nodes. -/
def SingleStep (segment : MemorySegment) : HandOverState → HandOverLabel → HandOverState → Prop :=
  Step .fourKiB (fun _ => true) WeightTable.twoNodeTable.records [segment]

/-- `start` runs while the short mapping is still to be visited: no call follows its publication. -/
theorem publish_hands_over_iff_short :
    let exported := { initial with
      memInitThread := .atSegment [shortMapping]
      memInit := 1, start := .returned, adaptiveThread := .exporting [] }
    NeverPlacesAgain .fourKiB (fun _ => true) WeightTable.twoNodeTable.records [shortMapping]
      { exported with adaptiveThread := .published } := by
  intro exported
  let begun := { initial with memInitThread := .atSegment [shortMapping] }
  let started := { exported with adaptiveThread := .exporting [shortMapping] }
  have hexport : exportOne .fourKiB shortMapping [] started = exported := by
    rw [exportOne, if_neg (by decide)]
  have hexported : SingleStep shortMapping started .exportSegment exported :=
    hexport ▸ .exportSegment rfl rfl
  have hrun : Run (SingleStep shortMapping) initial
      [(.testMemInit, begun),
        (.setMemInit, { begun with memInit := 1, start := .startingThread }),
        (.startThread, started), (.exportSegment, exported)] :=
    .cons (.enterPass rfl rfl rfl) <| .cons (.setMemInit rfl rfl) <|
      .cons (.startThread rfl rfl) <| .cons hexported <| .nil _
  apply (publish_hands_over_iff _ hrun (.publish rfl rfl)).mpr
  change ∀ segment ∈ [shortMapping], _
  rw [List.forall_mem_singleton]
  exact fun hcalls => absurd hcalls.large (by decide)

/-- `start` runs while the large mapping is still to be placed: it is placed after its
publication. -/
theorem pass_outlives_publication :
    let begun := { initial with memInitThread := .atSegment [largeMapping] }
    let started := { begun with
      memInit := 1, start := .returned, adaptiveThread := .exporting [largeMapping] }
    let exported := exportOne .fourKiB largeMapping [] started
    Run (SingleStep largeMapping) initial
        [(.testMemInit, begun),
          (.setMemInit, { begun with memInit := 1, start := .startingThread }),
          (.startThread, started), (.exportSegment, exported)] ∧
      SingleStep largeMapping exported .publish
        { exported with adaptiveThread := .published } ∧
      ¬ NeverPlacesAgain .fourKiB (fun _ => true) WeightTable.twoNodeTable.records [largeMapping]
        { exported with adaptiveThread := .published } := by
  intro begun started exported
  have hrun : Run (SingleStep largeMapping) initial
      [(.testMemInit, begun),
        (.setMemInit, { begun with memInit := 1, start := .startingThread }),
        (.startThread, started), (.exportSegment, exported)] :=
    .cons (.enterPass rfl rfl rfl) <| .cons (.setMemInit rfl rfl) <|
      .cons (.startThread rfl rfl) <| .cons (.exportSegment rfl rfl) <| .nil _
  have hcalls : GetsCalls .fourKiB WeightTable.twoNodeTable.records largeMapping :=
    (getsCalls_iff .fourKiB (by decide) WeightTable.twoNodeTable_ascending (by decide)
      (by decide)).mpr (by decide)
  refine ⟨hrun, .publish rfl rfl, fun hnever => ?_⟩
  exact hnever.passDone rfl largeMapping (.head _) hcalls

end HandOver

end Bwap
