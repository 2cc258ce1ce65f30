import Bwap.Mode.AdaptivePlacement

/-!
# The fixed ratio mode

The thread of the fixed ratio mode places all large segments once at the ratio of the
configuration, measures the stall rate and exits. While the list of segments stays as it is, the
adaptive mode leaves the same policies as this mode with the last ratio it tried.
-/

namespace Bwap

open Common

variable (e : Surroundings)

/-- How the thread of the fixed ratio mode ends. -/
inductive PollerEnd
  | exited
  | died (message : String)
deriving DecidableEq

/-- A run of the thread: the calls of `place_pages` it causes, the ratio and the stall rate that it
logs, and its end. -/
structure PollerRun where
  calls : List PlacePagesCall
  logged : List (ℚ × Option Rate)
  ending : PollerEnd

/-- `FixedRatioMode::pollerThread`: its loop is left in the first pass. -/
def pollerThread (segments : List MemorySegment) (localRatio : ℚ) (stallRate : Rate) : PollerRun :=
  let placed := placeAllPagesAdaptive e localRatio segments
  match placed.died with
  | some message => ⟨placed.calls, [], .died message⟩
  | none => ⟨placed.calls, [(localRatio, none), (localRatio, some stallRate)], .exited⟩

/-- The calls of a thread that exits. -/
theorem pollerThread_of_exits {segments : List MemorySegment} {localRatio : ℚ} {stallRate : Rate}
    (hplaced : (placeAllPagesAdaptive e localRatio segments).died = none) :
    (pollerThread e segments localRatio stallRate).ending = .exited ∧
      (pollerThread e segments localRatio stallRate).calls = e.allCalls localRatio segments := by
  unfold pollerThread
  simp only [hplaced]
  exact ⟨trivial, (placeAll_of_returns e hplaced).1⟩

/-- Placing all segments does not die when none of the calls does. -/
theorem placeAll_returns {ratio : ℚ} {segments : List MemorySegment}
    (hreturns : ∀ call ∈ e.allCalls ratio segments, (e.place call).died = none) :
    (placeAllPagesAdaptive e ratio segments).died = none := by
  induction segments with
  | nil => rfl
  | cons segment rest ih =>
    unfold placeAllPagesAdaptive
    by_cases hlarge : Large segment
    · have hcalls : e.allCalls ratio (segment :: rest) =
          placePagesAdaptive e segment ratio :: e.allCalls ratio rest := by
        simp [Surroundings.allCalls, hlarge]
      rw [hcalls, List.forall_mem_cons] at hreturns
      rw [if_pos hlarge]
      simp only [hreturns.1]
      exact ih hreturns.2
    · have hcalls : e.allCalls ratio (segment :: rest) = e.allCalls ratio rest := by
        simp [Surroundings.allCalls, hlarge]
      rw [hcalls] at hreturns
      rw [if_neg hlarge]
      exact ih hreturns

/-- Calls that return leave the same policies as others that move the same addresses. -/
theorem applyCalls_congr (hnodes : 2 ≤ e.nodes) {calls calls' : List PlacePagesCall}
    (hpages : ∀ call ∈ calls ++ calls', e.pageSize.bytes ∣ call.len.toNat)
    (hreturns : ∀ call ∈ calls ++ calls', (e.place call).died = none)
    (hmoves : ∀ x, (∃ call ∈ calls, e.Moves call x) ↔ ∃ call ∈ calls', e.Moves call x)
    (policies : PolicyMap) :
    e.applyCalls calls policies = e.applyCalls calls' policies ∧
      (e.applyCalls calls policies).isSome := by
  rw [List.forall_mem_append] at hpages hreturns
  rw [applyCalls_of_returns e hnodes hpages.1 hreturns.1,
    applyCalls_of_returns e hnodes hpages.2 hreturns.2]
  refine ⟨congrArg some ?_, rfl⟩
  cases workerMask e.maxNodes e.workers with
  | none => rfl
  | some nodeSet =>
    funext x
    have hleft := foldl_overlay_apply e.Moves (PagePolicy.requested .interleave nodeSet) calls
      policies x
    have hright := foldl_overlay_apply e.Moves (PagePolicy.requested .interleave nodeSet) calls'
      policies x
    by_cases hmoved : ∃ call ∈ calls, e.Moves call x
    · exact (hleft.1 hmoved).trans (hright.1 ((hmoves x).mp hmoved)).symm
    · exact (hleft.2 hmoved).trans (hright.2 (mt (hmoves x).mpr hmoved)).symm

/-- The adaptive mode, when it leaves its loop, and the fixed ratio mode with the last ratio tried
leave the same policies in force everywhere, if the list of segments is the same all the time. -/
theorem adaptive_leaves_fixedRatio (hnodes : 2 ≤ e.nodes)
    (hleaves : ∀ message, (adaptiveThread e).ending ≠ .failed message)
    {segments : List MemorySegment}
    (hsame : ∀ trial ∈ (adaptiveThread e).trials, e.segments trial.candidate = segments)
    (stallRate : Rate) (before : PolicyMap) :
    ∃ last after, (adaptiveThread e).trials.getLast? = some last ∧
      (pollerThread e segments (last.candidate / 100) stallRate).ending = .exited ∧
      e.applyCalls (adaptiveThread e).calls before = some after ∧
      e.applyCalls (pollerThread e segments (last.candidate / 100) stallRate).calls before =
        some after := by
  obtain ⟨last, hmem, hlast, hlargest⟩ := exists_last_trial e hleaves
  have hcalls {call : PlacePagesCall} (trial : Trial ℕ Rate)
      (htrial : trial ∈ (adaptiveThread e).trials) {segment : MemorySegment}
      (hsegment : segment ∈ segments) (hlarge : Large segment)
      (hcall : placePagesAdaptive e segment (trial.candidate / 100) = call) :
      call ∈ (adaptiveThread e).calls :=
    (mem_calls_iff e hleaves).mpr
      ⟨trial, htrial, segment, by rwa [hsame trial htrial], hlarge, hcall⟩
  have hreturns : ∀ call ∈ (adaptiveThread e).calls ++
      e.allCalls (last.candidate / 100) segments, (e.place call).died = none := by
    rw [List.forall_mem_append]
    refine ⟨fun call hcall => calls_return e hleaves hcall, fun call hcall => ?_⟩
    obtain ⟨segment, hsegment, hlarge, hcall⟩ := (mem_allCalls_iff e).mp hcall
    exact calls_return e hleaves (hcalls last hmem hsegment hlarge hcall)
  have hpages : ∀ call ∈ (adaptiveThread e).calls ++
      e.allCalls (last.candidate / 100) segments, e.pageSize.bytes ∣ call.len.toNat := by
    rw [List.forall_mem_append]
    constructor
    · intro call hcall
      obtain ⟨-, -, segment, -, -, rfl⟩ := (mem_calls_iff e hleaves).mp hcall
      exact MemorySegment.dvd_pageAlignedLength e.pageSize segment
    · intro call hcall
      obtain ⟨segment, -, -, rfl⟩ := (mem_allCalls_iff e).mp hcall
      exact MemorySegment.dvd_pageAlignedLength e.pageSize segment
  have hmoves : ∀ x, (∃ call ∈ (adaptiveThread e).calls, e.Moves call x) ↔
      ∃ call ∈ e.allCalls (last.candidate / 100) segments, e.Moves call x := by
    intro x
    constructor
    · rintro ⟨call, hcall, hmoved⟩
      obtain ⟨trial, htrial, segment, hsegment, hlarge, rfl⟩ := (mem_calls_iff e hleaves).mp hcall
      rw [hsame trial htrial] at hsegment
      exact ⟨placePagesAdaptive e segment (last.candidate / 100),
        (mem_allCalls_iff e).mpr ⟨segment, hsegment, hlarge, rfl⟩,
        moves_mono e hnodes hleaves (hlargest trial htrial) hcall
          (hcalls last hmem hsegment hlarge rfl) hmoved⟩
    · rintro ⟨call, hcall, hmoved⟩
      obtain ⟨segment, hsegment, hlarge, hcall⟩ := (mem_allCalls_iff e).mp hcall
      exact ⟨call, hcalls last hmem hsegment hlarge hcall, hmoved⟩
  have hpoller := @pollerThread_of_exits e segments _ stallRate
    (placeAll_returns e (List.forall_mem_append.mp hreturns).2)
  obtain ⟨hequal, hsome⟩ := applyCalls_congr e hnodes hpages hreturns hmoves before
  obtain ⟨after, hafter⟩ := Option.isSome_iff_exists.mp hsome
  refine ⟨last, after, hlast, hpoller.1, hafter, ?_⟩
  rw [hpoller.2, ← hequal, hafter]

/-- A stall rate that doubles at the second percentage leaves what a fixed ratio would. -/
theorem adaptive_leaves_fixedRatio_risen :
    let e := fourNodes (fun p => if p = 25 then 1 else 2) fun _ => 2
    let segments := [extent 0x7f0000000000 0x200000 "mmap"]
    let before : PolicyMap := fun _ => .other 3 {0, 1, 2, 3}
    ∃ last after, (adaptiveThread e).trials.getLast? = some last ∧
      (pollerThread e segments (last.candidate / 100) 2).ending = .exited ∧
      e.applyCalls (adaptiveThread e).calls before = some after ∧
      e.applyCalls (pollerThread e segments (last.candidate / 100) 2).calls before =
        some after := by
  intro e segments before
  have hending : (adaptiveThread e).ending = .risen := by decide +kernel
  exact adaptive_leaves_fixedRatio e (by decide) (by simp [hending]) (fun _ _ => rfl) 2 before

end Bwap
