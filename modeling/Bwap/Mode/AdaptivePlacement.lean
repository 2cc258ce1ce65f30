import Bwap.Mode.AdaptiveRatios
import Bwap.Mode.InitialPass
import Bwap.Placement.Policies

/-!
# The placement the adaptive mode leaves

While the adaptive thread searches, each percentage it tries places all large segments again, and
the list of them may change in between. Since a larger ratio moves more of a segment, nothing of
the earlier placements is left on a segment that stays in the list: its pages are as if only the
last percentage had been tried, whichever one was measured best.
-/

namespace Bwap

open Common

variable (e : Surroundings)

/-! ## The calls that are made -/

/-- The calls one after the other; none if one of them dies. -/
def Surroundings.applyCalls (calls : List PlacePagesCall) (policies : PolicyMap) :
    Option PolicyMap :=
  calls.foldlM (fun policies call => (e.place call).apply policies) policies

/-- The addresses that a call moves. -/
def Surroundings.Moves (call : PlacePagesCall) (x : Word) : Prop :=
  Moved e.pageSize e.nodes call.addr call.len call.ratio x

instance (call : PlacePagesCall) : DecidablePred (e.Moves call) :=
  inferInstanceAs (DecidablePred (Moved e.pageSize e.nodes call.addr call.len call.ratio))

/-- The calls that place all large segments of a list. -/
def Surroundings.allCalls (ratio : ℚ) (segments : List MemorySegment) : List PlacePagesCall :=
  (segments.filter fun segment => decide (Large segment)).map (placePagesAdaptive e · ratio)

/-- There is one for each large segment. -/
theorem mem_allCalls_iff {ratio : ℚ} {segments : List MemorySegment} {call : PlacePagesCall} :
    call ∈ e.allCalls ratio segments ↔ ∃ segment ∈ segments, Large segment ∧
      placePagesAdaptive e segment ratio = call := by
  simp [Surroundings.allCalls, and_assoc]

/-- Placing all segments without dying makes all calls, and none of them dies. -/
theorem placeAll_of_returns {ratio : ℚ} {segments : List MemorySegment}
    (hreturns : (placeAllPagesAdaptive e ratio segments).died = none) :
    (placeAllPagesAdaptive e ratio segments).calls = e.allCalls ratio segments ∧
      ∀ call ∈ e.allCalls ratio segments, (e.place call).died = none := by
  induction segments with
  | nil => exact ⟨rfl, by simp [Surroundings.allCalls]⟩
  | cons segment rest ih =>
    unfold placeAllPagesAdaptive at hreturns ⊢
    by_cases hlarge : Large segment
    · have hcalls : e.allCalls ratio (segment :: rest) =
          placePagesAdaptive e segment ratio :: e.allCalls ratio rest := by
        simp [Surroundings.allCalls, hlarge]
      rw [if_pos hlarge] at hreturns ⊢
      cases hdied : (e.place (placePagesAdaptive e segment ratio)).died with
      | some message => simp [hdied] at hreturns
      | none =>
        simp only [hdied] at hreturns ⊢
        rw [hcalls, List.forall_mem_cons]
        exact ⟨congrArg _ (ih hreturns).1, hdied, (ih hreturns).2⟩
    · have hcalls : e.allCalls ratio (segment :: rest) = e.allCalls ratio rest := by
        simp [Surroundings.allCalls, hlarge]
      rw [if_neg hlarge] at hreturns ⊢
      rw [hcalls]
      exact ih hreturns

/-- The calls of a trial. -/
def Surroundings.trialCalls (trial : Trial ℕ Rate) : List PlacePagesCall :=
  e.allCalls (trial.candidate / 100) (e.segments trial.candidate)

/-- A loop that does not die makes the calls of its trials, and none of them dies. -/
theorem adaptiveLoop_of_leaves {percentages : List ℕ} {best : Rate}
    (hleaves : ∀ message, (adaptiveLoop e percentages best).ending ≠ .failed message) :
    (adaptiveLoop e percentages best).calls =
        (adaptiveLoop e percentages best).trials.flatMap e.trialCalls ∧
      ∀ call ∈ (adaptiveLoop e percentages best).calls, (e.place call).died = none := by
  induction percentages generalizing best with
  | nil => exact ⟨rfl, by simp [adaptiveLoop]⟩
  | cons percentage rest ih =>
    unfold adaptiveLoop at hleaves ⊢
    by_cases hskip : Skipped percentage
    · rw [if_pos hskip] at hleaves ⊢
      exact ih hleaves
    · rw [if_neg hskip] at hleaves ⊢
      cases hdied : (placeAllPagesAdaptive e (percentage / 100) (e.segments percentage)).died with
      | some message =>
        simp only [hdied] at hleaves
        exact absurd rfl (hleaves message)
      | none =>
        have hplaced := placeAll_of_returns e hdied
        simp only [hdied] at hleaves ⊢
        rw [hplaced.1]
        split_ifs at hleaves ⊢ with hrisen hconfirmed
        · exact ⟨by simp [Surroundings.trialCalls], hplaced.2⟩
        · have hrest := ih hleaves
          refine ⟨by rw [hrest.1, List.flatMap_cons]; rfl, ?_⟩
          exact List.forall_mem_append.mpr ⟨hplaced.2, hrest.2⟩
        · have hrest := ih hleaves
          refine ⟨by rw [hrest.1, List.flatMap_cons]; rfl, ?_⟩
          exact List.forall_mem_append.mpr ⟨hplaced.2, hrest.2⟩

/-- A thread that leaves its loop has made a call for each large segment listed at a percentage it
tried, and no other. -/
theorem mem_calls_iff (hleaves : ∀ message, (adaptiveThread e).ending ≠ .failed message)
    {call : PlacePagesCall} :
    call ∈ (adaptiveThread e).calls ↔ ∃ trial ∈ (adaptiveThread e).trials,
      ∃ segment ∈ e.segments trial.candidate, Large segment ∧
        placePagesAdaptive e segment (trial.candidate / 100) = call := by
  unfold adaptiveThread at hleaves ⊢
  rw [(adaptiveLoop_of_leaves e hleaves).1]
  simp [Surroundings.trialCalls, mem_allCalls_iff]

/-- None of its calls has died. -/
theorem calls_return (hleaves : ∀ message, (adaptiveThread e).ending ≠ .failed message)
    {call : PlacePagesCall} (hcall : call ∈ (adaptiveThread e).calls) :
    (e.place call).died = none :=
  (adaptiveLoop_of_leaves e hleaves).2 call hcall

/-- The ratio of a call for a segment that has returned is accepted. -/
theorem accepted_of_place (hnodes : 2 ≤ e.nodes) {segment : MemorySegment} {ratio : ℚ}
    (hreturns : (e.place (placePagesAdaptive e segment ratio)).died = none) :
    1 / e.nodes ≤ ratio ∧ ratio ≤ 1 :=
  accepted_of_returns hnodes (MemorySegment.dvd_pageAlignedLength e.pageSize segment) hreturns

/-! ## The policies they leave -/

/-- Calls that return put the worker nodes in force on all they move. -/
theorem applyCalls_of_returns (hnodes : 2 ≤ e.nodes) {calls : List PlacePagesCall}
    (hpages : ∀ call ∈ calls, e.pageSize.bytes ∣ call.len.toNat)
    (hreturns : ∀ call ∈ calls, (e.place call).died = none) (policies : PolicyMap) :
    e.applyCalls calls policies =
      some (match workerMask e.maxNodes e.workers with
        | none => policies
        | some nodeSet => calls.foldl
          (fun g call => overlay (e.Moves call) (.requested .interleave nodeSet) g) policies) := by
  induction calls generalizing policies with
  | nil => cases workerMask e.maxNodes e.workers <;> rfl
  | cons call rest ih =>
    rw [List.forall_mem_cons] at hpages hreturns
    have hstep := placePages_apply hnodes hpages.1 hreturns.1 policies
    have hrest := ih hpages.2 hreturns.2
    unfold Surroundings.applyCalls at hrest ⊢
    rw [List.foldlM_cons, Surroundings.place, hstep, Option.bind_eq_bind, Option.bind_some, hrest]
    cases workerMask e.maxNodes e.workers <;> rfl

/-- A thread that leaves its loop has a last trial, at the largest percentage it has tried. -/
theorem exists_last_trial (hleaves : ∀ message, (adaptiveThread e).ending ≠ .failed message) :
    ∃ last ∈ (adaptiveThread e).trials, (adaptiveThread e).trials.getLast? = some last ∧
      ∀ trial ∈ (adaptiveThread e).trials, trial.candidate ≤ last.candidate := by
  have hsearch := adaptiveThread_eq_search e
  have hleaves' := hleaves
  rw [hsearch.2.2] at hleaves'
  have hascending : ((adaptiveThread e).trials.map Trial.candidate).Pairwise (· < ·) :=
    (tried_ascending e.nodes).sublist (measured_initial e).sublist
  obtain ⟨last, hlast, -⟩ := search_last (fun _ => (none : Option String))
    (fun percentage => (e.stallRate percentage : Rate))
    (fun percentage => (e.confirmation percentage : Rate)) tolerated ⊤ (tried_ne_nil e.nodes)
    fun _ _ => rfl
  rw [← search_of_not_failed _ _ _ _ hleaves'] at hlast
  change (e.search (loopPercentages e.nodes) ⊤).trials.getLast? = some last at hlast
  rw [← hsearch.1] at hlast
  obtain ⟨earlier, htrials⟩ := List.getLast?_eq_some_iff.mp hlast
  rw [htrials, List.map_append, List.pairwise_append] at hascending
  refine ⟨last, List.mem_of_getLast? hlast, hlast, ?_⟩
  intro trial htrial
  rw [htrials, List.mem_append, List.mem_singleton] at htrial
  cases htrial with
  | inl hearlier => exact (hascending.2.2 _ (List.mem_map_of_mem hearlier) _ (by simp)).le
  | inr hlast => rw [hlast]

/-- A large segment that is listed at every percentage tried, on pages of its own. -/
structure Surroundings.Stays (segment : MemorySegment) : Prop where
  large : Large segment
  listed : ∀ trial ∈ (adaptiveThread e).trials, segment ∈ e.segments trial.candidate
  apart : ∀ trial ∈ (adaptiveThread e).trials, ∀ other ∈ e.segments trial.candidate,
    Large other → other ≠ segment →
      ∀ x, ¬(segment.InPages e.pageSize x ∧ other.InPages e.pageSize x)

/-- What a call for a segment moves is on its pages. -/
theorem inPages_of_moves {segment : MemorySegment} {ratio : ℚ} {x : Word}
    (hmoves : e.Moves (placePagesAdaptive e segment ratio) x) : segment.InPages e.pageSize x :=
  BitVec.lt_def.mpr hmoves.2

/-- What a call of the thread for a segment moves, a later one for the same segment moves too. -/
theorem moves_mono (hnodes : 2 ≤ e.nodes)
    (hleaves : ∀ message, (adaptiveThread e).ending ≠ .failed message) {segment : MemorySegment}
    {percentage percentage' : ℕ} (hle : percentage ≤ percentage')
    (hcall : placePagesAdaptive e segment (percentage / 100) ∈ (adaptiveThread e).calls)
    (hcall' : placePagesAdaptive e segment (percentage' / 100) ∈ (adaptiveThread e).calls)
    {x : Word} (hmoves : e.Moves (placePagesAdaptive e segment (percentage / 100)) x) :
    e.Moves (placePagesAdaptive e segment (percentage' / 100)) x := by
  have hratio : (percentage : ℚ) / 100 ≤ percentage' / 100 :=
    div_le_div_of_nonneg_right (Nat.cast_le.mpr hle) (by norm_num)
  have hlow := (accepted_of_place e hnodes (calls_return e hleaves hcall)).1
  have hhigh := (accepted_of_place e hnodes (calls_return e hleaves hcall')).2
  exact moved_mono hnodes hlow hratio hhigh x hmoves

/-- The calls of the thread move, on the pages of a segment that stays, what the call at the last
percentage moves. -/
theorem moves_iff_last (hnodes : 2 ≤ e.nodes)
    (hleaves : ∀ message, (adaptiveThread e).ending ≠ .failed message) {last : Trial ℕ Rate}
    (hlast : last ∈ (adaptiveThread e).trials)
    (hlargest : ∀ trial ∈ (adaptiveThread e).trials, trial.candidate ≤ last.candidate)
    {segment : MemorySegment} (hstays : e.Stays segment) {x : Word}
    (hx : segment.InPages e.pageSize x) :
    (∃ call ∈ (adaptiveThread e).calls, e.Moves call x) ↔
      e.Moves (placePagesAdaptive e segment (last.candidate / 100)) x := by
  have hcall (trial : Trial ℕ Rate) (htrial : trial ∈ (adaptiveThread e).trials) :
      placePagesAdaptive e segment (trial.candidate / 100) ∈ (adaptiveThread e).calls :=
    (mem_calls_iff e hleaves).mpr
      ⟨trial, htrial, segment, hstays.listed trial htrial, hstays.large, rfl⟩
  constructor
  · rintro ⟨call, hmade, hmoves⟩
    obtain ⟨trial, htrial, other, hother, hlarge, rfl⟩ := (mem_calls_iff e hleaves).mp hmade
    -- another large segment would share a page with this one
    have hsame : other = segment := by
      by_contra hne
      exact hstays.apart trial htrial other hother hlarge hne x ⟨hx, inPages_of_moves e hmoves⟩
    rw [hsame] at hmoves
    exact moves_mono e hnodes hleaves (hlargest trial htrial) (hcall trial htrial)
      (hcall last hlast) hmoves
  · intro hmoves
    exact ⟨_, hcall last hlast, hmoves⟩

/-- A thread that leaves its loop leaves every address outside the large segments as it was, and on
every segment that stayed in the list what one call of `place_pages_adaptive` at the last percentage
would have left, whatever was placed and measured before it. -/
theorem adaptiveThread_leaves_last (hnodes : 2 ≤ e.nodes)
    (hleaves : ∀ message, (adaptiveThread e).ending ≠ .failed message) (before : PolicyMap) :
    ∃ last after, (adaptiveThread e).trials.getLast? = some last ∧
      e.applyCalls (adaptiveThread e).calls before = some after ∧
      (∀ x, (∀ trial ∈ (adaptiveThread e).trials, ∀ segment ∈ e.segments trial.candidate,
        Large segment → ¬ segment.InPages e.pageSize x) → after x = before x) ∧
      ∀ segment, e.Stays segment → ∃ alone,
        (e.place (placePagesAdaptive e segment (last.candidate / 100))).apply before =
          some alone ∧
        ∀ x, segment.InPages e.pageSize x → after x = alone x := by
  obtain ⟨last, hmem, hlast, hlargest⟩ := exists_last_trial e hleaves
  have hpages : ∀ call ∈ (adaptiveThread e).calls, e.pageSize.bytes ∣ call.len.toNat := by
    intro call hcall
    obtain ⟨-, -, segment, -, -, rfl⟩ := (mem_calls_iff e hleaves).mp hcall
    exact MemorySegment.dvd_pageAlignedLength e.pageSize segment
  refine ⟨last, _, hlast, applyCalls_of_returns e hnodes hpages
    (fun call hcall => calls_return e hleaves hcall) before, ?_, ?_⟩
  · intro x hout
    cases workerMask e.maxNodes e.workers with
    | none => rfl
    | some nodeSet =>
      refine (foldl_overlay_apply e.Moves _ _ before x).2 ?_
      rintro ⟨call, hcall, hmoves⟩
      obtain ⟨trial, htrial, segment, hsegment, hlarge, rfl⟩ := (mem_calls_iff e hleaves).mp hcall
      exact hout trial htrial segment hsegment hlarge (inPages_of_moves e hmoves)
  · intro segment hstays
    have hdied : (e.place (placePagesAdaptive e segment (last.candidate / 100))).died = none :=
      calls_return e hleaves ((mem_calls_iff e hleaves).mpr
        ⟨last, hmem, segment, hstays.listed last hmem, hstays.large, rfl⟩)
    refine ⟨_, placePages_apply hnodes
      (MemorySegment.dvd_pageAlignedLength e.pageSize segment) hdied before, fun x hx => ?_⟩
    have hmoves := moves_iff_last e hnodes hleaves hmem hlargest hstays hx
    cases workerMask e.maxNodes e.workers with
    | none => rfl
    | some nodeSet =>
      have hleft := foldl_overlay_apply e.Moves (PagePolicy.requested .interleave nodeSet)
        (adaptiveThread e).calls before x
      by_cases hmoved : e.Moves (placePagesAdaptive e segment (last.candidate / 100)) x
      · exact (hleft.1 (hmoves.mpr hmoved)).trans (if_pos hmoved).symm
      · exact (hleft.2 (mt hmoves.mp hmoved)).trans (if_neg hmoved).symm

/-- A stall rate that doubles at the second percentage leaves the placement at that percentage. -/
theorem adaptiveThread_leaves_last_risen :
    let e := fourNodes (fun p => if p = 25 then 1 else 2) fun _ => 2
    let segment := extent 0x7f0000000000 0x200000 "mmap"
    let before : PolicyMap := fun _ => .other 3 {0, 1, 2, 3}
    ∃ last after alone, (adaptiveThread e).trials.getLast? = some last ∧
      e.applyCalls (adaptiveThread e).calls before = some after ∧
      (e.place (placePagesAdaptive e segment (last.candidate / 100))).apply before = some alone ∧
      ∀ x, segment.InPages e.pageSize x → after x = alone x := by
  intro e segment before
  have hending : (adaptiveThread e).ending = .risen := by decide +kernel
  have honly {other : MemorySegment} (p : ℕ) (hother : other ∈ e.segments p) : other = segment :=
    List.mem_singleton.mp hother
  have hstays : e.Stays segment := by
    refine ⟨by decide, fun trial _ => List.mem_singleton_self segment, ?_⟩
    exact fun trial _ other hother _ hne => absurd (honly _ hother) hne
  obtain ⟨last, after, hlast, hafter, -, hpages⟩ :=
    adaptiveThread_leaves_last e (by decide) (by simp [hending]) before
  obtain ⟨alone, halone, hsame⟩ := hpages segment hstays
  exact ⟨last, after, alone, hlast, hafter, halone, hsame⟩

end Bwap
