import Bwap.Common.Search
import Bwap.Memory.Segment
import Bwap.Placement.Ratio
import Mathlib.Algebra.Order.Ring.WithTop

/-!
# The adaptive mode

The thread of the adaptive mode climbs through a range of percentages. At each one that it
does not skip it places all large segments and measures the stall rate; when the rate has
risen, and a longer measurement agrees, it leaves the loop. The loop is a search through the
percentages that are not skipped.
-/

namespace Bwap

open Common

/-- A `double` that holds a stall rate: infinite until one is measured. -/
abbrev Rate := WithTop ℚ

/-- The arguments of a call of `place_pages`. -/
structure PlacePagesCall where
  addr : Word
  len : Word
  ratio : ℚ
deriving DecidableEq

/-- What placing all segments comes to: the calls made, and the message of the one that dies. -/
structure PlaceAll where
  calls : List PlacePagesCall
  died : Option String
deriving DecidableEq

/-- What the adaptive thread meets: the machine, the segments listed when a percentage is tried, the
average stall rate measured there, and the one of the longer measurement that confirms it. -/
structure Surroundings where
  pageSize : PageSize
  mbind : MbindCall → Bool
  nodes : ℕ
  maxNodes : ℕ
  workers : ℤ
  segments : ℕ → List MemorySegment
  stallRate : ℕ → ℚ
  confirmation : ℕ → ℚ

variable (e : Surroundings)

/-- `place_pages` with the arguments of a call. -/
def Surroundings.place (call : PlacePagesCall) : SplitPlacement :=
  placePages e.pageSize e.mbind e.nodes e.maxNodes e.workers call.addr call.len call.ratio

/-- The call that `place_pages_adaptive` makes for a segment. -/
def placePagesAdaptive (segment : MemorySegment) (ratio : ℚ) : PlacePagesCall :=
  ⟨segment.pageAlignedStartAddress e.pageSize, segment.pageAlignedLength e.pageSize, ratio⟩

/-- The segments that are placed: those of more than a mebibyte. -/
def Large (segment : MemorySegment) : Prop := segment.length > (1 : Word) <<< 20

instance (segment : MemorySegment) : Decidable (Large segment) :=
  inferInstanceAs (Decidable (_ > _))

/-- `place_all_pages_adaptive`. -/
def placeAllPagesAdaptive (ratio : ℚ) : List MemorySegment → PlaceAll
  | [] => ⟨[], none⟩
  | segment :: rest =>
    if Large segment then
      let call := placePagesAdaptive e segment ratio
      match (e.place call).died with
      | some message => ⟨[call], some message⟩
      | none =>
        let next := placeAllPagesAdaptive ratio rest
        { next with calls := call :: next.calls }
    else placeAllPagesAdaptive ratio rest

/-- `ADAPTATION_STEP`. -/
def adaptationStep : ℕ := 10

/-- The percentage at which the loop starts. -/
def firstPercentage (nodes : ℕ) : ℕ := (100 / nodes + 4) / 5 * 5

/-- The values of `local_percentage`: up to 100, in steps of `ADAPTATION_STEP`. -/
def loopPercentages (nodes : ℕ) : List ℕ :=
  List.range' (firstPercentage nodes)
    ((100 + adaptationStep - firstPercentage nodes) / adaptationStep) adaptationStep

/-- The percentages that the loop skips. -/
def Skipped (percentage : ℕ) : Prop := percentage % 10 = 0 ∧ percentage ≠ 100

instance (percentage : ℕ) : Decidable (Skipped percentage) := inferInstanceAs (Decidable (_ ∧ _))

/-- The rates that do not count as worse than the best one. -/
def tolerated (best : Rate) : Rate := best.map (· * 1.001)

/-- A run of the adaptive thread: the calls of `place_pages` it causes, the percentages it measures,
the best rate and the reason why the loop is left. -/
structure AdaptiveRun where
  calls : List PlacePagesCall
  trials : List (Trial ℕ Rate)
  best : Rate
  ending : SearchEnd String

/-- The loop of `adaptiveThread`. -/
def adaptiveLoop : List ℕ → Rate → AdaptiveRun
  | [], best => ⟨[], [], best, .exhausted⟩
  | percentage :: rest, best =>
    if Skipped percentage then adaptiveLoop rest best
    else
      let localRatio : ℚ := percentage / 100
      let placed := placeAllPagesAdaptive e localRatio (e.segments percentage)
      match placed.died with
      | some message => ⟨placed.calls, [], best, .failed message⟩
      | none =>
        let stallRate : Rate := e.stallRate percentage
        let bestStallRate := min best stallRate
        if stallRate > tolerated bestStallRate then
          let confirmation : Rate := e.confirmation percentage
          let trial := ⟨percentage, stallRate, some confirmation⟩
          if confirmation > tolerated bestStallRate then
            ⟨placed.calls, [trial], bestStallRate, .risen⟩
          else
            let next := adaptiveLoop rest bestStallRate
            { next with calls := placed.calls ++ next.calls, trials := trial :: next.trials }
        else
          let next := adaptiveLoop rest bestStallRate
          { next with
            calls := placed.calls ++ next.calls
            trials := ⟨percentage, stallRate, none⟩ :: next.trials }

/-- `AdaptiveMode::adaptiveThread`. -/
def adaptiveThread : AdaptiveRun := adaptiveLoop e (loopPercentages e.nodes) ⊤

/-! ## The loop as a search -/

/-- The percentages the loop does not skip. -/
def triedPercentages (percentages : List ℕ) : List ℕ :=
  percentages.filter fun percentage => decide (¬ Skipped percentage)

@[simp] theorem triedPercentages_skipped {percentage : ℕ} (rest : List ℕ)
    (hskip : Skipped percentage) :
    triedPercentages (percentage :: rest) = triedPercentages rest := by
  simp [triedPercentages, hskip]

@[simp] theorem triedPercentages_tried {percentage : ℕ} (rest : List ℕ)
    (hskip : ¬ Skipped percentage) :
    triedPercentages (percentage :: rest) = percentage :: triedPercentages rest := by
  simp [triedPercentages, hskip]

/-- The message with which placing the segments at a percentage dies. -/
def Surroundings.dies (percentage : ℕ) : Option String :=
  (placeAllPagesAdaptive e (percentage / 100) (e.segments percentage)).died

/-- The search that the loop is. -/
def Surroundings.search (percentages : List ℕ) (best : Rate) : Search String ℕ Rate :=
  Common.search e.dies (fun percentage => (e.stallRate percentage : Rate))
    (fun percentage => (e.confirmation percentage : Rate)) tolerated
    (triedPercentages percentages) best

/-- The loop searches through the percentages it does not skip. -/
theorem adaptiveLoop_eq_search (percentages : List ℕ) (best : Rate) :
    (adaptiveLoop e percentages best).trials = (e.search percentages best).trials ∧
      (adaptiveLoop e percentages best).best = (e.search percentages best).best ∧
      (adaptiveLoop e percentages best).ending = (e.search percentages best).ending := by
  induction percentages generalizing best with
  | nil => exact ⟨rfl, rfl, rfl⟩
  | cons percentage rest ih =>
    by_cases hskip : Skipped percentage
    · rw [Surroundings.search, triedPercentages_skipped rest hskip, adaptiveLoop, if_pos hskip]
      exact ih best
    · rw [Surroundings.search, triedPercentages_tried rest hskip, adaptiveLoop, if_neg hskip]
      cases hdies : (placeAllPagesAdaptive e (percentage / 100) (e.segments percentage)).died with
      | some message => simp [Common.search, Surroundings.dies, hdies]
      | none =>
        obtain ⟨htrials, hbest, hending⟩ := ih (min best (e.stallRate percentage : Rate))
        simp only [Common.search, Surroundings.dies, hdies, gt_iff_lt]
        split_ifs with hrisen hconfirmed
        · exact ⟨rfl, rfl, rfl⟩
        · exact ⟨congrArg (List.cons _) htrials, hbest, hending⟩
        · exact ⟨congrArg (List.cons _) htrials, hbest, hending⟩

/-- The thread searches through all percentages, from no rate on. -/
theorem adaptiveThread_eq_search :
    (adaptiveThread e).trials = (e.search (loopPercentages e.nodes) ⊤).trials ∧
      (adaptiveThread e).best = (e.search (loopPercentages e.nodes) ⊤).best ∧
      (adaptiveThread e).ending = (e.search (loopPercentages e.nodes) ⊤).ending :=
  adaptiveLoop_eq_search e (loopPercentages e.nodes) ⊤

/-- A trial of the thread records the rate measured at its percentage. -/
theorem adaptiveThread_cost {trial : Trial ℕ Rate} (htrial : trial ∈ (adaptiveThread e).trials) :
    trial.cost = e.stallRate trial.candidate := by
  rw [(adaptiveThread_eq_search e).1] at htrial
  exact search_cost _ _ _ _ htrial

/-! ## The percentages -/

section Percentages

variable {nodes percentage : ℕ}

/-- The loop starts at a multiple of five that is at most 100. -/
theorem firstPercentage_bounds (nodes : ℕ) :
    100 / nodes ≤ firstPercentage nodes ∧ firstPercentage nodes ≤ 100 ∧
      firstPercentage nodes % 5 = 0 := by
  have hshare : 100 / nodes ≤ 100 := Nat.div_le_self _ _
  unfold firstPercentage
  omega

/-- The loop visits the percentages up to 100 that are a number of steps after the first. -/
theorem mem_loopPercentages_iff :
    percentage ∈ loopPercentages nodes ↔
      firstPercentage nodes ≤ percentage ∧ percentage ≤ 100 ∧
        percentage % 10 = firstPercentage nodes % 10 := by
  rw [loopPercentages, List.mem_range', adaptationStep]
  apply Iff.intro
  · intro h
    obtain ⟨i, hi, rfl⟩ := h
    omega
  · intro h
    exact ⟨(percentage - firstPercentage nodes) / 10, by omega, by omega⟩

/-- The percentages that are tried. -/
theorem mem_tried_iff :
    percentage ∈ triedPercentages (loopPercentages nodes) ↔
      percentage ∈ loopPercentages nodes ∧ ¬ Skipped percentage := by
  simp [triedPercentages]

/-- The percentages are tried in ascending order. -/
theorem tried_ascending (nodes : ℕ) :
    (triedPercentages (loopPercentages nodes)).Pairwise (· < ·) :=
  (List.pairwise_lt_range' adaptationStep (by decide)).filter _

/-- At least one percentage is tried. -/
theorem tried_ne_nil (nodes : ℕ) : triedPercentages (loopPercentages nodes) ≠ [] := by
  obtain ⟨-, hle, hfive⟩ := firstPercentage_bounds nodes
  by_cases hten : firstPercentage nodes % 10 = 0
  · have hlast : 100 ∈ triedPercentages (loopPercentages nodes) :=
      mem_tried_iff.mpr ⟨mem_loopPercentages_iff.mpr (by omega), by simp [Skipped]⟩
    exact List.ne_nil_of_mem hlast
  · have hfirst : firstPercentage nodes ∈ triedPercentages (loopPercentages nodes) :=
      mem_tried_iff.mpr ⟨mem_loopPercentages_iff.mpr (by omega), fun hskip => hten hskip.1⟩
    exact List.ne_nil_of_mem hfirst

end Percentages

/-! ## The placement left in force -/

/-- A larger best rate tolerates more. -/
theorem tolerated_mono : Monotone tolerated :=
  Monotone.withTop_map fun _ _ hle => mul_le_mul_of_nonneg_right hle (by norm_num)

/-- Among measured rates, one is tolerated up to a factor. -/
@[simp] theorem le_tolerated_iff (rate best : ℚ) :
    (rate : Rate) ≤ tolerated (best : Rate) ↔ rate ≤ best * 1.001 := by
  rw [tolerated, WithTop.map_coe, WithTop.coe_le_coe]

/-- Everything is tolerated before the first measurement. -/
theorem le_tolerated_top (rate : Rate) : rate ≤ tolerated ⊤ := le_top

/-- The placement left in force is the last one, and one of its measurements is tolerated beside
every first measurement of the run. -/
def AdaptiveRun.EndsOnBest (run : AdaptiveRun) : Prop :=
  ∃ trial, run.trials.getLast? = some trial ∧
    ((∀ other ∈ run.trials, trial.cost ≤ tolerated other.cost) ∨
      ∃ rate ∈ trial.confirmation, ∀ other ∈ run.trials, rate ≤ tolerated other.cost)

/-- A thread that leaves its loop ends on its best placement exactly when it does not break off. -/
theorem endsOnBest_iff_exhausted
    (hleaves : ∀ message, (adaptiveThread e).ending ≠ .failed message) :
    (adaptiveThread e).EndsOnBest ↔ (adaptiveThread e).ending = .exhausted := by
  obtain ⟨htrials, -, hending⟩ := adaptiveThread_eq_search e
  rw [hending] at hleaves ⊢
  have hsearch := search_of_not_failed _ _ _ _ hleaves
  obtain ⟨last, hlast, hwithin⟩ := search_last (fun _ => (none : Option String))
    (fun percentage => (e.stallRate percentage : Rate))
    (fun percentage => (e.confirmation percentage : Rate)) tolerated ⊤ (tried_ne_nil e.nodes)
    fun _ _ => rfl
  rw [← hsearch] at hlast hwithin
  unfold AdaptiveRun.EndsOnBest
  rw [htrials]
  refine Iff.trans ?_ hwithin
  have hlimit := fun bound => search_le_limit_iff e.dies
    (fun percentage => (e.stallRate percentage : Rate))
    (fun percentage => (e.confirmation percentage : Rate)) tolerated tolerated_mono
    (triedPercentages (loopPercentages e.nodes)) ⊤ bound
  simp only [le_tolerated_top, true_and] at hlimit
  simp only [Trial.Within, hlimit]
  apply Iff.intro
  · intro h
    obtain ⟨trial, htrial, hbest⟩ := h
    obtain rfl : last = trial := Option.some.inj (hlast.symm.trans htrial)
    exact hbest
  · intro h
    exact ⟨last, hlast, h⟩

/-- A thread that leaves its loop ends on its best placement exactly when, at each percentage it
would try, one of the two measurements is tolerated beside the first measurement at every
percentage up to it. -/
theorem adaptiveThread_endsOnBest_iff
    (hleaves : ∀ message, (adaptiveThread e).ending ≠ .failed message) :
    (adaptiveThread e).EndsOnBest ↔
      ∀ p ∈ triedPercentages (loopPercentages e.nodes),
        (∀ q ∈ triedPercentages (loopPercentages e.nodes), q ≤ p →
            e.stallRate p ≤ e.stallRate q * 1.001) ∨
          ∀ q ∈ triedPercentages (loopPercentages e.nodes), q ≤ p →
            e.confirmation p ≤ e.stallRate q * 1.001 := by
  have hends := endsOnBest_iff_exhausted e hleaves
  obtain ⟨-, -, hending⟩ := adaptiveThread_eq_search e
  rw [hending] at hleaves hends
  have hexhausted := search_exhausted_iff_of_ascending tolerated_mono (tried_ascending e.nodes)
    le_tolerated_top hleaves
  simp only [le_tolerated_iff] at hexhausted
  exact hends.trans hexhausted

/-- A machine of four nodes with one segment of two mebibytes. -/
def fourNodes (stallRate confirmation : ℕ → ℚ) : Surroundings where
  pageSize := .fourKiB
  mbind := fun _ => true
  nodes := 4
  maxNodes := 4
  workers := 1
  segments := fun _ => [extent 0x7f0000000000 0x200000 "mmap"]
  stallRate := stallRate
  confirmation := confirmation

/-- A stall rate that falls all the way leaves the last placement in force. -/
theorem adaptiveThread_endsOnBest_falling :
    (adaptiveThread (fourNodes (fun p => 100 - p) fun p => 100 - p)).EndsOnBest := by
  have hending : (adaptiveThread (fourNodes (fun p => 100 - p) fun p => 100 - p)).ending =
      .exhausted := by decide +kernel
  exact (adaptiveThread_endsOnBest_iff _ (by simp [hending])).mpr (by decide +kernel)

/-- A stall rate that doubles at the second percentage leaves the worse placement in force. -/
theorem adaptiveThread_endsOnBest_risen :
    let run := adaptiveThread (fourNodes (fun p => if p = 25 then 1 else 2) fun _ => 2)
    run.trials = [⟨25, 1, none⟩, ⟨35, 2, some 2⟩] ∧ run.ending = .risen ∧ ¬ run.EndsOnBest := by
  intro run
  have hending : run.ending = .risen := by decide +kernel
  have hends := endsOnBest_iff_exhausted
    (fourNodes (fun p => if p = 25 then 1 else 2) fun _ => 2) (by simp [run, hending])
  refine ⟨by decide +kernel, hending, ?_⟩
  rw [hends, hending]
  simp

end Bwap
