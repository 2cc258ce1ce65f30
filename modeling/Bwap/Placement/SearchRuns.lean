import Bwap.Common.Runs
import Bwap.Placement.WeightSearch
import Bwap.Placement.WrittenPlacement

/-!
# Runs of the gradient search

Every iteration runs the application on files with the current weights and with those of each
neighbour. The times it measures decide where the next iteration stands. As long as the points of
the steps survive the repair, every file of the run holds a weight vector that the library reads
and accepts; and the weights are lost at the first step whose point does not.
-/

namespace Bwap

open Common

namespace WeightSearch

variable {n : ℕ}

/-- `num_runs`. -/
def numRuns : ℕ := 3

/-- `t_0` and `dim_time`, as an iteration measures them. -/
structure Measured (n : ℕ) where
  t₀ : ℚ
  dimTime : Weights n

/-- An iteration of `main` on `initial_weights`, which are lost once a sum of zero is divided
by. -/
def SearchStep (s : Option (Weights n)) (times : Measured n) (s' : Option (Weights n)) : Prop :=
  s' = s.bind fun w => nextWeights w times.t₀ times.dimTime

/-- The weights that an iteration hands to `run_app`, in order. -/
def appRuns (s : Option (Weights n)) : List (Option (Weights n)) :=
  List.replicate numRuns s ++ (List.finRange (n + 1)).flatMap fun j =>
    List.replicate numRuns (s.bind fun w => dimArray w j)

/-- What the search should hand to `run_app`. -/
def Valid (s : Option (Weights n)) : Prop := ∃ w, s = some w ∧ IsWeightVector w

/-- The point that a step leads to survives the repair. -/
def StepSurvives (s : Option (Weights n)) (times : Measured n) : Prop :=
  ∀ w, s = some w → SurvivesRepair (stepPoint w times.t₀ times.dimTime)

/-- A library whose table has room for every node reads a file and passes the check of its sums,
for every number of workers that it supports. -/
def AcceptsFile (maxNodes : ℕ) (content : List Char) : Prop :=
  ∃ table, readWeights atof atoi sortNumeric 0 (some content) (SumsState.start maxNodes).nodesInfo =
      .returned table ∧
    ∀ workers worker, workerNode workers = some worker → worker < maxNodes →
      (SumsState.getSum { SumsState.start maxNodes with nodesInfo := table } workers).exited = none

/-- A step keeps the weights valid exactly when its point survives the repair. -/
theorem SearchStep.valid_iff {s s' : Option (Weights n)} {times : Measured n}
    (hstep : SearchStep s times s') (hs : Valid s) : Valid s' ↔ StepSurvives s times := by
  obtain ⟨w, rfl, hw⟩ := hs
  have hnext : s' = normalize (eliminateNegatives (stepPoint w times.t₀ times.dimTime)) :=
    hstep.trans (nextWeights_eq hw times.t₀ times.dimTime)
  have hsurvives : StepSurvives (some w) times ↔
      SurvivesRepair (stepPoint w times.t₀ times.dimTime) := by
    constructor
    · intro h
      exact h w rfl
    · intro h w' hw'
      rwa [← Option.some.inj hw']
  rw [hsurvives, hnext]
  exact repair_valid_iff _

/-- From valid weights, everything handed to `run_app` is valid. -/
theorem valid_of_mem_appRuns {s : Option (Weights n)} (hs : Valid s) {run : Option (Weights n)}
    (hrun : run ∈ appRuns s) : Valid run := by
  obtain ⟨w, rfl, hw⟩ := hs
  rcases List.mem_append.mp hrun with hpoint | hneighbour
  · rw [List.eq_of_mem_replicate hpoint]
    exact ⟨w, rfl, hw⟩
  · obtain ⟨j, -, hj⟩ := List.mem_flatMap.mp hneighbour
    rw [List.eq_of_mem_replicate hj]
    exact dimArray_valid hw j

/-- The file of a weight vector for at most nine nodes is accepted. -/
theorem acceptsFile_of_valid {w : Weights n} (hw : IsWeightVector w) (hcount : n < 9) :
    AcceptsFile (n + 1) (insertFile (List.ofFn w)) := by
  have hlength : (List.ofFn w).length = n + 1 := List.length_ofFn
  have hsum : (List.ofFn w).sum = 100 := by rw [List.sum_ofFn, hw.total]
  have hroom : (SumsState.start (n + 1)).nodesInfo.length = n + 1 := by simp [SumsState.start]
  refine ⟨sortedRecords (List.ofFn w), ?_, fun workers worker hworker hnode => ?_⟩
  · rw [readWeights_insertFile_iff (by omega) (by decide), hlength, hroom,
      List.drop_of_length_le hroom.le, List.append_nil]
    exact ⟨le_rfl, rfl⟩
  · have hcall := getSum_sortedRecords hsum (by omega) hworker (by omega)
    exact congrArg SumsState.exited hcall

/-- In every run of the search from a weight vector, for whatever times are measured: the weights
stay a weight vector exactly when the point of every step survives the repair. Then every file that
the run writes holds a weight vector, and on at most nine nodes the library accepts it. -/
theorem search_files_accepted {w : Weights n} (hw : IsWeightVector w)
    {trace : List (Measured n × Option (Weights n))} (hrun : Run SearchStep (some w) trace) :
    (Throughout Valid trace ↔ Guarded StepSurvives (some w) trace) ∧
      (Guarded StepSurvives (some w) trace →
        ∀ s ∈ some w :: trace.map Prod.snd, ∀ run ∈ appRuns s,
          ∃ weights, run = some weights ∧ IsWeightVector weights ∧
            (n < 9 → AcceptsFile (n + 1) (insertFile (List.ofFn weights)))) := by
  have hvalid : Valid (some w) := ⟨w, rfl, hw⟩
  have hiff : Throughout Valid trace ↔ Guarded StepSurvives (some w) trace :=
    Run.throughout_iff_guarded (fun _ hs => hs)
      (fun _ _ _ hs hstep hguard => (SearchStep.valid_iff hstep hs).mpr hguard)
      (fun _ _ _ hs hstep hgood => (SearchStep.valid_iff hstep hs).mp hgood) hrun hvalid
  refine ⟨hiff, fun hguarded s hs run hmem => ?_⟩
  have hreached : Valid s := by
    rcases List.mem_cons.mp hs with rfl | hlater
    · exact hvalid
    · obtain ⟨entry, hentry, rfl⟩ := List.mem_map.mp hlater
      exact hiff.mpr hguarded entry hentry
  obtain ⟨weights, rfl, hweights⟩ := valid_of_mem_appRuns hreached hmem
  exact ⟨weights, rfl, hweights, acceptsFile_of_valid hweights⟩

/-- An iteration in which the first neighbour is slower ends with the second node alone, and the
next one starts with the file of these weights. -/
theorem search_files_accepted_slower :
    nextWeights (![50, 50] : Weights 1) 100 ![130, 100] = some ![0, 100] ∧
      IsWeightVector (![0, 100] : Weights 1) ∧
      AcceptsFile 2 (insertFile (List.ofFn (![0, 100] : Weights 1))) := by
  have hnext : nextWeights (![50, 50] : Weights 1) 100 ![130, 100] = some ![0, 100] := by
    decide +kernel
  have hrun : Run SearchStep (some ![50, 50])
      [((⟨100, ![130, 100]⟩ : Measured 1), some ![0, 100])] := .cons hnext.symm (.nil _)
  have hsurvives : StepSurvives (some ![50, 50]) (⟨100, ![130, 100]⟩ : Measured 1) := by
    intro w hw
    rw [← Option.some.inj hw]
    exact survivesRepair_slower
  obtain ⟨weights, hsame, hweights, haccepts⟩ :=
    (search_files_accepted isWeightVector_fifty hrun).2 ⟨hsurvives, trivial⟩ (some ![0, 100])
      (by simp) (some ![0, 100]) (by simp [appRuns, numRuns])
  obtain rfl := Option.some.inj hsame
  exact ⟨hnext, hweights, haccepts (by decide)⟩

end WeightSearch

end Bwap
