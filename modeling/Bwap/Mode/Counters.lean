import Bwap.Common.Differences
import Bwap.Common.Fallible
import Bwap.Common.Runs
import Bwap.Mode.StallRate
import Bwap.Placement.Page

/-!
# The stall counters

`get_stall_rate_v2` and `get_elapsed_stall_rate` each divide the stalls since they were last
called by the clock ticks since then, and remember both readings in static variables of their
own; `get_stall_rate` does the same with a counter that it reads itself. The modes call them in
turns. What one of them returns depends on its own calls alone, and, multiplied by the ticks, adds
up to all the stalls there were.
-/

namespace Bwap

open Common

/-! ## One call -/

/-- Where the counters end the process. -/
inductive CounterFault
  | stopCounters
  | unsupportedArchitecture
  | startCounters
deriving DecidableEq

/-- What a call finds: the results of stopping and of restarting the counters, the flag of the
architecture, the value of the counter and the clock. -/
structure CounterReading where
  stopCounters : ℤ
  isIntel : ℤ
  result : ℚ
  clock : Word
  startCounters : ℤ

/-- The static variables of a function that measures. -/
structure Baseline where
  stalls : ℚ
  clockcounts : Word

/-- Only one CPU is monitored. -/
def activeCpus : ℚ :=
  1

/-- The stalls per tick since the baseline; none when the clock has not moved. -/
def stallRate (baseline : Baseline) (stalls : ℚ) (clock : Word) : Option ℚ :=
  let elapsed := clock - baseline.clockcounts
  if elapsed = 0 then none else some ((stalls - baseline.stalls) / elapsed.toNat)

/-- The body that `get_stall_rate_v2` and `get_elapsed_stall_rate` share, each with its own static
variables. -/
def measure (baseline : Baseline) (reading : CounterReading) :
    Except CounterFault (Option ℚ × Baseline) := do
  if reading.stopCounters < 0 then .error .stopCounters
  else if reading.isIntel ≠ 1 ∧ reading.isIntel ≠ 0 then .error .unsupportedArchitecture
  else
    let stalls := reading.result / activeCpus
    let rate := stallRate baseline stalls reading.clock
    if reading.startCounters < 0 then .error .startCounters
    else .ok (rate, { stalls, clockcounts := reading.clock })

/-- When a measurement succeeds, and what it returns and remembers. -/
theorem measure_eq_ok_iff {baseline baseline' : Baseline} {reading : CounterReading}
    {rate : Option ℚ} :
    measure baseline reading = .ok (rate, baseline') ↔
      (0 ≤ reading.stopCounters ∧ (reading.isIntel = 1 ∨ reading.isIntel = 0) ∧
        0 ≤ reading.startCounters) ∧
      rate = stallRate baseline reading.result reading.clock ∧
      baseline' = { stalls := reading.result, clockcounts := reading.clock } := by
  unfold measure
  rw [activeCpus, div_one]
  split_ifs with hstop harchitecture hstart
  · rw [false_iff]
    omega
  · rw [false_iff]
    omega
  · rw [false_iff]
    omega
  · rw [Except.ok.injEq, Prod.mk.injEq, eq_comm, @eq_comm _ _ baseline']
    exact (and_iff_right ⟨by omega, by omega, by omega⟩).symm

/-! ## Calls in turns -/

/-- The functions that measure through the library. -/
inductive LikwidFunction
  | getStallRateV2
  | getElapsedStallRate
deriving DecidableEq

/-- The static variables of the three functions. -/
structure Statics where
  baseline : LikwidFunction → Baseline
  prevClockcounts : Word
  prevPmcounts : Word

/-- The static variables before the first call. -/
def Statics.initial : Statics where
  baseline := fun _ => { stalls := 0, clockcounts := 0 }
  prevClockcounts := 0
  prevPmcounts := 0

/-- What a function remembers for its next call. -/
def Statics.remember (statics : Statics) (function : LikwidFunction) (baseline : Baseline) :
    Statics :=
  { statics with baseline := Function.update statics.baseline function baseline }

/-- `get_stall_rate_v2` or `get_elapsed_stall_rate`. -/
def Statics.measure (statics : Statics) (function : LikwidFunction) (reading : CounterReading) :
    Except CounterFault (Option ℚ × Statics) := do
  let (rate, baseline) ← Bwap.measure (statics.baseline function) reading
  .ok (rate, statics.remember function baseline)

/-- `get_stall_rate_v2`. -/
def getStallRateV2 (statics : Statics) (reading : CounterReading) :
    Except CounterFault (Option ℚ × Statics) :=
  statics.measure .getStallRateV2 reading

/-- `get_elapsed_stall_rate`. -/
def getElapsedStallRate (statics : Statics) (reading : CounterReading) :
    Except CounterFault (Option ℚ × Statics) :=
  statics.measure .getElapsedStallRate reading

/-- `get_stall_rate`. -/
def getStallRate (statics : Statics) (clock pmc : Word) : Option ℚ × Statics :=
  let elapsed := clock - statics.prevClockcounts
  let rate := if elapsed = 0 then none
    else some (((pmc - statics.prevPmcounts).toNat : ℚ) / elapsed.toNat)
  (rate, { statics with prevClockcounts := clock, prevPmcounts := pmc })

/-- A call of one of the three functions, with what it finds and what it returns. -/
inductive CounterCall
  | stallRateV2 (reading : CounterReading) (rate : Option ℚ)
  | elapsedStallRate (reading : CounterReading) (rate : Option ℚ)
  | stallRate (clock pmc : Word) (rate : Option ℚ)

/-- A call that does not end the process. -/
def CounterStep (statics : Statics) : CounterCall → Statics → Prop
  | .stallRateV2 reading rate, statics' =>
    getStallRateV2 statics reading = .ok (rate, statics')
  | .elapsedStallRate reading rate, statics' =>
    getElapsedStallRate statics reading = .ok (rate, statics')
  | .stallRate clock pmc rate, statics' =>
    getStallRate statics clock pmc = (rate, statics')

/-- What a call of this function finds and returns. -/
def CounterCall.of : LikwidFunction → CounterCall → Option (CounterReading × Option ℚ)
  | .getStallRateV2, .stallRateV2 reading rate => some (reading, rate)
  | .getElapsedStallRate, .elapsedStallRate reading rate => some (reading, rate)
  | _, _ => none

/-- The calls of one function in a trace. -/
def callsOf (function : LikwidFunction) (trace : List (CounterCall × Statics)) :
    List (CounterReading × Option ℚ) :=
  trace.filterMap fun entry => entry.1.of function

/-- The rates of a function that is called alone. -/
def ratesFrom : Baseline → List CounterReading → List (Option ℚ)
  | _, [] => []
  | baseline, reading :: later =>
    stallRate baseline reading.result reading.clock ::
      ratesFrom { stalls := reading.result, clockcounts := reading.clock } later

/-- A call of a function succeeds when it measures, and changes its own static variables only. -/
theorem Statics.measure_eq_ok_iff {statics statics' : Statics} {function : LikwidFunction}
    {reading : CounterReading} {rate : Option ℚ} :
    statics.measure function reading = .ok (rate, statics') ↔
      (0 ≤ reading.stopCounters ∧ (reading.isIntel = 1 ∨ reading.isIntel = 0) ∧
        0 ≤ reading.startCounters) ∧
      rate = Bwap.stallRate (statics.baseline function) reading.result reading.clock ∧
      statics' = statics.remember function
        { stalls := reading.result, clockcounts := reading.clock } := by
  unfold Statics.measure
  rw [bind_eq_ok_iff]
  constructor
  · rintro ⟨⟨rate, baseline⟩, hmeasure, hstatics⟩
    have hone := Bwap.measure_eq_ok_iff.mp hmeasure
    cases hstatics
    exact ⟨hone.1, hone.2.1, by rw [hone.2.2]⟩
  · rintro ⟨hok, hrate, rfl⟩
    exact ⟨_, Bwap.measure_eq_ok_iff.mpr ⟨hok, hrate, rfl⟩, rfl⟩

/-- A step either is a call of the function or leaves its static variables alone. -/
theorem CounterStep.of_function {statics statics' : Statics} {call : CounterCall}
    (function : LikwidFunction) (hstep : CounterStep statics call statics') :
    (call.of function = none ∧ statics'.baseline function = statics.baseline function) ∨
      ∃ reading : CounterReading,
        call.of function = some (reading,
          stallRate (statics.baseline function) reading.result reading.clock) ∧
        statics'.baseline function =
          { stalls := reading.result, clockcounts := reading.clock } := by
  cases call with
  | stallRateV2 reading rate =>
    have hcall := (Statics.measure_eq_ok_iff.mp hstep).2
    cases function with
    | getStallRateV2 => exact .inr ⟨reading, by rw [hcall.1]; rfl, by rw [hcall.2]; rfl⟩
    | getElapsedStallRate => exact .inl ⟨rfl, by rw [hcall.2]; rfl⟩
  | elapsedStallRate reading rate =>
    have hcall := (Statics.measure_eq_ok_iff.mp hstep).2
    cases function with
    | getStallRateV2 => exact .inl ⟨rfl, by rw [hcall.2]; rfl⟩
    | getElapsedStallRate => exact .inr ⟨reading, by rw [hcall.1]; rfl, by rw [hcall.2]; rfl⟩
  | stallRate clock pmc rate =>
    cases hstep
    exact .inl ⟨by cases function <;> rfl, rfl⟩

/-- In any run, a function returns what it would return if it were called alone. -/
theorem rates_of_run {statics : Statics} {trace : List (CounterCall × Statics)}
    (function : LikwidFunction) (hrun : Run CounterStep statics trace) :
    (callsOf function trace).map Prod.snd =
      ratesFrom (statics.baseline function) ((callsOf function trace).map Prod.fst) := by
  induction hrun with
  | nil statics => rfl
  | @cons statics statics' call trace hstep _ ih =>
    unfold callsOf at ih ⊢
    rw [List.filterMap_cons]
    cases CounterStep.of_function function hstep with
    | inl hother =>
      rw [hother.2] at ih
      rw [hother.1, ih]
    | inr hcall =>
      obtain ⟨reading, hcall, hbaseline⟩ := hcall
      rw [hbaseline] at ih
      rw [hcall, List.map_cons, List.map_cons, ih, ratesFrom]

/-! ## What the rates add up to -/

/-- The rates are the differences of the counter divided by those of the clock, as long as the clock
moves on and has room for its differences. -/
theorem ratesFrom_eq {before : ℕ} {baseline : Baseline} {times : List ℕ}
    {readings : List CounterReading}
    (hbefore : baseline.clockcounts = BitVec.ofNat 64 before)
    (hclock : readings.map CounterReading.clock = times.map (BitVec.ofNat 64))
    (hticks : (before :: times).IsChain fun time later => time < later ∧ later - time < 2 ^ 64) :
    ratesFrom baseline readings =
      (List.zipWith (· / ·) (differences baseline.stalls (readings.map CounterReading.result))
        (differences (before : ℚ) (times.map Nat.cast))).map some := by
  induction readings generalizing before baseline times with
  | nil => simp [ratesFrom, differences]
  | cons reading readings ih =>
    cases times with
    | nil => cases hclock
    | cons time times =>
      rw [List.map_cons, List.map_cons, List.cons.injEq] at hclock
      rw [List.isChain_cons_cons] at hticks
      have hticks' := toNat_clock_sub hticks.1.1.le hticks.1.2
      have hmoved : BitVec.ofNat 64 time - BitVec.ofNat 64 before ≠ 0 := by
        intro hzero
        rw [hzero] at hticks'
        change 0 = time - before at hticks'
        omega
      rw [ratesFrom, ih hclock.1 hclock.2 hticks.2, stallRate, hbefore, hclock.1]
      simp only [differences, List.map_cons, List.zipWith_cons_cons]
      rw [if_neg hmoved, hticks', Nat.cast_sub hticks.1.1.le]

/-- Differences of a growing clock are not zero. -/
theorem differences_ne_zero {before : ℕ} {times : List ℕ}
    (hticks : (before :: times).IsChain fun time later => time < later ∧ later - time < 2 ^ 64) :
    ∀ ticks ∈ differences (before : ℚ) (times.map Nat.cast), ticks ≠ 0 := by
  induction times generalizing before with
  | nil => simp [differences]
  | cons time times ih =>
    rw [List.isChain_cons_cons] at hticks
    rw [List.map_cons, differences, List.forall_mem_cons]
    have hlt : (before : ℚ) < time := Nat.cast_lt.mpr hticks.1.1
    exact ⟨(sub_pos.mpr hlt).ne', ih hticks.2⟩

/-- In any run in which a function is called while the clock moves on, each of its rates is defined,
and, multiplied by the ticks since its previous call, they add up to what the counter grew by since
its baseline, whatever other calls stand between. -/
theorem rates_add_up {statics : Statics} {trace : List (CounterCall × Statics)}
    (hrun : Run CounterStep statics trace) (function : LikwidFunction) {before : ℕ}
    {times : List ℕ}
    (hbefore : (statics.baseline function).clockcounts = BitVec.ofNat 64 before)
    (hclock : (callsOf function trace).map (fun call => call.1.clock) =
      times.map (BitVec.ofNat 64))
    (hticks : (before :: times).IsChain fun time later => time < later ∧ later - time < 2 ^ 64) :
    ∃ rates : List ℚ, (callsOf function trace).map Prod.snd = rates.map some ∧
      (List.zipWith (· * ·) rates (differences (before : ℚ) (times.map Nat.cast))).sum =
        lastReading (statics.baseline function).stalls
          ((callsOf function trace).map fun call => call.1.result) -
            (statics.baseline function).stalls := by
  have hrates := rates_of_run function hrun
  rw [ratesFrom_eq hbefore (by rwa [List.map_map]) hticks, List.map_map] at hrates
  have hlength : (callsOf function trace).length = times.length := by
    simpa using congrArg List.length hclock
  refine ⟨_, hrates, ?_⟩
  rw [sum_weighted_rates (by simp [hlength]) (differences_ne_zero hticks), sum_differences]
  rfl

/-- What a call finds when the counters stop and start. -/
def CounterReading.plain (result : ℚ) (clock : Word) : CounterReading where
  stopCounters := 0
  isIntel := 1
  result := result
  clock := clock
  startCounters := 0

/-- A call that finds the counters in order. -/
theorem measure_plain (statics : Statics) (function : LikwidFunction) (result : ℚ) (clock : Word) :
    statics.measure function (.plain result clock) =
      .ok (stallRate (statics.baseline function) result clock,
        statics.remember function { stalls := result, clockcounts := clock }) :=
  Statics.measure_eq_ok_iff.mpr ⟨⟨le_rfl, .inl rfl, le_rfl⟩, rfl, rfl⟩

/-- Two calls with one of the other function between them. -/
theorem rates_add_up_turns :
    ∃ trace, Run CounterStep Statics.initial trace ∧
      (callsOf .getElapsedStallRate trace).length = 1 ∧
      ∃ rates : List ℚ, (callsOf .getStallRateV2 trace).map Prod.snd = rates.map some ∧
        (List.zipWith (· * ·) rates
          (differences ((0 : ℕ) : ℚ) ([5, 15].map (Nat.cast : ℕ → ℚ)))).sum = 40 - 0 := by
  have hrun := Run.cons (show CounterStep _ (.stallRateV2 _ _) _ from
    measure_plain Statics.initial .getStallRateV2 10 5) (Run.cons
      (show CounterStep _ (.elapsedStallRate _ _) _ from
        measure_plain _ .getElapsedStallRate 30 8) (Run.cons
          (show CounterStep _ (.stallRateV2 _ _) _ from
            measure_plain _ .getStallRateV2 40 15) (Run.nil _)))
  exact ⟨_, hrun, rfl, rates_add_up hrun .getStallRateV2 rfl rfl (by decide)⟩

/-! ## The average -/

/-- The average of measurements that are enough. -/
theorem getAverageStallRate_getD {measurements : List ℚ} {numOutliersToFilter : ℕ}
    (hleft : 2 * numOutliersToFilter < measurements.length) :
    getAverageStallRate (fun i => measurements.getD (i - 1) 0) measurements.length
      numOutliersToFilter = .ok (trimmedMean measurements numOutliersToFilter) := by
  have hread : (List.range measurements.length).map
      (fun i => measurements.getD (i + 1 - 1) 0) = measurements := by
    refine List.ext_getElem (by simp) fun i hi hi' => ?_
    rw [List.getElem_map, List.getElem_range, Nat.add_sub_cancel, List.getD_eq_getElem _ _ hi']
  rw [getAverageStallRate, hread, averageStallRate_eq, if_neg (by omega), if_neg (by omega)]

/-- When the calls of `get_average_stall_rate` come at even times, each measurement is what the
counter grew by since the call before, over that time; without outliers to drop, their average is
what it grew by since the call that is thrown away, over the whole time. None of it depends on what
was measured before, nor on what other functions are called in between. -/
theorem average_of_even_polls {statics : Statics} {trace : List (CounterCall × Statics)}
    (hrun : Run CounterStep statics trace) {numMeasurements numOutliersToFilter start ticks : ℕ}
    (hleft : 2 * numOutliersToFilter < numMeasurements) (hmoves : 0 < ticks)
    (hfits : ticks < 2 ^ 64)
    (hclock : (callsOf .getStallRateV2 trace).map (fun call => call.1.clock) =
      (List.iterate (· + ticks) start (numMeasurements + 1)).map (BitVec.ofNat 64)) :
    ∃ (thrownAway : CounterReading × Option ℚ) (kept : List (CounterReading × Option ℚ))
      (measurements : List ℚ), callsOf .getStallRateV2 trace = thrownAway :: kept ∧
      kept.map Prod.snd = measurements.map some ∧
      measurements = (differences thrownAway.1.result (kept.map fun call => call.1.result)).map
        (· / (ticks : ℚ)) ∧
      getAverageStallRate (fun i => measurements.getD (i - 1) 0) numMeasurements
        numOutliersToFilter = .ok (trimmedMean measurements numOutliersToFilter) ∧
      trimmedMean measurements 0 =
        (lastReading thrownAway.1.result (kept.map fun call => call.1.result) -
          thrownAway.1.result) / (numMeasurements * ticks) := by
  have hrates := rates_of_run .getStallRateV2 hrun
  cases hcalls : callsOf .getStallRateV2 trace with
  | nil =>
    rw [hcalls] at hclock
    cases hclock
  | cons thrownAway kept =>
    rw [hcalls, List.map_cons, List.iterate, List.map_cons, List.cons.injEq] at hclock
    rw [hcalls, List.map_cons, List.map_cons, ratesFrom, List.cons.injEq] at hrates
    have hlength : kept.length = numMeasurements := by
      simpa using congrArg List.length hclock.2
    have hchain : (start :: List.iterate (· + ticks) (start + ticks) numMeasurements).IsChain
        fun time later => time < later ∧ later - time < 2 ^ 64 :=
      isChain_iterate (fun time => ⟨by omega, by omega⟩) start numMeasurements
    have hkept := hrates.2
    rw [ratesFrom_eq hclock.1 (by rw [List.map_map]; exact hclock.2) hchain, List.map_map] at hkept
    have heven := zipWith_div_even (differences thrownAway.1.result
      (kept.map fun call => call.1.result)) start ticks
    rw [length_differences, List.length_map, hlength] at heven
    refine ⟨thrownAway, kept, _, rfl, hkept.trans (congrArg _ heven), rfl, ?_, ?_⟩
    · have hcount : ((differences thrownAway.1.result (kept.map fun call => call.1.result)).map
          (· / (ticks : ℚ))).length = numMeasurements := by
        rw [List.length_map, length_differences, List.length_map, hlength]
      rw [← hcount]
      exact getAverageStallRate_getD (by rwa [hcount])
    · rw [trimmedMean_zero, sum_map_div, sum_differences, List.length_map, length_differences,
        List.length_map, hlength, div_div, mul_comm]

/-- Two measurements after the one that is thrown away. -/
theorem average_of_even_polls_two :
    ∃ trace, Run CounterStep Statics.initial trace ∧
      ∃ (thrownAway : CounterReading × Option ℚ) (kept : List (CounterReading × Option ℚ))
        (measurements : List ℚ), callsOf .getStallRateV2 trace = thrownAway :: kept ∧
        kept.map Prod.snd = measurements.map some ∧
        measurements = (differences thrownAway.1.result (kept.map fun call => call.1.result)).map
          (· / ((10 : ℕ) : ℚ)) ∧
        getAverageStallRate (fun i => measurements.getD (i - 1) 0) 2 0 =
          .ok (trimmedMean measurements 0) ∧
        trimmedMean measurements 0 =
          (lastReading thrownAway.1.result (kept.map fun call => call.1.result) -
            thrownAway.1.result) / ((2 : ℕ) * (10 : ℕ)) := by
  have hrun := Run.cons (show CounterStep _ (.stallRateV2 _ _) _ from
    measure_plain Statics.initial .getStallRateV2 10 5) (Run.cons
      (show CounterStep _ (.elapsedStallRate _ _) _ from
        measure_plain _ .getElapsedStallRate 30 8) (Run.cons
          (show CounterStep _ (.stallRateV2 _ _) _ from
            measure_plain _ .getStallRateV2 40 15) (Run.cons
              (show CounterStep _ (.stallRateV2 _ _) _ from
                measure_plain _ .getStallRateV2 50 25) (Run.nil _))))
  exact ⟨_, hrun, @average_of_even_polls _ _ hrun 2 0 5 10 (by decide) (by decide) (by decide) rfl⟩

end Bwap
