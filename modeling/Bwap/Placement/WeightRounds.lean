import Bwap.Common.Runs
import Bwap.Memory.Segment
import Bwap.Placement.NewWeights

/-!
# Rounds of placements

`nodes_info_temp` is filled once a round: by the first call of `place_pages_weighted_s` or
`place_pages_weighted_dwp` after `place_all_pages` has cleared `weight_initialized`. Every later
call of the round places its pages with these weights, whatever target it is given and
whichever of the two functions it is.
-/

namespace Bwap

open Common

/-- What the placement functions find: the machine, the sums of the weights and the table. -/
structure RoundEnv where
  pageSize : PageSize
  mbind : MbindCall → Bool
  malloc : ℕ → Word → Bool
  movePages : MovePagesCall → Option MoveError
  sums : WeightSums
  workers : ℤ
  nodesInfo : List Record

variable (e : RoundEnv)

/-- `place_pages` of a segment. -/
def RoundEnv.placePages (segment : MemorySegment) (ratio : ℚ) : Migration :=
  movePagesRemote e.pageSize e.malloc e.movePages e.nodesInfo.length e.workers
    (segment.pageAlignedStartAddress e.pageSize) (segment.pageAlignedLength e.pageSize) ratio

/-- The loop of `place_all_pages`: the migrations of the large segments, up to one that ends the
process. -/
def RoundEnv.placeSegments (ratio : ℚ) : List MemorySegment → Except MigrationStop (List Migration)
  | [] => .ok []
  | segment :: rest =>
    if segment.length > (1 : Word) <<< 20 then
      let migration := e.placePages segment ratio
      match migration.stopped with
      | some stop => .error stop
      | none => do
        let later ← placeSegments ratio rest
        .ok (migration :: later)
    else placeSegments ratio rest

/-- `place_all_pages`. -/
def RoundEnv.placeAllPages (state : NewWeights) (segments : List MemorySegment) (ratio : ℚ) :
    Except MigrationStop (NewWeights × List Migration) := do
  let migrations ← e.placeSegments ratio segments
  .ok ({ state with initialized := false }, migrations)

/-- A call of a placement function, with what it places. -/
inductive RoundCall
  | weightedS (addr len : Word) (s : ℚ) (placement : Placement)
  | weightedDwp (addr len : Word) (s : ℚ) (migration : Migration)
  | allPages (segments : List MemorySegment) (ratio : ℚ) (migrations : List Migration)

/-- A call that returns. -/
def RoundStep (state : NewWeights) : RoundCall → NewWeights → Prop
  | .weightedS addr len s placement, state' =>
    placePagesWeightedS e.pageSize e.mbind e.sums e.workers e.nodesInfo state addr len s =
      .ok (state', placement) ∧ placement.aborted = false
  | .weightedDwp addr len s migration, state' =>
    placePagesWeightedDwp e.pageSize e.malloc e.movePages e.sums e.workers e.nodesInfo state addr
      len s = .ok (state', migration) ∧ migration.stopped = none
  | .allPages segments ratio migrations, state' =>
    e.placeAllPages state segments ratio = .ok (state', migrations)

/-- The new weights a call asks for, or none if it ends the round. -/
def RoundCall.newWeight : RoundCall → Option (Bool → ℚ → Option ℚ)
  | .weightedS _ _ s _ => some (weightS e.sums s)
  | .weightedDwp _ _ s _ => some (weightDwp e.sums s)
  | .allPages _ _ _ => none

/-- The new weights in force after some calls: those the first call of the round asked for. -/
def roundWeight : Option (Bool → ℚ → Option ℚ) → List RoundCall → Option (Bool → ℚ → Option ℚ)
  | inForce, [] => inForce
  | inForce, call :: later =>
    roundWeight ((call.newWeight e).map fun asked => inForce.getD asked) later

/-- The table that new weights make of the table of the nodes. -/
structure RoundEnv.Makes (newWeight : Bool → ℚ → Option ℚ) (table : List Record) : Prop where
  filled : e.nodesInfo.mapM (newRecord e.workers newWeight) = .ok table
  sum : checkSum table = 100

/-- The state after calls that left these new weights in force. -/
def RoundEnv.InForce (inForce : Option (Bool → ℚ → Option ℚ)) (state : NewWeights) : Prop :=
  state.initialized = inForce.isSome ∧ ∀ newWeight ∈ inForce, e.Makes newWeight state.temp

/-- An update that succeeds leaves the first weights asked for in force. -/
theorem update_inForce {inForce : Option (Bool → ℚ → Option ℚ)} {state state' : NewWeights}
    {asked : Bool → ℚ → Option ℚ} (h : e.InForce inForce state)
    (hupdate : state.update e.workers asked e.nodesInfo = .ok state') :
    e.InForce (some (inForce.getD asked)) state' := by
  unfold NewWeights.update at hupdate
  cases inForce with
  | some newWeight =>
    rw [if_pos (by simpa using h.1)] at hupdate
    cases hupdate
    exact h
  | none =>
    rw [if_neg (by simp [h.1]), bind_eq_ok_iff] at hupdate
    obtain ⟨temp, hfilled, hsum⟩ := hupdate
    split_ifs at hsum with hbad
    · cases hsum
      exact ⟨rfl, fun newWeight hnew => by
        rw [← Option.mem_some.mp hnew]
        exact ⟨hfilled, not_not.mp hbad⟩⟩

/-- A call leaves in force what the calls up to it do. -/
theorem RoundStep.inForce {inForce : Option (Bool → ℚ → Option ℚ)} {state state' : NewWeights}
    {call : RoundCall} (hstep : RoundStep e state call state') (h : e.InForce inForce state) :
    e.InForce ((call.newWeight e).map fun asked => inForce.getD asked) state' := by
  cases call with
  | weightedS addr len s placement =>
    obtain ⟨after, hupdate, hafter⟩ := bind_eq_ok_iff.mp hstep.1
    cases hafter
    exact update_inForce e h hupdate
  | weightedDwp addr len s migration =>
    obtain ⟨after, hupdate, hafter⟩ := bind_eq_ok_iff.mp hstep.1
    cases hafter
    exact update_inForce e h hupdate
  | allPages segments ratio migrations =>
    obtain ⟨placed, -, hafter⟩ := bind_eq_ok_iff.mp hstep
    cases hafter
    exact ⟨rfl, by simp [RoundCall.newWeight]⟩

/-- A run leaves in force what its calls do. -/
theorem inForce_final {inForce : Option (Bool → ℚ → Option ℚ)} {state : NewWeights}
    {trace : List (RoundCall × NewWeights)} (hrun : Run (RoundStep e) state trace)
    (h : e.InForce inForce state) :
    e.InForce (roundWeight e inForce (trace.map Prod.fst)) (final state trace) := by
  induction hrun generalizing inForce with
  | nil state => exact h
  | cons hstep _ ih => exact ih (hstep.inForce e h)

/-- Filling the table keeps the node numbers. -/
theorem ids_of_filled {newWeight : Bool → ℚ → Option ℚ} {nodesInfo table : List Record}
    (hfilled : nodesInfo.mapM (newRecord e.workers newWeight) = .ok table) :
    table.map Record.id = nodesInfo.map Record.id := by
  induction nodesInfo generalizing table with
  | nil =>
    cases hfilled
    rfl
  | cons node rest ih =>
    rw [List.mapM_cons, bind_eq_ok_iff] at hfilled
    obtain ⟨record, hrecord, hfilled⟩ := hfilled
    obtain ⟨later, hlater, hfilled⟩ := bind_eq_ok_iff.mp hfilled
    cases hfilled
    have hid : record.id = node.id := by
      unfold newRecord at hrecord
      cases hworker : workerNode e.workers with
      | none => simp [hworker] at hrecord
      | some worker =>
        cases hweight : newWeight (decide (node.id = worker)) node.weight with
        | none => simp [hworker, hweight] at hrecord
        | some weight =>
          simp only [hworker, hweight, Except.ok.injEq] at hrecord
          rw [← hrecord]
    rw [List.map_cons, List.map_cons, hid, ih hlater]

/-- In every run, `place_pages_weighted_s` places its pages with the table that the first call of
the round has made of the nodes: with their numbers, and with weights that round to 100 in all. -/
theorem round_keeps_first_weights {state : NewWeights} (hfresh : state.initialized = false)
    {trace : List (RoundCall × NewWeights)} (hrun : Run (RoundStep e) state trace)
    {earlier later : List (RoundCall × NewWeights)} {addr len : Word} {s : ℚ}
    {placement : Placement} {state' : NewWeights}
    (htrace : trace = earlier ++ (.weightedS addr len s placement, state') :: later) :
    ∃ table,
      e.Makes ((roundWeight e none (earlier.map Prod.fst)).getD (weightS e.sums s)) table ∧
      table.map Record.id = e.nodesInfo.map Record.id ∧ state' = ⟨table, true⟩ ∧
      placement = placePagesWeighted e.pageSize e.mbind table addr len := by
  rw [htrace] at hrun
  obtain ⟨hearlier, hstep⟩ := hrun.step_of_append
  have hstart : e.InForce none state := ⟨hfresh, by simp⟩
  have hafter := hstep.inForce e (inForce_final e hearlier hstart)
  have hmakes := hafter.2 _ rfl
  refine ⟨state'.temp, hmakes, ids_of_filled e hmakes.filled, ?_, ?_⟩
  · rw [← show state'.initialized = true from hafter.1]
  · obtain ⟨updated, -, hplaced⟩ := bind_eq_ok_iff.mp hstep.1
    cases hplaced
    rfl

/-- Two calls of a round on two nodes: the second one asks for another target in vain. -/
theorem round_keeps_first_weights_two_nodes :
    let e : RoundEnv := ⟨.fourKiB, fun _ => true, fun _ _ => true, fun _ => none, ⟨60, 40⟩, 1,
      [⟨1, 40⟩, ⟨0, 60⟩]⟩
    let first := placePagesWeighted .fourKiB (fun _ => true) [⟨1, 20⟩, ⟨0, 80⟩] 0x10000 0xa000
    let second := placePagesWeighted .fourKiB (fun _ => true) [⟨1, 20⟩, ⟨0, 80⟩] 0x20000 0xa000
    let trace : List (RoundCall × NewWeights) :=
      [(.weightedS 0x10000 0xa000 20 first, ⟨[⟨1, 20⟩, ⟨0, 80⟩], true⟩),
        (.weightedS 0x20000 0xa000 5 second, ⟨[⟨1, 20⟩, ⟨0, 80⟩], true⟩)]
    Run (RoundStep e) ⟨[], false⟩ trace ∧
      ∃ table, e.Makes (weightS ⟨60, 40⟩ 20) table ∧
        table.map Record.id = [1, 0] ∧ ⟨[⟨1, 20⟩, ⟨0, 80⟩], true⟩ = NewWeights.mk table true ∧
        second = placePagesWeighted .fourKiB (fun _ => true) table 0x20000 0xa000 := by
  intro e first second trace
  have hrun : Run (RoundStep e) ⟨[], false⟩ trace :=
    .cons ⟨by decide +kernel, by decide +kernel⟩
      (.cons ⟨by decide +kernel, by decide +kernel⟩ (.nil _))
  exact ⟨hrun, round_keeps_first_weights e rfl hrun
    (show trace = [(.weightedS 0x10000 0xa000 20 first, ⟨[⟨1, 20⟩, ⟨0, 80⟩], true⟩)] ++
      (.weightedS 0x20000 0xa000 5 second, ⟨[⟨1, 20⟩, ⟨0, 80⟩], true⟩) :: [] from rfl)⟩

end Bwap
