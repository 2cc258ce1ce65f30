import Mathlib.Data.List.Basic

/-!
# Runs of a labelled transition system

A run is recorded as the list of labels taken, each with the state it reached. Two rules
carry every argument about runs: an invariant kept by the guarded steps holds throughout
a guarded run, and a guard that is exactly what one step needs is exactly what the whole
run needs.
-/

namespace Common

variable {σ ι : Type*}

/-- A run from a state: the labels taken, each with the state it reached. -/
inductive Run (step : σ → ι → σ → Prop) : σ → List (ι × σ) → Prop
  | nil (s : σ) : Run step s []
  | cons {s s' : σ} {i : ι} {trace : List (ι × σ)} (hstep : step s i s')
      (hrun : Run step s' trace) : Run step s ((i, s') :: trace)

/-- Every step of the trace meets its guard in the state it starts from. -/
def Guarded (guard : σ → ι → Prop) : σ → List (ι × σ) → Prop
  | _, [] => True
  | s, (i, s') :: trace => guard s i ∧ Guarded guard s' trace

/-- Every state the trace reaches has the property. -/
def Throughout (good : σ → Prop) (trace : List (ι × σ)) : Prop :=
  ∀ entry ∈ trace, good entry.2

/-- The state a trace ends in. -/
def final : σ → List (ι × σ) → σ
  | s, [] => s
  | _, (_, s') :: trace => final s' trace

/-- The empty trace reaches no state. -/
@[simp] theorem throughout_nil (good : σ → Prop) :
    Throughout good ([] : List (ι × σ)) := by
  simp [Throughout]

/-- The states of a nonempty trace are its first state and those of the rest. -/
@[simp] theorem throughout_cons (good : σ → Prop) (i : ι) (s : σ) (trace : List (ι × σ)) :
    Throughout good ((i, s) :: trace) ↔ good s ∧ Throughout good trace := by
  simp [Throughout]

/-- A property implied by another one holds wherever that one does. -/
theorem Throughout.imp {good better : σ → Prop} {trace : List (ι × σ)}
    (himp : ∀ s, better s → good s) (h : Throughout better trace) : Throughout good trace :=
  fun entry hentry => himp entry.2 (h entry hentry)

/-- Guards that agree on the steps of a run agree on the run. -/
theorem Run.guarded_congr {step : σ → ι → σ → Prop} {guard guard' : σ → ι → Prop} {s : σ}
    {trace : List (ι × σ)} (hsame : ∀ s i s', step s i s' → (guard s i ↔ guard' s i))
    (hrun : Run step s trace) : Guarded guard s trace ↔ Guarded guard' s trace := by
  induction hrun with
  | nil s => exact Iff.rfl
  | cons hstep _ ih => exact and_congr (hsame _ _ _ hstep) ih

/-- An invariant that every step keeps holds in the state a run ends in. -/
theorem Run.final_invariant {step : σ → ι → σ → Prop} {inv : σ → Prop} {s : σ}
    {trace : List (ι × σ)} (hkeep : ∀ s i s', inv s → step s i s' → inv s')
    (hrun : Run step s trace) (hinit : inv s) : inv (final s trace) := by
  induction hrun with
  | nil s => exact hinit
  | cons hstep _ ih => exact ih (hkeep _ _ _ hinit hstep)

/-- An invariant that counts the steps of one kind holds, with their number, in the state a run
ends in. -/
theorem Run.final_counted {step : σ → ι → σ → Prop} {inv : ℕ → σ → Prop} {counted : ι → Bool}
    {s : σ} {trace : List (ι × σ)} {n : ℕ}
    (hkeep : ∀ n s i s', inv n s → step s i s' → inv (n + if counted i then 1 else 0) s')
    (hrun : Run step s trace) (hinit : inv n s) :
    inv (n + (trace.map Prod.fst).countP counted) (final s trace) := by
  induction hrun generalizing n with
  | nil s => exact hinit
  | cons hstep _ ih =>
    have hrest := ih (hkeep _ _ _ _ hinit hstep)
    rwa [List.map_cons, List.countP_cons, Nat.add_comm (List.countP _ _), ← Nat.add_assoc]

/-- A run goes up to each of its steps, and takes it from the state it has come to. -/
theorem Run.step_of_append {step : σ → ι → σ → Prop} {s s' : σ} {i : ι}
    {earlier later : List (ι × σ)} (hrun : Run step s (earlier ++ (i, s') :: later)) :
    Run step s earlier ∧ step (final s earlier) i s' := by
  induction earlier generalizing s with
  | nil =>
    cases hrun with
    | cons hstep _ => exact ⟨.nil s, hstep⟩
  | cons entry earlier ih =>
    cases hrun with
    | cons hstep hrest => exact ⟨.cons hstep (ih hrest).1, (ih hrest).2⟩

/-- An invariant that guarded steps keep holds throughout every guarded run. -/
theorem Run.invariant_of_guarded {step : σ → ι → σ → Prop} {guard : σ → ι → Prop}
    {inv : σ → Prop} {s : σ} {trace : List (ι × σ)}
    (hkeep : ∀ s i s', inv s → step s i s' → guard s i → inv s')
    (hrun : Run step s trace) (hinit : inv s) (hguard : Guarded guard s trace) :
    Throughout inv trace := by
  induction hrun with
  | nil s => exact throughout_nil inv
  | cons hstep _ ih =>
    have hnext := hkeep _ _ _ hinit hstep hguard.1
    exact (throughout_cons inv _ _ _).mpr ⟨hnext, ih hnext hguard.2⟩

/-- A guard that one step needs and that keeps the invariant is exact for whole runs: the
property holds in every state reached if and only if every step meets its guard. -/
theorem Run.throughout_iff_guarded {step : σ → ι → σ → Prop} {guard : σ → ι → Prop}
    {inv good : σ → Prop} {s : σ} {trace : List (ι × σ)}
    (hgood : ∀ s, inv s → good s)
    (hkeep : ∀ s i s', inv s → step s i s' → guard s i → inv s')
    (hneed : ∀ s i s', inv s → step s i s' → good s' → guard s i)
    (hrun : Run step s trace) (hinit : inv s) :
    Throughout good trace ↔ Guarded guard s trace := by
  induction hrun with
  | nil s => simp [Guarded]
  | cons hstep _ ih =>
    rw [throughout_cons, Guarded]
    constructor
    · rintro ⟨hfirst, hrest⟩
      have hguard := hneed _ _ _ hinit hstep hfirst
      exact ⟨hguard, (ih (hkeep _ _ _ hinit hstep hguard)).mp hrest⟩
    · rintro ⟨hguard, hrest⟩
      have hnext := hkeep _ _ _ hinit hstep hguard
      exact ⟨hgood _ hnext, (ih hnext).mpr hrest⟩

end Common
