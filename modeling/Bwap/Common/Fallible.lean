import Mathlib.Logic.Basic

/-!
# Computations that may fail

A computation in `Except` returns a value or the reason why it has none. A sequence of two
succeeds exactly when the first one does and the second one does with its value, so that a run
of a loop is taken apart one pass at a time.
-/

namespace Common

universe u v

variable {ε : Type v} {α β σ : Type u}

@[simp] theorem ok_bind (a : α) (f : α → Except ε β) : (Except.ok a >>= f) = f a := rfl

@[simp] theorem error_bind (e : ε) (f : α → Except ε β) : (Except.error e >>= f) = .error e := rfl

@[simp] theorem pure_eq_ok (a : α) : (pure a : Except ε α) = .ok a := rfl

@[simp] theorem mapError_ok {ε' : Type v} (a : α) (f : ε → ε') :
    (Except.ok a : Except ε α).mapError f = .ok a := rfl

@[simp] theorem mapError_error {ε' : Type v} (e : ε) (f : ε → ε') :
    (Except.error e : Except ε α).mapError f = .error (f e) := rfl

/-- A sequence succeeds when both parts do. -/
theorem bind_eq_ok_iff {x : Except ε α} {f : α → Except ε β} {b : β} :
    (x >>= f) = .ok b ↔ ∃ a, x = .ok a ∧ f a = .ok b := by
  cases x with
  | error e => simp
  | ok a => simp

/-- Renaming the reasons does not change what succeeds. -/
theorem mapError_eq_ok_iff {ε' : Type v} {x : Except ε α} {f : ε → ε'} {a : α} :
    x.mapError f = .ok a ↔ x = .ok a := by
  cases x with
  | error e => simp
  | ok b => simp

/-- A fold over a list succeeds when its first pass does and the fold over the rest from there. -/
theorem foldlM_cons_eq_ok_iff {step : σ → α → Except ε σ} {first : α} {rest : List α}
    {before after : σ} :
    (first :: rest).foldlM step before = .ok after ↔
      ∃ next, step before first = .ok next ∧ rest.foldlM step next = .ok after := by
  rw [List.foldlM_cons, bind_eq_ok_iff]

end Common
