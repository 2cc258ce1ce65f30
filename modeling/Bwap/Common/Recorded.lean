import Mathlib.Data.List.Basic

/-!
# Recorded computations

A computation that changes a state records every state it passes through, and may end the
process. A triple says what holds of every state recorded and of the last one; each way of
building a computation has its rule.
-/

namespace Common

/-- A state transformer with the states it passes through. No final state: the process ended. -/
def Recorded (σ : Type*) := σ → List σ × Option σ

namespace Recorded

variable {σ : Type*}

/-- Do nothing. -/
def done : Recorded σ := fun s => ([], some s)

/-- End the process. -/
def abort : Recorded σ := fun _ => ([], none)

/-- Change the state and record it. -/
def update (f : σ → σ) : Recorded σ := fun s => ([f s], some (f s))

/-- Run one computation, then another one unless the process ended. -/
def andThen (c d : Recorded σ) : Recorded σ := fun s =>
  match (c s).2 with
  | none => ((c s).1, none)
  | some s' => ((c s).1 ++ (d s').1, (d s').2)

/-- Run the computations of a list in order. -/
def inOrder : List (Recorded σ) → Recorded σ
  | [] => done
  | c :: rest => c.andThen (inOrder rest)

/-- Choose by a test of the state. -/
def branch (test : σ → Bool) (c d : Recorded σ) : Recorded σ := fun s =>
  if test s = true then c s else d s

/-- From a state with the precondition, every state recorded has the invariant, and the last one
has the postcondition unless the process ended. -/
def Triple (pre : σ → Prop) (c : Recorded σ) (inv post : σ → Prop) : Prop :=
  ∀ s, pre s → (∀ t ∈ (c s).1, inv t) ∧ ∀ t, (c s).2 = some t → post t

namespace Triple

variable {pre inv mid post : σ → Prop} {c d : Recorded σ} {rest : List (Recorded σ)}

/-- Doing nothing keeps the precondition. -/
theorem done (pre inv : σ → Prop) : Triple pre Recorded.done inv pre := by
  intro s hs
  refine ⟨by simp [Recorded.done], fun t ht => ?_⟩
  rwa [← Option.some.inj ht]

/-- Nothing runs after the process ended. -/
theorem abort (pre inv post : σ → Prop) : Triple pre Recorded.abort inv post := by
  intro s _
  simp [Recorded.abort]

/-- An update records the state it leads to. -/
theorem update {f : σ → σ} (hinv : ∀ s, pre s → inv (f s)) (hpost : ∀ s, pre s → post (f s)) :
    Triple pre (Recorded.update f) inv post := by
  intro s hs
  simp [Recorded.update, hinv s hs, hpost s hs]

/-- A sequence passes through the states of its first part and of its second one. -/
theorem andThen (hc : Triple pre c inv mid) (hd : Triple mid d inv post) :
    Triple pre (c.andThen d) inv post := by
  intro s hs
  obtain ⟨hfirst, hmid⟩ := hc s hs
  cases hlast : (c s).2 with
  | none => simpa [Recorded.andThen, hlast] using hfirst
  | some s' =>
    obtain ⟨hsecond, hpost⟩ := hd s' (hmid s' hlast)
    simp only [Recorded.andThen, hlast]
    exact ⟨List.forall_mem_append.mpr ⟨hfirst, hsecond⟩, hpost⟩

/-- A list of computations runs its first one, then the rest. -/
theorem inOrder_cons (hc : Triple pre c inv mid) (hrest : Triple mid (inOrder rest) inv post) :
    Triple pre (inOrder (c :: rest)) inv post :=
  hc.andThen hrest

/-- A list with a single computation. -/
theorem inOrder_singleton (hc : Triple pre c inv post) : Triple pre (inOrder [c]) inv post :=
  hc.inOrder_cons (Triple.done post inv)

/-- A branch of which both sides meet the specification. -/
theorem branch {test : σ → Bool} (hc : Triple pre c inv post) (hd : Triple pre d inv post) :
    Triple pre (Recorded.branch test c d) inv post := by
  intro s hs
  cases htest : test s with
  | true => simpa [Recorded.branch, htest] using hc s hs
  | false => simpa [Recorded.branch, htest] using hd s hs

/-- A branch whose test succeeds. -/
theorem branch_true {test : σ → Bool} (htest : ∀ s, pre s → test s = true)
    (hc : Triple pre c inv post) : Triple pre (Recorded.branch test c d) inv post := by
  intro s hs
  simpa [Recorded.branch, htest s hs] using hc s hs

/-- A branch whose test fails. -/
theorem branch_false {test : σ → Bool} (htest : ∀ s, pre s → test s = false)
    (hd : Triple pre d inv post) : Triple pre (Recorded.branch test c d) inv post := by
  intro s hs
  simpa [Recorded.branch, htest s hs] using hd s hs

end Triple

end Recorded

end Common
