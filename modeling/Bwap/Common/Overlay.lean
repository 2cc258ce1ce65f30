import Mathlib.Data.List.Basic
import Mathlib.Order.Bounds.Basic
import Mathlib.Tactic.SplitIfs

/-!
# Overwriting parts of a map

One value is written over parts of a map, one part after the other. What is left is the value
on the union of the parts; where the parts are nested, it is what the widest part alone leaves.
-/

namespace Common

variable {α β ι : Type*}

/-- A map with one value on a part of its domain. -/
def overlay (part : α → Prop) [DecidablePred part] (b : β) (f : α → β) : α → β :=
  fun x => if part x then b else f x

variable (part : ι → α → Prop) [∀ i, DecidablePred (part i)] (b : β)

/-- Overwriting parts one after the other overwrites their union. -/
theorem foldl_overlay_apply (indices : List ι) (f : α → β) (x : α) :
    ((∃ i ∈ indices, part i x) →
        indices.foldl (fun g i => overlay (part i) b g) f x = b) ∧
      (¬(∃ i ∈ indices, part i x) →
        indices.foldl (fun g i => overlay (part i) b g) f x = f x) := by
  induction indices generalizing f with
  | nil => simp
  | cons i rest ih =>
    obtain ⟨hlater, hkeeps⟩ := ih (overlay (part i) b f)
    rw [List.foldl_cons]
    by_cases hrest : ∃ j ∈ rest, part j x
    · have hsome : ∃ j ∈ i :: rest, part j x := by
        obtain ⟨j, hj, hpart⟩ := hrest
        exact ⟨j, List.mem_cons_of_mem _ hj, hpart⟩
      exact ⟨fun _ => hlater hrest, fun hnone => absurd hsome hnone⟩
    · rw [hkeeps hrest]
      by_cases hi : part i x
      · have hsome : ∃ j ∈ i :: rest, part j x := ⟨i, List.mem_cons_self, hi⟩
        exact ⟨fun _ => if_pos hi, fun hnone => absurd hsome hnone⟩
      · have hnone : ¬ ∃ j ∈ i :: rest, part j x := by
          rintro ⟨j, hj, hpart⟩
          rcases List.mem_cons.mp hj with rfl | hmem
          · exact hi hpart
          · exact hrest ⟨j, hmem, hpart⟩
        exact ⟨fun hsome => absurd hsome hnone, fun _ => if_neg hi⟩

/-- Overwriting nested parts leaves what the widest of them leaves. -/
theorem foldl_overlay_of_widest {indices : List ι} {widest : ι} (hmem : widest ∈ indices)
    (hnested : ∀ i ∈ indices, ∀ x, part i x → part widest x) (f : α → β) :
    indices.foldl (fun g i => overlay (part i) b g) f = overlay (part widest) b f := by
  funext x
  obtain ⟨hsome, hnone⟩ := foldl_overlay_apply part b indices f x
  by_cases hwidest : part widest x
  · rw [hsome ⟨widest, hmem, hwidest⟩]
    exact (if_pos hwidest).symm
  · have houtside : ¬ ∃ i ∈ indices, part i x := by
      rintro ⟨i, hi, hpart⟩
      exact hwidest (hnested i hi x hpart)
    rw [hnone houtside]
    exact (if_neg hwidest).symm

end Common
