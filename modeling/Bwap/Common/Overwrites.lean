import Bwap.Common.Overlay
import Mathlib.Data.List.Flatten
import Mathlib.Data.List.Pairwise
import Mathlib.Data.List.Perm.Basic

/-!
# Overwriting parts of a map with different values

Each entry of a list writes its own value over its own part. What is left at a point is the value
of the last entry that covers it. So a list written once more changes nothing, and entries that
agree wherever they meet may be written in any order.
-/

namespace Common

variable {α β ι : Type*} (part : ι → α → Prop) [∀ i, DecidablePred (part i)] (value : ι → β)

/-- Write one entry after the other. -/
def overwrite (entries : List ι) (f : α → β) : α → β :=
  entries.foldl (fun g i => overlay (part i) (value i) g) f

/-- The last entry that covers a point. -/
def lastCover (entries : List ι) (x : α) : Option ι := entries.reverse.find? fun i => part i x

@[simp] theorem overwrite_nil (f : α → β) : overwrite part value [] f = f := rfl

@[simp] theorem overwrite_cons (i : ι) (rest : List ι) (f : α → β) :
    overwrite part value (i :: rest) f =
      overwrite part value rest (overlay (part i) (value i) f) := rfl

theorem overwrite_append (first rest : List ι) (f : α → β) :
    overwrite part value (first ++ rest) f =
      overwrite part value rest (overwrite part value first f) :=
  List.foldl_append

/-- The last cover of a list is that of its tail, if there is one. -/
theorem lastCover_cons (i : ι) (rest : List ι) (x : α) :
    lastCover part (i :: rest) x =
      (lastCover part rest x).or (if part i x then some i else none) := by
  rw [lastCover, List.reverse_cons, List.find?_append, ← lastCover]
  by_cases hi : part i x
  · simp [hi]
  · simp [hi]

/-- A point has a last cover exactly when some entry covers it. -/
theorem lastCover_eq_none_iff (entries : List ι) (x : α) :
    lastCover part entries x = none ↔ ∀ i ∈ entries, ¬ part i x := by
  simp [lastCover]

/-- A last cover is an entry that covers. -/
theorem lastCover_mem {entries : List ι} {x : α} {i : ι} (h : lastCover part entries x = some i) :
    i ∈ entries ∧ part i x := by
  have hmem := List.mem_of_find?_eq_some h
  have hcover := List.find?_some h
  exact ⟨List.mem_reverse.mp hmem, by simpa using hcover⟩

/-- What is left at a point is the value of its last cover. -/
theorem overwrite_apply (entries : List ι) (f : α → β) (x : α) :
    overwrite part value entries f x = ((lastCover part entries x).map value).getD (f x) := by
  induction entries generalizing f with
  | nil => rfl
  | cons i rest ih =>
    rw [overwrite_cons, ih, lastCover_cons]
    cases lastCover part rest x with
    | some j => rfl
    | none =>
      by_cases hi : part i x
      · simp [overlay, hi]
      · simp [overlay, hi]

/-- A point that no entry covers keeps its value. -/
theorem overwrite_of_not_covered {entries : List ι} {x : α} (h : ∀ i ∈ entries, ¬ part i x)
    (f : α → β) : overwrite part value entries f x = f x := by
  rw [overwrite_apply, (lastCover_eq_none_iff part entries x).mpr h]
  rfl

/-- A point that some entry covers does not depend on what was there. -/
theorem overwrite_of_covered {entries : List ι} {x : α} (h : ∃ i ∈ entries, part i x)
    (f g : α → β) : overwrite part value entries f x = overwrite part value entries g x := by
  rw [overwrite_apply, overwrite_apply]
  cases hlast : lastCover part entries x with
  | none =>
    obtain ⟨i, hi, hcover⟩ := h
    exact absurd hcover ((lastCover_eq_none_iff part entries x).mp hlast i hi)
  | some j => rfl

/-- Once a list is written, writing entries of it again changes nothing if they come in the
same order to the end. -/
theorem overwrite_overwrite (entries : List ι) (f : α → β) :
    overwrite part value entries (overwrite part value entries f) =
      overwrite part value entries f := by
  funext x
  by_cases h : ∃ i ∈ entries, part i x
  · exact overwrite_of_covered part value h _ f
  · exact overwrite_of_not_covered part value (fun i hi hcover => h ⟨i, hi, hcover⟩) _

/-- Written any number of times, a list leaves what it leaves the first time. -/
theorem overwrite_replicate (entries : List ι) (n : ℕ) (f : α → β) :
    overwrite part value (List.replicate (n + 1) entries).flatten f =
      overwrite part value entries f := by
  induction n generalizing f with
  | zero => simp
  | succ n ih =>
    rw [List.replicate_succ, List.flatten_cons, overwrite_append, ih, overwrite_overwrite]

/-- Entries that agree wherever they meet. -/
def Agree (entries : List ι) : Prop :=
  ∀ i ∈ entries, ∀ j ∈ entries, ∀ x, part i x → part j x → value i = value j

omit [∀ i, DecidablePred (part i)] in
/-- Entries that do not meet at all agree. -/
theorem agree_of_disjoint {entries : List ι}
    (hdisjoint : entries.Pairwise fun i j => ∀ x, ¬(part i x ∧ part j x)) :
    Agree part value entries := by
  have hflip : entries.Pairwise (flip fun i j => ∀ x, part i x → part j x → value i = value j) :=
    hdisjoint.imp fun hij x hx hx' => absurd ⟨hx', hx⟩ (hij x)
  have hsame := List.Pairwise.forall_of_forall_of_flip (fun i _ x _ _ => rfl)
    (hdisjoint.imp fun hij x hx hx' => absurd ⟨hx, hx'⟩ (hij x)) hflip
  exact fun i hi j hj => hsame hi hj

/-- Among entries that agree, any cover of a point has the value that is left there. -/
theorem overwrite_of_agree {entries : List ι} (hagree : Agree part value entries) {i : ι}
    (hi : i ∈ entries) {x : α} (hcover : part i x) (f : α → β) :
    overwrite part value entries f x = value i := by
  rw [overwrite_apply]
  cases hlast : lastCover part entries x with
  | none => exact absurd hcover ((lastCover_eq_none_iff part entries x).mp hlast i hi)
  | some j =>
    obtain ⟨hj, hcover'⟩ := lastCover_mem part hlast
    exact hagree j hj i hi x hcover' hcover

/-- Entries that agree may be written in any order. -/
theorem overwrite_perm {entries entries' : List ι} (hperm : entries.Perm entries')
    (hagree : Agree part value entries) (f : α → β) :
    overwrite part value entries f = overwrite part value entries' f := by
  have hagree' : Agree part value entries' := fun i hi j hj =>
    hagree i (hperm.mem_iff.mpr hi) j (hperm.mem_iff.mpr hj)
  funext x
  by_cases h : ∃ i ∈ entries, part i x
  · obtain ⟨i, hi, hcover⟩ := h
    rw [overwrite_of_agree part value hagree hi hcover,
      overwrite_of_agree part value hagree' (hperm.mem_iff.mp hi) hcover]
  · have hnone : ∀ i ∈ entries, ¬ part i x := fun i hi hcover => h ⟨i, hi, hcover⟩
    rw [overwrite_of_not_covered part value hnone,
      overwrite_of_not_covered part value fun i hi => hnone i (hperm.mem_iff.mpr hi)]

end Common
