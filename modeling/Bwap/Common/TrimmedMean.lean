import Mathlib.Algebra.Order.BigOperators.Group.List
import Mathlib.Algebra.Order.Field.Basic
import Mathlib.Data.Finset.Card
import Mathlib.Data.List.FinRange
import Mathlib.Data.List.Sort
import Mathlib.Tactic.Linarith

/-!
# Trimmed means

The mean of a list without its smallest and its largest entries, as many of each. In a sorted
list the entries with a downward closed property form a prefix, so that the entry at a position
is compared with a bound by counting. It follows that the mean is monotone, and that replacing
no more entries than are dropped at either end leaves it between entries that are not replaced.
-/

namespace Common

/-! ## Positions in a sorted list -/

section Sorted

variable {α : Type*} [LinearOrder α]

/-- In a sorted list an entry has a downward closed property exactly when more entries have it than
stand before it. -/
theorem getElem_iff_lt_countP {l : List α} (hsorted : l.Pairwise (· ≤ ·)) (p : α → Prop)
    [DecidablePred p] (hp : ∀ x y, x ≤ y → p y → p x) {i : ℕ} (hi : i < l.length) :
    p l[i] ↔ i < l.countP p := by
  induction l generalizing i with
  | nil => simp at hi
  | cons first rest ih =>
    rw [List.pairwise_cons] at hsorted
    by_cases hfirst : p first
    · rw [List.countP_cons_of_pos (by simpa using hfirst)]
      cases i with
      | zero => simpa using hfirst
      | succ i =>
        have hrest := ih hsorted.2 (Nat.lt_of_succ_lt_succ hi)
        simpa using hrest
    · have hnone : rest.countP p = 0 := List.countP_eq_zero.mpr fun x hx hpx =>
        hfirst (hp first x (hsorted.1 x hx) (by simpa using hpx))
      rw [List.countP_cons_of_neg (by simpa using hfirst), hnone]
      cases i with
      | zero => simpa using hfirst
      | succ i =>
        have hlt : i < rest.length := Nat.lt_of_succ_lt_succ hi
        have hlater : ¬p rest[i] := fun hpx =>
          hfirst (hp first _ (hsorted.1 _ (List.getElem_mem hlt)) hpx)
        simpa using hlater

omit [LinearOrder α] in
/-- A list without an entry of a property outside some positions has it no more often than there are
such positions. -/
theorem countP_le_card {l : List α} (p : α → Prop) [DecidablePred p] {positions : Finset ℕ}
    (h : ∀ i (hi : i < l.length), p l[i] → i ∈ positions) : l.countP p ≤ positions.card := by
  have hsub : (((List.finRange l.length).filter fun i => p (l.get i)).map Fin.val).toFinset ⊆
      positions := by
    intro i hi
    obtain ⟨j, hj, rfl⟩ := List.mem_map.mp (List.mem_toFinset.mp hi)
    exact h j.1 j.2 (by simpa using (List.mem_filter.mp hj).2)
  have hnodup : (((List.finRange l.length).filter fun i => p (l.get i)).map Fin.val).Nodup :=
    ((List.nodup_finRange _).filter _).map Fin.val_injective
  have hcount : l.countP p = (((List.finRange l.length).filter fun i => p (l.get i)).map
      Fin.val).length := by
    conv_lhs => rw [← List.map_get_finRange l]
    rw [List.countP_map, List.countP_eq_length_filter, List.length_map]
    rfl
  rw [hcount, ← List.toFinset_card_of_nodup hnodup]
  exact Finset.card_le_card hsub

/-- Sorting forgets the order. -/
theorem insertionSort_eq_of_perm {l l' : List α} (hperm : l.Perm l') :
    l.insertionSort (· ≤ ·) = l'.insertionSort (· ≤ ·) :=
  (((List.perm_insertionSort _ l).trans hperm).trans
    (List.perm_insertionSort _ l').symm).eq_of_pairwise' (List.pairwise_insertionSort _ l)
      (List.pairwise_insertionSort _ l')

/-- Larger entries have a downward closed property less often. -/
theorem countP_le_of_forall₂ {l l' : List α} (p : α → Prop) [DecidablePred p]
    (hp : ∀ x y, x ≤ y → p y → p x) (h : List.Forall₂ (· ≤ ·) l l') :
    l'.countP p ≤ l.countP p := by
  induction h with
  | nil => exact le_rfl
  | @cons first first' rest rest' hfirst _ ih =>
    rw [List.countP_cons, List.countP_cons]
    refine Nat.add_le_add ih ?_
    by_cases hlarge : p first'
    · have hsmall := hp first first' hfirst hlarge
      simp [hlarge, hsmall]
    · simp [hlarge]

/-- Sorting keeps lists comparable entry by entry. -/
theorem getElem_insertionSort_mono {l l' : List α} (h : List.Forall₂ (· ≤ ·) l l') {i : ℕ}
    (hi : i < (l.insertionSort (· ≤ ·)).length) (hi' : i < (l'.insertionSort (· ≤ ·)).length) :
    (l.insertionSort (· ≤ ·))[i] ≤ (l'.insertionSort (· ≤ ·))[i] := by
  let bound := (l'.insertionSort (· ≤ ·))[i]
  have hclosed : ∀ x y : α, x ≤ y → y ≤ bound → x ≤ bound := fun x y => le_trans
  have hcount := (getElem_iff_lt_countP (List.pairwise_insertionSort _ l') (· ≤ bound) hclosed
    hi').mp le_rfl
  rw [(List.perm_insertionSort _ l').countP_eq] at hcount
  refine (getElem_iff_lt_countP (List.pairwise_insertionSort _ l) (· ≤ bound) hclosed hi).mpr ?_
  rw [(List.perm_insertionSort _ l).countP_eq]
  exact hcount.trans_le (countP_le_of_forall₂ _ hclosed h)

/-! ## Trimming -/

/-- The entries left, in order, when as many of the smallest as of the largest ones are dropped. -/
def trimmed (l : List α) (k : ℕ) : List α :=
  ((l.insertionSort (· ≤ ·)).take (l.length - k)).drop k

/-- Two entries are dropped for each one at an end. -/
@[simp] theorem length_trimmed (l : List α) (k : ℕ) :
    (trimmed l k).length = l.length - 2 * k := by
  rw [trimmed, List.length_drop, List.length_take, List.length_insertionSort]
  omega

/-- The entries left are those at the positions in the middle. -/
theorem getElem_trimmed (l : List α) (k : ℕ) {i : ℕ} (hi : i < (trimmed l k).length)
    (hki : k + i < (l.insertionSort (· ≤ ·)).length) :
    (trimmed l k)[i] = (l.insertionSort (· ≤ ·))[k + i] := by
  simp [trimmed]

/-- Trimming forgets the order. -/
theorem trimmed_eq_of_perm {l l' : List α} (hperm : l.Perm l') (k : ℕ) :
    trimmed l k = trimmed l' k := by
  rw [trimmed, trimmed, insertionSort_eq_of_perm hperm, hperm.length_eq]

/-- Trimming keeps lists comparable entry by entry. -/
theorem trimmed_mono {l l' : List α} (h : List.Forall₂ (· ≤ ·) l l') (k : ℕ) :
    List.Forall₂ (· ≤ ·) (trimmed l k) (trimmed l' k) := by
  have hlength := h.length_eq
  rw [List.forall₂_iff_get]
  refine ⟨by simp [hlength], fun i hi hi' => ?_⟩
  have hmiddle : k + i < (l.insertionSort (· ≤ ·)).length := by
    rw [List.length_insertionSort]
    rw [length_trimmed] at hi
    omega
  have hmiddle' : k + i < (l'.insertionSort (· ≤ ·)).length := by
    rw [List.length_insertionSort] at hmiddle ⊢
    omega
  change (trimmed l k)[i] ≤ (trimmed l' k)[i]
  rw [getElem_trimmed l k hi hmiddle, getElem_trimmed l' k hi' hmiddle']
  exact getElem_insertionSort_mono h hmiddle hmiddle'

/-- An entry that is left has, outside any positions no more than the dropped ones at an end, an
entry at most as large and one at least as large. -/
theorem exists_le_of_mem_trimmed {l : List α} {k : ℕ} {positions : Finset ℕ}
    (hfew : positions.card ≤ k) {x : α} (hx : x ∈ trimmed l k) :
    (∃ i, ∃ hi : i < l.length, i ∉ positions ∧ l[i] ≤ x) ∧
      ∃ i, ∃ hi : i < l.length, i ∉ positions ∧ x ≤ l[i] := by
  obtain ⟨m, hm, rfl⟩ := List.getElem_of_mem hx
  have hlength := hm
  rw [length_trimmed] at hlength
  have hmiddle : k + m < (l.insertionSort (· ≤ ·)).length := by
    rw [List.length_insertionSort]
    omega
  rw [getElem_trimmed l k hm hmiddle]
  let x := (l.insertionSort (· ≤ ·))[k + m]
  change (∃ i, ∃ hi : i < l.length, i ∉ positions ∧ l[i] ≤ x) ∧
    ∃ i, ∃ hi : i < l.length, i ∉ positions ∧ x ≤ l[i]
  have hsorted := List.pairwise_insertionSort (· ≤ ·) l
  have hperm := List.perm_insertionSort (· ≤ ·) l
  apply And.intro
  · by_contra hnone
    have hcard : l.countP (· ≤ x) ≤ positions.card := countP_le_card _ fun i hi hle =>
      by_contra fun hout => hnone ⟨i, hi, hout, hle⟩
    have hcount := (getElem_iff_lt_countP hsorted (· ≤ x) (fun a b => le_trans) hmiddle).mp le_rfl
    rw [hperm.countP_eq] at hcount
    omega
  · by_contra hnone
    have hcard : l.countP (x ≤ ·) ≤ positions.card := countP_le_card _ fun i hi hle =>
      by_contra fun hout => hnone ⟨i, hi, hout, hle⟩
    have hcount := (getElem_iff_lt_countP hsorted (· < x) (fun a b => lt_of_le_of_lt)
      hmiddle).not.mp (lt_irrefl x)
    have hsplit := List.length_eq_countP_add_countP (fun y => decide (y < x)) (l := l)
    rw [hperm.countP_eq] at hcount
    simp only [decide_eq_true_eq, not_lt] at hsplit
    omega

end Sorted

/-! ## Means -/

section Mean

variable {K : Type*} [Field K] [LinearOrder K] [IsStrictOrderedRing K]

/-- The mean of the entries left. -/
def trimmedMean (l : List K) (k : ℕ) : K := (trimmed l k).sum / (trimmed l k).length

omit [IsStrictOrderedRing K] in
/-- Without entries to drop it is the mean of all of them. -/
theorem trimmedMean_zero (l : List K) : trimmedMean l 0 = l.sum / l.length := by
  have hperm : (trimmed l 0).Perm l := by
    rw [trimmed, Nat.sub_zero, List.drop_zero, List.take_of_length_le
      (List.length_insertionSort _ l).le]
    exact List.perm_insertionSort _ l
  rw [trimmedMean, hperm.sum_eq, hperm.length_eq]

/-- The mean is monotone in the entries. -/
theorem trimmedMean_mono {l l' : List K} (h : List.Forall₂ (· ≤ ·) l l') (k : ℕ) :
    trimmedMean l k ≤ trimmedMean l' k := by
  have hsum := (trimmed_mono h k).sum_le_sum
  rw [trimmedMean, trimmedMean, length_trimmed, length_trimmed, h.length_eq]
  exact div_le_div_of_nonneg_right hsum (Nat.cast_nonneg _)

/-- The mean of some entries lies between two of them. -/
theorem exists_mem_le_mean {l : List K} (hl : l ≠ []) :
    (∃ x ∈ l, x ≤ l.sum / l.length) ∧ ∃ x ∈ l, l.sum / l.length ≤ x := by
  have hpos : (0 : K) < l.length := Nat.cast_pos.mpr (List.length_pos_iff.mpr hl)
  have hmean : (l.map fun _ => l.sum / l.length).sum = (l.map fun x => x).sum := by
    rw [List.map_const', List.sum_replicate, nsmul_eq_mul, mul_div_cancel₀ _ hpos.ne', List.map_id']
  exact ⟨List.exists_le_of_sum_le hl _ _ hmean.ge, List.exists_le_of_sum_le hl _ _ hmean.le⟩

/-- The mean lies between entries outside any positions no more than the dropped ones at an end. -/
theorem trimmedMean_between {l : List K} {k : ℕ} (hleft : 2 * k < l.length) {positions : Finset ℕ}
    (hfew : positions.card ≤ k) :
    (∃ i, ∃ hi : i < l.length, i ∉ positions ∧ l[i] ≤ trimmedMean l k) ∧
      ∃ i, ∃ hi : i < l.length, i ∉ positions ∧ trimmedMean l k ≤ l[i] := by
  have hnonempty : trimmed l k ≠ [] := by
    rw [← List.length_pos_iff, length_trimmed]
    omega
  obtain ⟨⟨low, hlow, hlow'⟩, high, hhigh, hhigh'⟩ := exists_mem_le_mean hnonempty
  apply And.intro
  · obtain ⟨⟨i, hi, hout, hle⟩, -⟩ := exists_le_of_mem_trimmed hfew hlow
    exact ⟨i, hi, hout, hle.trans hlow'⟩
  · obtain ⟨-, i, hi, hout, hle⟩ := exists_le_of_mem_trimmed hfew hhigh
    exact ⟨i, hi, hout, hhigh'.trans hle⟩

end Mean

end Common
