import Mathlib.Data.List.Basic
import Mathlib.Order.MinMax
import Mathlib.Tactic.SplitIfs

/-!
# Searching for a minimum through a coarser copy

Elements are visited in order, and one replaces the best so far when its value is below a
rounded copy of the best value. What is found has every property of values that the comparison
with a rounded copy can neither lose nor miss, and it is the last such element when elements
with the property always replace each other.
-/

namespace Common

variable {ι K : Type*} [LinearOrder K] (value : ι → K) (round : K → K)

/-- Visit the elements of a list, with the best one so far and the rounded copy of its value. -/
def coarseSearch : List ι → ι → K → ι
  | [], index, _ => index
  | c :: rest, index, best =>
    if value c < best then coarseSearch rest c (round (value c)) else coarseSearch rest index best

/-- A property of values that the comparison neither loses nor misses. -/
structure Sought (T : K → Prop) (l : List ι) : Prop where
  enter : ∀ c ∈ l, ∀ d ∈ l, T (value c) → value d < round (value c) → T (value d)
  stay : ∀ c ∈ l, ∀ d ∈ l, T (value d) → ¬ value d < round (value c) → T (value c)

variable {value round} {T : K → Prop} {l : List ι} {index : ι}

/-- Fewer elements to compare. -/
theorem Sought.subset {l' : List ι} (h : Sought value round T l) (hsub : l' ⊆ l) :
    Sought value round T l' where
  enter := fun c hc d hd => h.enter c (hsub hc) d (hsub hd)
  stay := fun c hc d hd => h.stay c (hsub hc) d (hsub hd)

/-- An element that replaces the best one leaves one with the property among those to come. -/
theorem Sought.exists_of_lt {c : ι} (h : Sought value round T (index :: c :: l))
    (hsome : ∃ x ∈ index :: c :: l, T (value x)) (hlt : value c < round (value index)) :
    ∃ x ∈ c :: l, T (value x) := by
  obtain ⟨x, hx, hTx⟩ := hsome
  cases List.mem_cons.mp hx with
  | inl hself =>
    subst hself
    exact ⟨c, List.mem_cons_self, h.enter x hx c (by simp) hTx hlt⟩
  | inr hrest => exact ⟨x, hrest, hTx⟩

/-- An element that is passed over leaves one with the property among the others. -/
theorem Sought.exists_of_not_lt {c : ι} (h : Sought value round T (index :: c :: l))
    (hsome : ∃ x ∈ index :: c :: l, T (value x)) (hlt : ¬ value c < round (value index)) :
    ∃ x ∈ index :: l, T (value x) := by
  obtain ⟨x, hx, hTx⟩ := hsome
  cases List.mem_cons.mp hx with
  | inl hself => exact ⟨index, List.mem_cons_self, hself ▸ hTx⟩
  | inr hrest =>
    cases List.mem_cons.mp hrest with
    | inl hself =>
      subst hself
      exact ⟨index, List.mem_cons_self, h.stay index (by simp) x hx hTx hlt⟩
    | inr hlater => exact ⟨x, List.mem_cons_of_mem _ hlater, hTx⟩

/-- Passing over the second element. -/
theorem cons_subset_cons_cons (index c : ι) (l : List ι) : index :: l ⊆ index :: c :: l :=
  List.cons_subset_cons index (List.subset_cons_self c l)

/-- What is found has the property if some element has it. -/
theorem coarseSearch_sought (h : Sought value round T (index :: l))
    (hsome : ∃ x ∈ index :: l, T (value x)) :
    T (value (coarseSearch value round l index (round (value index)))) := by
  induction l generalizing index with
  | nil => simpa [coarseSearch] using hsome
  | cons c rest ih =>
    rw [coarseSearch]
    split_ifs with hlt
    · exact ih (h.subset (List.subset_cons_self _ _)) (h.exists_of_lt hsome hlt)
    · exact ih (h.subset (cons_subset_cons_cons index c rest)) (h.exists_of_not_lt hsome hlt)

/-- It is the last element with the property, if elements with the property replace each other. -/
theorem coarseSearch_last (h : Sought value round T (index :: l))
    (hmove : ∀ c ∈ index :: l, ∀ d ∈ index :: l, T (value c) → T (value d) →
      value d < round (value c)) (hsome : ∃ x ∈ index :: l, T (value x)) :
    ∃ before after, index :: l =
        before ++ coarseSearch value round l index (round (value index)) :: after ∧
      ∀ x ∈ after, ¬ T (value x) := by
  induction l generalizing index with
  | nil => exact ⟨[], [], rfl, by simp⟩
  | cons c rest ih =>
    have hfound := coarseSearch_sought h hsome
    rw [coarseSearch] at hfound ⊢
    split_ifs at hfound ⊢ with hlt
    · have hsub := List.subset_cons_self index (c :: rest)
      obtain ⟨before, after, hsplit, hnone⟩ := ih (h.subset hsub)
        (fun x hx y hy => hmove x (hsub hx) y (hsub hy)) (h.exists_of_lt hsome hlt)
      exact ⟨index :: before, after, by rw [hsplit, List.cons_append], hnone⟩
    · have hsub := cons_subset_cons_cons index c rest
      obtain ⟨before, after, hsplit, hnone⟩ := ih (h.subset hsub)
        (fun x hx y hy => hmove x (hsub hx) y (hsub hy)) (h.exists_of_not_lt hsome hlt)
      generalize coarseSearch value round rest index (round (value index)) = result
        at hfound hsplit ⊢
      cases before with
      | nil =>
        -- the best one stays the first: it is not replaced by the second
        obtain ⟨rfl, rfl⟩ := List.cons.inj hsplit
        refine ⟨[], c :: rest, rfl, List.forall_mem_cons.mpr ⟨fun hTc => ?_, hnone⟩⟩
        exact hlt (hmove index (by simp) c (by simp) hfound hTc)
      | cons first before =>
        obtain ⟨rfl, rfl⟩ := List.cons.inj hsplit
        exact ⟨index :: c :: before, after, rfl, hnone⟩

end Common
