import Bwap.Mode.Adaptive
import Mathlib.Data.List.Chain
import Mathlib.Tactic.IntervalCases
import Mathlib.Order.Bounds.Basic

/-!
# The ratios the adaptive mode tries

Every call of `place_pages` is made at a percentage that the loop does not skip. The start of
the loop is rounded up from a quotient that was rounded down, and so falls below the share of
one node just for 17 to 19 nodes; with a single node the share divides by zero. The rule that
skips the multiples of ten leaves the percentages ending in five or 100 alone, so that no run
goes through the range.
-/

namespace Bwap

open Common

variable (e : Surroundings)

/-! ## The calls of a run -/

/-- The calls made for a list of segments are those for the large ones. -/
theorem placeAll_calls {ratio : ℚ} {segments : List MemorySegment} {call : PlacePagesCall}
    (hcall : call ∈ (placeAllPagesAdaptive e ratio segments).calls) :
    ∃ segment ∈ segments, Large segment ∧ call = placePagesAdaptive e segment ratio := by
  induction segments with
  | nil => simp [placeAllPagesAdaptive] at hcall
  | cons segment rest ih =>
    unfold placeAllPagesAdaptive at hcall
    by_cases hlarge : Large segment
    · rw [if_pos hlarge] at hcall
      have hrest : call = placePagesAdaptive e segment ratio ∨
          call ∈ (placeAllPagesAdaptive e ratio rest).calls := by
        cases hdied : (e.place (placePagesAdaptive e segment ratio)).died with
        | some message => exact Or.inl (by simpa [hdied] using hcall)
        | none => simpa [hdied] using hcall
      rcases hrest with rfl | hrest
      · exact ⟨segment, List.mem_cons_self, hlarge, rfl⟩
      · obtain ⟨other, hother, hcall⟩ := ih hrest
        exact ⟨other, List.mem_cons_of_mem _ hother, hcall⟩
    · rw [if_neg hlarge] at hcall
      obtain ⟨other, hother, hcall⟩ := ih hcall
      exact ⟨other, List.mem_cons_of_mem _ hother, hcall⟩

/-- A list with a large segment leads to a call. -/
theorem placeAll_calls_ne_nil {segments : List MemorySegment} (ratio : ℚ)
    (hlarge : ∃ segment ∈ segments, Large segment) :
    (placeAllPagesAdaptive e ratio segments).calls ≠ [] := by
  induction segments with
  | nil => simp at hlarge
  | cons segment rest ih =>
    unfold placeAllPagesAdaptive
    by_cases hfirst : Large segment
    · rw [if_pos hfirst]
      cases hdied : (e.place (placePagesAdaptive e segment ratio)).died with
      | some message => simp [hdied]
      | none => simp [hdied]
    · rw [if_neg hfirst]
      obtain ⟨other, hother, hotherLarge⟩ := hlarge
      rcases List.mem_cons.mp hother with rfl | hrest
      · exact absurd hotherLarge hfirst
      · exact ih ⟨other, hrest, hotherLarge⟩

/-- After a percentage that is not skipped the loop has made the calls at it, and perhaps those of
its later passes. -/
theorem adaptiveLoop_calls_cons {percentage : ℕ} (rest : List ℕ) (best : Rate)
    (hskip : ¬ Skipped percentage) :
    ∃ later, (adaptiveLoop e (percentage :: rest) best).calls =
        (placeAllPagesAdaptive e (percentage / 100) (e.segments percentage)).calls ++ later ∧
      (later = [] ∨ ∃ best', later = (adaptiveLoop e rest best').calls) := by
  rw [adaptiveLoop, if_neg hskip]
  cases hdied : (placeAllPagesAdaptive e (percentage / 100) (e.segments percentage)).died with
  | some message => exact ⟨[], by simp [hdied], Or.inl rfl⟩
  | none =>
    simp only [hdied]
    split_ifs with hrisen hconfirmed
    · exact ⟨[], by simp, Or.inl rfl⟩
    · exact ⟨_, rfl, Or.inr ⟨_, rfl⟩⟩
    · exact ⟨_, rfl, Or.inr ⟨_, rfl⟩⟩

/-- Every call of the loop is made for a large segment, at a percentage that is tried. -/
theorem adaptiveLoop_calls {percentages : List ℕ} {best : Rate} {call : PlacePagesCall}
    (hcall : call ∈ (adaptiveLoop e percentages best).calls) :
    ∃ percentage ∈ triedPercentages percentages, ∃ segment ∈ e.segments percentage,
      Large segment ∧ call = placePagesAdaptive e segment (percentage / 100) := by
  induction percentages generalizing best with
  | nil => simp [adaptiveLoop] at hcall
  | cons percentage rest ih =>
    by_cases hskip : Skipped percentage
    · rw [adaptiveLoop, if_pos hskip] at hcall
      rw [triedPercentages_skipped rest hskip]
      exact ih hcall
    · rw [triedPercentages_tried rest hskip]
      obtain ⟨later, hcalls, hlater⟩ := adaptiveLoop_calls_cons e rest best hskip
      rw [hcalls] at hcall
      rcases List.mem_append.mp hcall with hfirst | hnext
      · exact ⟨percentage, List.mem_cons_self, placeAll_calls e hfirst⟩
      · rcases hlater with rfl | ⟨best', rfl⟩
        · simp at hnext
        · obtain ⟨next, hnext, hsegment⟩ := ih hnext
          exact ⟨next, List.mem_cons_of_mem _ hnext, hsegment⟩

/-- The calls at the first percentage that is tried are made whatever is measured. -/
theorem adaptiveLoop_first_calls {percentages : List ℕ} {best : Rate} {first : ℕ} {later : List ℕ}
    (hfirst : triedPercentages percentages = first :: later) {call : PlacePagesCall}
    (hcall : call ∈ (placeAllPagesAdaptive e (first / 100) (e.segments first)).calls) :
    call ∈ (adaptiveLoop e percentages best).calls := by
  induction percentages with
  | nil => simp [triedPercentages] at hfirst
  | cons percentage rest ih =>
    by_cases hskip : Skipped percentage
    · rw [triedPercentages_skipped rest hskip] at hfirst
      rw [adaptiveLoop, if_pos hskip]
      exact ih hfirst
    · rw [triedPercentages_tried rest hskip] at hfirst
      obtain ⟨rfl, -⟩ := List.cons.inj hfirst
      obtain ⟨next, hcalls, -⟩ := adaptiveLoop_calls_cons e rest best hskip
      rw [hcalls]
      exact List.mem_append_left _ hcall

/-! ## Admissible calls -/

/-- A call that `place_pages` computes a split for, of whole pages, and that passes its checks. -/
structure Surroundings.Admissible (call : PlacePagesCall) : Prop where
  divisor : (e.nodes : ℤ) - 1 ≠ 0
  pages : e.pageSize.bytes ∣ call.len.toNat
  valid : (split e.pageSize e.nodes call.len call.ratio).Valid e.pageSize call.len call.ratio

/-- With several nodes, a call for a segment is admissible exactly when the percentage is between
the share of one node and 100. -/
theorem admissible_iff (hnodes : 2 ≤ e.nodes) (segment : MemorySegment) {percentage : ℕ}
    (hle : percentage ≤ 100) :
    e.Admissible (placePagesAdaptive e segment (percentage / 100)) ↔
      100 ≤ e.nodes * percentage := by
  have hpages := MemorySegment.dvd_pageAlignedLength e.pageSize segment
  have hvalid := split_valid_iff e.pageSize hnodes (r := percentage / 100) hpages
  have hcount : (0 : ℚ) < e.nodes := by exact_mod_cast (by omega : 0 < e.nodes)
  have hone : (percentage : ℚ) / 100 ≤ 1 := by
    rw [div_le_one (by norm_num)]
    exact_mod_cast hle
  have hshare : 1 / (e.nodes : ℚ) ≤ percentage / 100 ↔ 100 ≤ e.nodes * percentage := by
    rw [div_le_div_iff₀ hcount (by norm_num), one_mul, mul_comm (percentage : ℚ)]
    exact_mod_cast Iff.rfl
  rw [and_iff_left hone, hshare] at hvalid
  exact ⟨fun h => hvalid.mp h.valid, fun h => ⟨by omega, hpages, hvalid.mpr h⟩⟩

/-- The percentages that are tried end in five, but for 100. -/
theorem tried_mod_ten {nodes percentage : ℕ}
    (hmem : percentage ∈ triedPercentages (loopPercentages nodes)) :
    percentage = 100 ∨ percentage % 10 = 5 := by
  obtain ⟨hloop, hskip⟩ := mem_tried_iff.mp hmem
  obtain ⟨-, -, hmod⟩ := mem_loopPercentages_iff.mp hloop
  obtain ⟨-, -, hfive⟩ := firstPercentage_bounds nodes
  unfold Skipped at hskip
  omega

/-- A percentage that is tried is below the share of one node only as the first of 17 to 19. -/
theorem tried_below_share {nodes percentage : ℕ} (hnodes : 2 ≤ nodes)
    (hmem : percentage ∈ triedPercentages (loopPercentages nodes))
    (hbelow : nodes * percentage < 100) :
    (nodes = 17 ∨ nodes = 18 ∨ nodes = 19) ∧ percentage = 5 := by
  have hmod := tried_mod_ten hmem
  obtain ⟨hstart, -, -⟩ := mem_loopPercentages_iff.mp (mem_tried_iff.mp hmem).1
  have hfew : nodes < 20 := by
    by_contra hmany
    have hmul : 20 * 5 ≤ nodes * percentage := Nat.mul_le_mul (by omega) (by omega)
    omega
  unfold firstPercentage at hstart
  interval_cases nodes <;> omega

/-- The first percentage that is tried, where it is one below the share of one node. -/
theorem tried_first {nodes : ℕ} (hbad : nodes = 1 ∨ nodes = 17 ∨ nodes = 18 ∨ nodes = 19) :
    ∃ later, triedPercentages (loopPercentages nodes) =
      (if nodes = 1 then 100 else 5) :: later := by
  rcases hbad with rfl | rfl | rfl | rfl
  · exact ⟨[], by decide⟩
  · exact ⟨[15, 25, 35, 45, 55, 65, 75, 85, 95], by decide⟩
  · exact ⟨[15, 25, 35, 45, 55, 65, 75, 85, 95], by decide⟩
  · exact ⟨[15, 25, 35, 45, 55, 65, 75, 85, 95], by decide⟩

/-- For these numbers of nodes, no call at the first percentage is admissible. -/
theorem not_admissible_first (hbad : e.nodes = 1 ∨ e.nodes = 17 ∨ e.nodes = 18 ∨ e.nodes = 19)
    {call : PlacePagesCall} {segment : MemorySegment}
    (hcall : call = placePagesAdaptive e segment ((if e.nodes = 1 then 100 else 5 : ℕ) / 100)) :
    ¬ e.Admissible call := by
  intro h
  by_cases hone : e.nodes = 1
  · exact h.divisor (by simp [hone])
  · rw [if_neg hone] at hcall
    rw [hcall, admissible_iff e (by omega) segment (by decide)] at h
    omega

/-- Every call of the adaptive thread is admissible exactly when the number of nodes is neither one
nor 17 to 19, or no segment is large when the first percentage is tried. -/
theorem adaptiveThread_admissible_iff (hnodes : 1 ≤ e.nodes) :
    (∀ call ∈ (adaptiveThread e).calls, e.Admissible call) ↔
      ¬(e.nodes = 1 ∨ e.nodes = 17 ∨ e.nodes = 18 ∨ e.nodes = 19) ∨
        ∀ segment ∈ e.segments (if e.nodes = 1 then 100 else 5), ¬ Large segment := by
  apply Iff.intro
  · intro hall
    by_contra hbad
    push Not at hbad
    obtain ⟨hbad, hlarge⟩ := hbad
    obtain ⟨later, hfirst⟩ := tried_first hbad
    obtain ⟨call, hcall⟩ := List.exists_mem_of_ne_nil _ (placeAll_calls_ne_nil e
      ((if e.nodes = 1 then 100 else 5 : ℕ) / 100) hlarge)
    obtain ⟨segment, -, -, hargs⟩ := placeAll_calls e hcall
    exact not_admissible_first e hbad hargs (hall call (adaptiveLoop_first_calls e hfirst hcall))
  · intro h call hcall
    obtain ⟨percentage, htried, segment, hsegment, hlarge, rfl⟩ := adaptiveLoop_calls e hcall
    obtain ⟨-, hle, -⟩ := mem_loopPercentages_iff.mp (mem_tried_iff.mp htried).1
    by_cases hone : e.nodes = 1
    · -- a single percentage is tried, and its segments are not large
      have hlast : triedPercentages (loopPercentages 1) = [100] := by decide
      rw [hone, hlast, List.mem_singleton] at htried
      rw [if_pos hone] at h
      have hnone := h.resolve_left (not_not.mpr (Or.inl hone))
      exact absurd hlarge (hnone segment (by rwa [htried] at hsegment))
    · rw [if_neg hone] at h
      rw [admissible_iff e (by omega) segment hle]
      by_contra hbelow
      obtain ⟨hmany, rfl⟩ := tried_below_share (by omega) htried (by omega)
      exact absurd hlarge (h.resolve_left (not_not.mpr (Or.inr hmany)) segment hsegment)

/-- On four nodes eight calls are made, and every one is admissible. -/
theorem adaptiveThread_admissible_four_nodes :
    let e := fourNodes (fun p => 100 - p) fun p => 100 - p
    (adaptiveThread e).calls.length = 8 ∧ ∀ call ∈ (adaptiveThread e).calls, e.Admissible call := by
  intro e
  have hnodes : ¬(e.nodes = 1 ∨ e.nodes = 17 ∨ e.nodes = 18 ∨ e.nodes = 19) := by decide
  exact ⟨by decide +kernel,
    (adaptiveThread_admissible_iff e (by decide)).mpr (Or.inl hnodes)⟩

/-- On seventeen nodes the first call asks for five percent, and the process dies. -/
theorem adaptiveThread_admissible_seventeen_nodes :
    let e := { fourNodes (fun p => 100 - p) fun p => 100 - p with nodes := 17, maxNodes := 17 }
    (adaptiveThread e).calls = [⟨0x7f0000000000, 0x200000, 1 / 20⟩] ∧
      (adaptiveThread e).ending = .failed "bad local_ratio calculation" ∧
      ¬ e.Admissible ⟨0x7f0000000000, 0x200000, 1 / 20⟩ := by
  intro e
  refine ⟨by decide +kernel, by decide +kernel, fun h => ?_⟩
  have hlocal := h.valid.localRatio.1
  exact absurd hlocal (by decide +kernel)

/-! ## The range of the search -/

/-- The percentages visited go up from the first admissible multiple of five to 100, in steps of at
most `ADAPTATION_STEP`. -/
structure SearchesWholeRange (nodes : ℕ) (visited : List ℕ) : Prop where
  increasing : visited.Pairwise (· < ·)
  first : ∃ first, visited.head? = some first ∧
    IsLeast {m | 0 < m ∧ 5 ∣ m ∧ 100 / nodes ≤ m} first
  steps : visited.IsChain fun a b => b ≤ a + adaptationStep
  last : visited.getLast? = some 100

/-- The percentages measured in a run are the first ones of those that are tried. -/
theorem measured_initial :
    (adaptiveThread e).trials.map Trial.candidate <+:
      triedPercentages (loopPercentages e.nodes) := by
  rw [(adaptiveThread_eq_search e).1]
  exact search_candidates _ _ _ _ _ _

/-- Where 100 is tried, nothing else is. -/
theorem tried_eq_hundred {nodes : ℕ} (hlast : 100 ∈ triedPercentages (loopPercentages nodes))
    {percentage : ℕ} (hmem : percentage ∈ triedPercentages (loopPercentages nodes)) :
    percentage = 100 := by
  obtain ⟨-, -, hmod⟩ := mem_loopPercentages_iff.mp (mem_tried_iff.mp hlast).1
  obtain ⟨-, -, hmod'⟩ := mem_loopPercentages_iff.mp (mem_tried_iff.mp hmem).1
  rcases tried_mod_ten hmem with hhundred | hfive
  · exact hhundred
  · omega

/-- No run of the adaptive thread goes through the whole range: where it reaches 100, that is the
only percentage it visits. -/
theorem adaptiveThread_never_whole (hnodes : 2 ≤ e.nodes) :
    ¬ SearchesWholeRange e.nodes ((adaptiveThread e).trials.map Trial.candidate) := by
  intro h
  have hsubset := (measured_initial e).subset
  have hlast := hsubset (List.mem_of_getLast? h.last)
  obtain ⟨first, hhead, -, hleast⟩ := h.first
  have hfirst := tried_eq_hundred hlast (hsubset (List.mem_of_head? hhead))
  have hhalf : 100 / e.nodes ≤ 50 := Nat.div_le_div_left hnodes (by decide)
  have hle : first ≤ 50 := hleast ⟨by decide, by decide, hhalf⟩
  omega

/-- On four nodes the range is not searched. -/
theorem adaptiveThread_never_whole_four_nodes :
    ¬ SearchesWholeRange 4
      ((adaptiveThread (fourNodes (fun p => 100 - p) fun p => 100 - p)).trials.map
        Trial.candidate) :=
  adaptiveThread_never_whole (fourNodes (fun p => 100 - p) fun p => 100 - p) (by decide)

/-- On four nodes, a run that goes through its loop ends at 95; on two nodes it visits only 100. -/
theorem adaptiveThread_range_ends :
    let four := fourNodes (fun p => 100 - p) fun p => 100 - p
    let two := { four with nodes := 2, maxNodes := 2 }
    (adaptiveThread four).ending = .exhausted ∧
      (adaptiveThread four).trials.map Trial.candidate = [25, 35, 45, 55, 65, 75, 85, 95] ∧
      ¬ SearchesWholeRange 4 ((adaptiveThread four).trials.map Trial.candidate) ∧
      (adaptiveThread two).ending = .exhausted ∧
      (adaptiveThread two).trials.map Trial.candidate = [100] ∧
      ¬ SearchesWholeRange 2 ((adaptiveThread two).trials.map Trial.candidate) := by
  intro four two
  have hfour : (adaptiveThread four).trials.map Trial.candidate =
      [25, 35, 45, 55, 65, 75, 85, 95] := by decide +kernel
  have htwo : (adaptiveThread two).trials.map Trial.candidate = [100] := by decide +kernel
  refine ⟨by decide +kernel, hfour, fun h => ?_, by decide +kernel, htwo, fun h => ?_⟩
  · have hlast := h.last
    rw [hfour] at hlast
    exact absurd hlast (by decide)
  · obtain ⟨first, hhead, -, hleast⟩ := h.first
    rw [htwo] at hhead
    obtain rfl : 100 = first := Option.some.inj hhead
    exact absurd (hleast (⟨by decide, by decide, by decide⟩ : 0 < 50 ∧ 5 ∣ 50 ∧ 100 / 2 ≤ 50))
      (by decide)

end Bwap
