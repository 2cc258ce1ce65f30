import Mathlib.Data.List.Basic
import Mathlib.Order.MinMax
import Mathlib.Tactic.SplitIfs

/-!
# Searches that stop when the cost rises

Candidates are tried in order, and the best cost so far is kept. A candidate whose cost is
beyond a limit that depends on the best one is measured a second time, and when that is
beyond the limit too the search stops there. The last candidate tried is within the limit
exactly when the search does not stop, and whether it stops is read off the costs.
-/

namespace Common

/-- A candidate that was tried: its cost, and the second measurement if one was made. -/
structure Trial (α K : Type*) where
  candidate : α
  cost : K
  confirmation : Option K
deriving DecidableEq

/-- Why a search ends: no candidate is left, the cost has risen, or a candidate cannot be tried. -/
inductive SearchEnd (ε : Type*)
  | exhausted
  | risen
  | failed (error : ε)
deriving DecidableEq

/-- The candidates that were tried, the best cost and the end of a search. -/
structure Search (ε α K : Type*) where
  trials : List (Trial α K)
  best : K
  ending : SearchEnd ε

/-- Put a trial before the rest of a search. -/
def Search.after {ε α K : Type*} (trial : Trial α K) (rest : Search ε α K) : Search ε α K :=
  { rest with trials := trial :: rest.trials }

variable {ε α K : Type*} [LinearOrder K] (attempt : α → Option ε) (cost confirm : α → K)
  (limit : K → K)

/-- Try the candidates in order, with the best cost so far. -/
def search : List α → K → Search ε α K
  | [], best => ⟨[], best, .exhausted⟩
  | c :: rest, best =>
    match attempt c with
    | some error => ⟨[], best, .failed error⟩
    | none =>
      if limit (min best (cost c)) < cost c then
        if limit (min best (cost c)) < confirm c then
          ⟨[⟨c, cost c, some (confirm c)⟩], min best (cost c), .risen⟩
        else (search rest (min best (cost c))).after ⟨c, cost c, some (confirm c)⟩
      else (search rest (min best (cost c))).after ⟨c, cost c, none⟩

section Steps

variable {attempt cost confirm limit} {c : α} (rest : List α) {best : K}
  (hattempt : attempt c = none)

include hattempt in
/-- A cost that is confirmed to be beyond the limit ends the search. -/
theorem search_risen (hcost : limit (min best (cost c)) < cost c)
    (hconfirm : limit (min best (cost c)) < confirm c) :
    search attempt cost confirm limit (c :: rest) best =
      ⟨[⟨c, cost c, some (confirm c)⟩], min best (cost c), .risen⟩ := by
  simp only [search, hattempt, if_pos hcost, if_pos hconfirm]

include hattempt in
/-- A cost that is not confirmed does not. -/
theorem search_unconfirmed (hcost : limit (min best (cost c)) < cost c)
    (hconfirm : confirm c ≤ limit (min best (cost c))) :
    search attempt cost confirm limit (c :: rest) best =
      (search attempt cost confirm limit rest (min best (cost c))).after
        ⟨c, cost c, some (confirm c)⟩ := by
  simp only [search, hattempt, if_pos hcost, if_neg (not_lt.mpr hconfirm)]

include hattempt in
/-- Neither does one within the limit. -/
theorem search_low (hcost : cost c ≤ limit (min best (cost c))) :
    search attempt cost confirm limit (c :: rest) best =
      (search attempt cost confirm limit rest (min best (cost c))).after ⟨c, cost c, none⟩ := by
  simp only [search, hattempt, if_neg (not_lt.mpr hcost)]

end Steps

/-- The candidates tried are the first ones. -/
theorem search_candidates (candidates : List α) (best : K) :
    (search attempt cost confirm limit candidates best).trials.map Trial.candidate <+:
      candidates := by
  induction candidates generalizing best with
  | nil => exact List.prefix_refl _
  | cons c rest ih =>
    unfold search
    cases attempt c with
    | some error => exact List.nil_prefix
    | none =>
      dsimp only
      split_ifs with hrisen hconfirmed
      · exact List.cons_prefix_cons.mpr ⟨rfl, List.nil_prefix⟩
      · exact List.cons_prefix_cons.mpr ⟨rfl, ih _⟩
      · exact List.cons_prefix_cons.mpr ⟨rfl, ih _⟩

/-- The costs recorded are those of the candidates. -/
theorem search_cost {candidates : List α} {best : K} {trial : Trial α K}
    (htrial : trial ∈ (search attempt cost confirm limit candidates best).trials) :
    trial.cost = cost trial.candidate := by
  induction candidates generalizing best with
  | nil => simp [search] at htrial
  | cons c rest ih =>
    unfold search at htrial
    cases hattempt : attempt c with
    | some error => simp [hattempt] at htrial
    | none =>
      simp only [hattempt] at htrial
      split_ifs at htrial with hrisen hconfirmed
      · rw [List.mem_singleton.mp htrial]
      · rcases List.mem_cons.mp htrial with rfl | hlater
        · rfl
        · exact ih hlater
      · rcases List.mem_cons.mp htrial with rfl | hlater
        · rfl
        · exact ih hlater

/-- What is within the limit of the best cost at the end is within the limits of all costs. -/
theorem search_le_limit_iff (hlimit : Monotone limit) (candidates : List α) (best bound : K) :
    bound ≤ limit (search attempt cost confirm limit candidates best).best ↔
      bound ≤ limit best ∧
        ∀ trial ∈ (search attempt cost confirm limit candidates best).trials,
          bound ≤ limit trial.cost := by
  induction candidates generalizing best with
  | nil => simp [search]
  | cons c rest ih =>
    unfold search
    cases attempt c with
    | some error => simp
    | none =>
      dsimp only
      split_ifs with hrisen hconfirmed
      · simp [hlimit.map_min]
      · simp only [Search.after, ih, hlimit.map_min, le_min_iff, List.forall_mem_cons, and_assoc]
      · simp only [Search.after, ih, hlimit.map_min, le_min_iff, List.forall_mem_cons, and_assoc]

/-- A search that does not fail is the one in which everything can be tried. -/
theorem search_of_not_failed {candidates : List α} {best : K}
    (hlives : ∀ error, (search attempt cost confirm limit candidates best).ending ≠ .failed error) :
    search attempt cost confirm limit candidates best =
      search (fun _ => (none : Option ε)) cost confirm limit candidates best := by
  induction candidates generalizing best with
  | nil => rfl
  | cons c rest ih =>
    unfold search at hlives ⊢
    cases hattempt : attempt c with
    | some error => exact absurd (by rw [hattempt]) (hlives error)
    | none =>
      simp only [hattempt] at hlives ⊢
      split_ifs at hlives ⊢ with hrisen hconfirmed
      · rfl
      · rw [ih hlives]
      · rw [ih hlives]

/-- One of the two measurements of a trial is within the limit. -/
def Trial.Within (bound : K) (trial : Trial α K) : Prop :=
  trial.cost ≤ bound ∨ ∃ cost ∈ trial.confirmation, cost ≤ bound

/-- The last trial is within the limit of the best cost exactly when the search has not stopped
early. -/
theorem search_last {candidates : List α} (best : K) (hsome : candidates ≠ [])
    (hattempt : ∀ c ∈ candidates, attempt c = none) :
    ∃ trial, (search attempt cost confirm limit candidates best).trials.getLast? = some trial ∧
      (trial.Within (limit (search attempt cost confirm limit candidates best).best) ↔
        (search attempt cost confirm limit candidates best).ending = .exhausted) := by
  induction candidates generalizing best with
  | nil => exact absurd rfl hsome
  | cons c rest ih =>
    have hfirst := hattempt c List.mem_cons_self
    have hlater : ∀ c ∈ rest, attempt c = none := fun c hc =>
      hattempt c (List.mem_cons_of_mem _ hc)
    -- a search that goes on ends like its rest, or with this trial if there is none
    have hgoesOn : ∀ trial : Trial α K, trial.Within (limit (min best (cost c))) →
        search attempt cost confirm limit (c :: rest) best =
          (search attempt cost confirm limit rest (min best (cost c))).after trial →
        ∃ last, (search attempt cost confirm limit (c :: rest) best).trials.getLast? = some last ∧
          (last.Within (limit (search attempt cost confirm limit (c :: rest) best).best) ↔
            (search attempt cost confirm limit (c :: rest) best).ending = .exhausted) := by
      intro trial hwithin hstep
      rw [hstep]
      cases rest with
      | nil => exact ⟨trial, rfl, iff_of_true hwithin rfl⟩
      | cons next rest =>
        obtain ⟨last, hlast, hiff⟩ := ih (min best (cost c)) (List.cons_ne_nil _ _) hlater
        exact ⟨last, by simp [Search.after, List.getLast?_cons, hlast], hiff⟩
    rcases le_or_gt (cost c) (limit (min best (cost c))) with hcost | hcost
    · exact hgoesOn _ (Or.inl hcost) (search_low rest hfirst hcost)
    · rcases le_or_gt (confirm c) (limit (min best (cost c))) with hconfirm | hconfirm
      · exact hgoesOn ⟨c, cost c, some (confirm c)⟩ (Or.inr ⟨_, rfl, hconfirm⟩)
          (search_unconfirmed rest hfirst hcost hconfirm)
      · rw [search_risen rest hfirst hcost hconfirm]
        refine ⟨_, rfl, iff_of_false ?_ (by simp)⟩
        simp [Trial.Within, hcost, hconfirm]

/-- The search goes on past a candidate when one of its measurements is within the limit. -/
theorem search_cons_exhausted_iff {c : α} (rest : List α) (best : K) (hattempt : attempt c = none) :
    (search attempt cost confirm limit (c :: rest) best).ending = .exhausted ↔
      (cost c ≤ limit (min best (cost c)) ∨ confirm c ≤ limit (min best (cost c))) ∧
        (search attempt cost confirm limit rest (min best (cost c))).ending = .exhausted := by
  rcases le_or_gt (cost c) (limit (min best (cost c))) with hcost | hcost
  · rw [search_low rest hattempt hcost]
    simp [Search.after, hcost]
  · rcases le_or_gt (confirm c) (limit (min best (cost c))) with hconfirm | hconfirm
    · rw [search_unconfirmed rest hattempt hcost hconfirm]
      simp [Search.after, hconfirm]
    · rw [search_risen rest hattempt hcost hconfirm]
      simp [hcost, hconfirm]

/-- The search goes through all candidates exactly when one of the two measurements of each
candidate is within the limits of all costs up to its own. -/
theorem search_exhausted_iff (hlimit : Monotone limit) (candidates : List α) (best : K)
    (hattempt : ∀ c ∈ candidates, attempt c = none) :
    (search attempt cost confirm limit candidates best).ending = .exhausted ↔
      ∀ seen c, seen ++ [c] <+: candidates →
        (cost c ≤ limit best ∧ ∀ q ∈ seen ++ [c], cost c ≤ limit (cost q)) ∨
          confirm c ≤ limit best ∧ ∀ q ∈ seen ++ [c], confirm c ≤ limit (cost q) := by
  induction candidates generalizing best with
  | nil => simp [search]
  | cons c rest ih =>
    have hfirst := hattempt c List.mem_cons_self
    have hrest := ih (min best (cost c)) fun c hc => hattempt c (List.mem_cons_of_mem _ hc)
    rw [search_cons_exhausted_iff _ _ _ _ rest best hfirst, hrest]
    simp only [hlimit.map_min, le_min_iff]
    apply Iff.intro
    · intro h seen d hprefixed
      cases seen with
      | nil =>
        obtain ⟨rfl, -⟩ := List.cons_prefix_cons.mp hprefixed
        simpa using h.1
      | cons e seen =>
        obtain ⟨rfl, hinner⟩ := List.cons_prefix_cons.mp hprefixed
        simpa [and_assoc] using h.2 seen d hinner
    · intro h
      apply And.intro
      · simpa using h [] c (by simp)
      · intro seen d hprefixed
        simpa [and_assoc] using h (c :: seen) d (by simpa using hprefixed)

/-- In an ascending list, the elements of an initial part are those up to its last one. -/
theorem mem_initial_iff_of_ascending {α : Type*} [LinearOrder α] {candidates seen : List α}
    {c q : α} (hascending : candidates.Pairwise (· < ·)) (hinitial : seen ++ [c] <+: candidates) :
    q ∈ seen ++ [c] ↔ q ∈ candidates ∧ q ≤ c := by
  obtain ⟨later, rfl⟩ := hinitial
  obtain ⟨hseen, -, hlater⟩ := List.pairwise_append.mp hascending
  obtain ⟨-, -, hlast⟩ := List.pairwise_append.mp hseen
  apply Iff.intro
  · intro hq
    refine ⟨List.mem_append_left _ hq, ?_⟩
    rcases List.mem_append.mp hq with hq | hq
    · exact (hlast q hq c (List.mem_singleton_self c)).le
    · exact (List.mem_singleton.mp hq).le
  · intro hq
    rcases List.mem_append.mp hq.1 with hmem | hmem
    · exact hmem
    · exact absurd hq.2 (not_le.mpr (hlater c (by simp) q hmem))

/-- The end of a search through ascending candidates, read off the costs of the candidates. -/
theorem search_exhausted_iff_of_ascending {ε α K : Type*} [LinearOrder α] [LinearOrder K]
    {attempt : α → Option ε} {cost confirm : α → K} {limit : K → K} (hlimit : Monotone limit)
    {candidates : List α} (hascending : candidates.Pairwise (· < ·)) {best : K}
    (hbest : ∀ k, k ≤ limit best)
    (hlives : ∀ error, (search attempt cost confirm limit candidates best).ending ≠ .failed error) :
    (search attempt cost confirm limit candidates best).ending = .exhausted ↔
      ∀ c ∈ candidates,
        (∀ q ∈ candidates, q ≤ c → cost c ≤ limit (cost q)) ∨
          ∀ q ∈ candidates, q ≤ c → confirm c ≤ limit (cost q) := by
  rw [search_of_not_failed _ _ _ _ hlives,
    search_exhausted_iff _ _ _ _ hlimit candidates best fun _ _ => rfl]
  simp only [hbest, true_and]
  apply Iff.intro
  · intro h c hc
    obtain ⟨seen, later, rfl⟩ := List.append_of_mem hc
    have hinitial : seen ++ [c] <+: seen ++ c :: later := ⟨later, by simp⟩
    have hmem := fun q => mem_initial_iff_of_ascending hascending hinitial (q := q)
    exact (h seen c hinitial).imp (fun hcost q hq hle => hcost q ((hmem q).mpr ⟨hq, hle⟩))
      (fun hconfirm q hq hle => hconfirm q ((hmem q).mpr ⟨hq, hle⟩))
  · intro h seen c hinitial
    have hmem := fun q => mem_initial_iff_of_ascending hascending hinitial (q := q)
    have hc : c ∈ candidates := hinitial.subset (by simp)
    exact (h c hc).imp (fun hcost q hq => hcost q ((hmem q).mp hq).1 ((hmem q).mp hq).2)
      (fun hconfirm q hq => hconfirm q ((hmem q).mp hq).1 ((hmem q).mp hq).2)

end Common
