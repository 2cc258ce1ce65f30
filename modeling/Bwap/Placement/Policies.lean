import Bwap.Common.Overlay
import Bwap.Placement.Ratio

/-!
# The policies left in force

Every call of `place_pages` that returns leaves the worker nodes in force on the last part of
its segment and does not touch the rest. The parts are nested, and the larger the ratio the
wider the part, so that a sequence of calls leaves what the one with the largest ratio leaves.
-/

namespace Bwap

open Common

/-- The policy of a page: one that `mbind` asked for, or another one, by its mode and its nodes. -/
inductive PagePolicy
  | requested (policy : MemoryPolicy) (nodes : Finset ℕ)
  | other (mode : ℕ) (nodes : Finset ℕ)
deriving DecidableEq

/-- The nodes of a policy. -/
def PagePolicy.nodes : PagePolicy → Finset ℕ
  | requested _ nodes => nodes
  | other _ nodes => nodes

/-- The policy in force at each address. -/
abbrev PolicyMap := Word → PagePolicy

/-- What a call leaves in force that the kernel accepts. -/
def MbindCall.apply (policies : PolicyMap) (call : MbindCall) : PolicyMap :=
  overlay (fun x => InRange call.start call.len x) (.requested call.policy call.nodes) policies

/-- What a call of `place_pages` leaves in force, if it returns. -/
def SplitPlacement.apply (placement : SplitPlacement) (policies : PolicyMap) : Option PolicyMap :=
  if placement.died.isSome then none else some (placement.issued.foldl MbindCall.apply policies)

/-- The calls of a placement that returns are in force after it. -/
theorem SplitPlacement.apply_of_returns {placement : SplitPlacement}
    (hreturns : placement.died = none) (policies : PolicyMap) :
    placement.apply policies = some (placement.issued.foldl MbindCall.apply policies) := by
  rw [apply, hreturns]
  rfl

/-- The addresses that `place_pages` moves: those behind the interleaved length. -/
def Moved (P : PageSize) (nodes : ℕ) (addr len : Word) (r : ℚ) (x : Word) : Prop :=
  (split P nodes len r).interleaveLen.toNat ≤ (x - addr).toNat ∧ (x - addr).toNat < len.toNat

instance (P : PageSize) (nodes : ℕ) (addr len : Word) (r : ℚ) :
    DecidablePred (Moved P nodes addr len r) := fun _ => inferInstanceAs (Decidable (_ ∧ _))

section Policies

variable {P : PageSize} {mbind : MbindCall → Bool} {nodes : ℕ} {maxNodes : ℕ} {workers : ℤ}
  {addr len : Word} {r : ℚ}

/-- A call that returns has an accepted ratio. -/
theorem accepted_of_returns (hnodes : 2 ≤ nodes) (hlen : P.bytes ∣ len.toNat)
    (hreturns : (placePages P mbind nodes maxNodes workers addr len r).died = none) :
    1 / nodes ≤ r ∧ r ≤ 1 := by
  by_contra hrejected
  have hinvalid := mt (split_valid_iff P hnodes hlen).mp hrejected
  have hdied := (placePages_of_not_valid P mbind maxNodes workers addr hinvalid).2
  rw [hreturns] at hdied
  exact absurd hdied (by simp)

/-- A call that returns leaves the worker nodes in force on the moved addresses, if there is a mask
for them. -/
theorem placePages_apply (hnodes : 2 ≤ nodes) (hlen : P.bytes ∣ len.toNat)
    (hreturns : (placePages P mbind nodes maxNodes workers addr len r).died = none)
    (before : PolicyMap) :
    (placePages P mbind nodes maxNodes workers addr len r).apply before =
      some (match workerMask maxNodes workers with
        | none => before
        | some nodeSet =>
          overlay (Moved P nodes addr len r) (.requested .interleave nodeSet) before) := by
  have hr := accepted_of_returns hnodes hlen hreturns
  have hvalid := (split_valid_iff P hnodes hlen).mpr hr
  obtain ⟨-, -, htotal⟩ := split_lengths P hnodes hlen hr
  have hlt := len.isLt
  rw [SplitPlacement.apply_of_returns hreturns,
    placePages_of_valid P mbind maxNodes workers addr hvalid]
  by_cases hempty : (split P nodes len r).localLen = 0
  · -- no address is behind the interleaved length, which is all of the segment
    have hfull : (split P nodes len r).interleaveLen.toNat = len.toNat := by
      rw [hempty] at htotal
      simpa using htotal
    have hnone : ∀ x, ¬ Moved P nodes addr len r x := by
      intro x h
      unfold Moved at h
      omega
    rw [if_pos hempty]
    cases workerMask maxNodes workers with
    | none => rfl
    | some nodeSet =>
      refine congrArg some (funext fun x => ?_)
      exact (if_neg (hnone x)).symm
  · rw [if_neg hempty]
    cases workerMask maxNodes workers with
    | none => rfl
    | some nodeSet =>
      refine congrArg some (funext fun x => ?_)
      have hmoved : InRange (addr + (split P nodes len r).interleaveLen)
          (split P nodes len r).localLen x ↔ Moved P nodes addr len r x := by
        rw [inRange_add_iff _ _ _ _ (by omega), htotal]
        rfl
      simp only [List.foldl_cons, List.foldl_nil, MbindCall.apply, overlay, hmoved]

/-- A larger ratio moves more. -/
theorem moved_mono (hnodes : 2 ≤ nodes) {r' : ℚ} (hr : 1 / nodes ≤ r) (hle : r ≤ r')
    (hr' : r' ≤ 1) (x : Word) (hmoved : Moved P nodes addr len r x) :
    Moved P nodes addr len r' x := by
  have hshare : (split P nodes len r').interleaveRatio * len.toNat ≤
      (split P nodes len r).interleaveRatio * len.toNat := by
    have htwo : (2 : ℚ) ≤ nodes := by exact_mod_cast hnodes
    have hpos : (0 : ℚ) < nodes - 1 := by linarith
    have hlocal : (nodes * r - 1) / (nodes - 1) ≤ (nodes * r' - 1) / ((nodes : ℚ) - 1) := by
      gcongr
    refine mul_le_mul_of_nonneg_right ?_ (Nat.cast_nonneg _)
    rw [split_interleaveRatio, split_interleaveRatio, split_localRatio P hnodes,
      split_localRatio P hnodes]
    linarith
  have hless : (split P nodes len r').interleaveLen.toNat ≤
      (split P nodes len r).interleaveLen.toNat := by
    rw [split_interleaveLen P hnodes len ⟨hr, hle.trans hr'⟩,
      split_interleaveLen P hnodes len ⟨hr.trans hle, hr'⟩]
    exact Nat.mul_le_mul_right _ (Nat.div_le_div_right (Nat.floor_le_floor hshare))
  exact ⟨hless.trans hmoved.1, hmoved.2⟩

/-- A sequence of calls that return puts the worker nodes in force on the addresses that each one
moves. -/
theorem foldlM_placePages_apply (hnodes : 2 ≤ nodes) (hlen : P.bytes ∣ len.toNat) {ratios : List ℚ}
    (hreturns : ∀ r ∈ ratios, (placePages P mbind nodes maxNodes workers addr len r).died = none)
    (policies : PolicyMap) :
    ratios.foldlM (fun policies r =>
        (placePages P mbind nodes maxNodes workers addr len r).apply policies) policies =
      some (match workerMask maxNodes workers with
        | none => policies
        | some nodeSet => ratios.foldl (fun g r => overlay (Moved P nodes addr len r)
          (.requested .interleave nodeSet) g) policies) := by
  induction ratios generalizing policies with
  | nil => cases workerMask maxNodes workers <;> rfl
  | cons r rest ih =>
    have hstep := placePages_apply hnodes hlen (hreturns r List.mem_cons_self) policies
    have hrest := ih fun q hq => hreturns q (List.mem_cons_of_mem _ hq)
    rw [List.foldlM_cons, hstep, Option.bind_eq_bind, Option.bind_some, hrest]
    cases workerMask maxNodes workers <;> rfl

/-- A sequence of calls that return leaves the same policies in force as the one with the largest
ratio alone, in whatever order they are made. -/
theorem placePages_sequence (P : PageSize) (mbind : MbindCall → Bool) (hnodes : 2 ≤ nodes)
    (maxNodes : ℕ) (workers : ℤ) (addr : Word) (hlen : P.bytes ∣ len.toNat) (before : PolicyMap)
    {ratios : List ℚ} {top : ℚ} (htop : IsGreatest {r | r ∈ ratios} top)
    (hreturns : ∀ r ∈ ratios, (placePages P mbind nodes maxNodes workers addr len r).died = none) :
    ∃ after,
      ratios.foldlM (fun policies r =>
        (placePages P mbind nodes maxNodes workers addr len r).apply policies) before =
          some after ∧
      (placePages P mbind nodes maxNodes workers addr len top).apply before = some after := by
  have hone := placePages_apply hnodes hlen (hreturns top htop.1) before
  refine ⟨_, ?_, hone⟩
  rw [foldlM_placePages_apply hnodes hlen hreturns]
  cases workerMask maxNodes workers with
  | none => rfl
  | some nodeSet =>
    have hnested : ∀ r ∈ ratios, ∀ x, Moved P nodes addr len r x →
        Moved P nodes addr len top x := by
      intro r hmem x hmoved
      exact moved_mono hnodes (accepted_of_returns hnodes hlen (hreturns r hmem)).1
        (htop.2 hmem) (accepted_of_returns hnodes hlen (hreturns top htop.1)).2 x hmoved
    exact congrArg some (foldl_overlay_of_widest _ _ htop.1 hnested before)

end Policies

/-- Two calls on two nodes in descending order leave the same policies as the first one. -/
theorem placePages_sequence_descending :
    let place := fun r => placePages .fourKiB (fun _ => true) 2 2 1 0x7f0000000000 0x4000 r
    let before : PolicyMap := fun _ => .other 3 {0, 1}
    ∃ after, ([3 / 4, 1 / 2] : List ℚ).foldlM (fun policies r => (place r).apply policies) before =
        some after ∧
      (place (3 / 4)).apply before = some after := by
  intro place before
  have htop : IsGreatest {r : ℚ | r ∈ [3 / 4, 1 / 2]} (3 / 4) := by
    refine ⟨List.mem_cons_self, fun r hr => ?_⟩
    rcases List.mem_pair.mp hr with rfl | rfl
    · exact le_rfl
    · norm_num
  exact placePages_sequence .fourKiB (fun _ => true) (by decide) 2 1 0x7f0000000000 (by decide)
    before htop (by decide +kernel)

end Bwap
