import Bwap.Common.Overwrites
import Bwap.Mode.WeightedAdaptive
import Bwap.Placement.Policies

/-!
# Placing the whole map by weight

`ScanMode::start` and every pass of `memInitThread` go through the segments of the map and place
the large ones by weight. The loop is one list of policy calls. Where the page ranges of the
segments do not overlap, each of them gets the policies of its own placement, everything else
keeps its policy, and the order of the list does not matter.
-/

namespace Bwap

open Common

/-- One placement and then another one, unless the first stops the process. -/
def Placement.andThen (first next : Placement) : Placement :=
  if first.aborted then first else ⟨first.issued ++ next.issued, next.aborted⟩

/-- What calls that the kernel accepts leave in force. -/
def applyCalls (calls : List IssuedCall) (policies : PolicyMap) : PolicyMap :=
  calls.foldl (fun policies call => call.toMbindCall.apply policies) policies

/-- What a placement leaves in force, if it returns. -/
def Placement.apply (placement : Placement) (policies : PolicyMap) : Option PolicyMap :=
  if placement.aborted then none else some (applyCalls placement.issued policies)

section Loop

variable (P : PageSize) (mbind : MbindCall → Bool) (nodesInfo : List Record)

/-- The loop over the map in `ScanMode::start` and in a pass of `memInitThread`. -/
def placeAllWeightedInitial : List MemorySegment → Placement
  | [] => ⟨[], false⟩
  | segment :: rest =>
    if segment.length > (1 : Word) <<< 14 then
      (placeSegmentWeightedInitial P mbind nodesInfo segment).andThen
        (placeAllWeightedInitial rest)
    else placeAllWeightedInitial rest

/-- The calls for one segment, if none fails. -/
def segmentCalls (segment : MemorySegment) : List IssuedCall :=
  if segment.length > (1 : Word) <<< 20 then
    (List.range nodesInfo.length).filterMap (loopCalls P nodesInfo
      (segment.pageAlignedStartAddress P) (segment.pageAlignedLength P).toNat)
  else []

/-- Issuing two lists is issuing the first and then, unless a call fails, the second. -/
theorem Placement.issueAll_append (first rest : List IssuedCall) :
    issueAll mbind (first ++ rest) = (issueAll mbind first).andThen (issueAll mbind rest) := by
  induction first with
  | nil => rfl
  | cons call first ih =>
    change issue mbind call (issueAll mbind (first ++ rest)) =
      (issue mbind call (issueAll mbind first)).andThen (issueAll mbind rest)
    rw [ih]
    unfold issue andThen
    by_cases hcall : mbind call.toMbindCall = true
    · by_cases hrest : (issueAll mbind first).aborted = true
      · simp [hcall, hrest]
      · simp [hcall, hrest]
    · simp [hcall]

/-- A segment is placed by its calls. -/
theorem placeSegmentWeightedInitial_eq (segment : MemorySegment) :
    placeSegmentWeightedInitial P mbind nodesInfo segment =
      Placement.issueAll mbind (segmentCalls P nodesInfo segment) := by
  unfold placeSegmentWeightedInitial segmentCalls
  split_ifs with hlarge
  · exact interleaveLoop_all P mbind nodesInfo _ _
  · rfl

/-- A segment too short for the loop has no calls. -/
theorem segmentCalls_of_short {segment : MemorySegment}
    (hshort : ¬ segment.length > (1 : Word) <<< 14) : segmentCalls P nodesInfo segment = [] := by
  have hless : (1 : Word) <<< 14 < (1 : Word) <<< 20 := by decide
  exact if_neg fun hlarge => hshort (BitVec.lt_trans hless hlarge)

/-- The segments whose placement makes a call: those of more than a mebibyte whose page range is not
empty and in which the share of some node, rounded up to pages, is not zero. -/
structure GetsCalls (segment : MemorySegment) : Prop where
  large : segment.length > (1 : Word) <<< 20
  pages : 0 < (segment.pageAlignedLength P).toNat
  share : ∃ i < nodesInfo.length,
    0 < wordDemand P (idealShare nodesInfo (segment.pageAlignedLength P).toNat) i

/-- The other segments have no calls. -/
theorem segmentCalls_eq_nil_iff (segment : MemorySegment) :
    segmentCalls P nodesInfo segment = [] ↔ ¬ GetsCalls P nodesInfo segment := by
  unfold segmentCalls
  split_ifs with hlarge
  · rw [loopCalls, sliceCalls_eq_nil_iff, ← Nat.le_zero, ← Nat.not_lt, filled_pos_iff, not_iff_not]
    exact ⟨fun h => ⟨hlarge, h.1, h.2⟩, fun h => ⟨h.pages, h.share⟩⟩
  · exact iff_of_true rfl fun h => hlarge h.large

/-- On an ascending table of at most as many nodes as a page has bytes, every segment of more than
a mebibyte below the top page gets a call. -/
theorem getsCalls_iff {table : WeightTable} (hcount : table.records.length ≤ P.bytes)
    (hsorted : table.Ascending) {segment : MemorySegment}
    (hle : segment.startAddress.toNat ≤ segment.endAddress.toNat)
    (htop : segment.endAddress.toNat + P.bytes ≤ 2 ^ 64) :
    GetsCalls P table.records segment ↔ segment.length > (1 : Word) <<< 20 := by
  constructor
  · exact GetsCalls.large
  · intro hlarge
    have hapart : segment.startAddress.toNat ≠ segment.endAddress.toNat := by
      intro hsame
      rw [MemorySegment.length, BitVec.eq_of_toNat_eq hsame, BitVec.sub_self] at hlarge
      exact absurd hlarge (by decide)
    have hpages := MemorySegment.pageAlignedLength_pos P (lt_of_le_of_ne hle hapart) htop
    -- the shares of the nodes add up to the whole range, so one of them is not zero
    have hfilled := WeightTable.filled_weighted_eq hcount (segment.dvd_pageAlignedLength P)
    rw [← WeightTable.wordDemand_idealShare hsorted (segment.dvd_pageAlignedLength P)] at hfilled
    have hshare := (filled_pos_iff _ _ _).mp (hpages.trans_eq hfilled.symm)
    exact ⟨hlarge, hpages, hshare.2⟩

/-- The map is placed by the calls of its segments, one after the other. -/
theorem placeAllWeightedInitial_eq (segments : List MemorySegment) :
    placeAllWeightedInitial P mbind nodesInfo segments =
      Placement.issueAll mbind (segments.flatMap (segmentCalls P nodesInfo)) := by
  induction segments with
  | nil => rfl
  | cons segment rest ih =>
    rw [placeAllWeightedInitial, List.flatMap_cons]
    split_ifs with hlong
    · rw [Placement.issueAll_append, ← ih, placeSegmentWeightedInitial_eq]
    · rw [segmentCalls_of_short P nodesInfo hlong, List.nil_append, ih]

end Loop

/-! ## The policies left in force -/

/-- The addresses of a call. -/
abbrev Covers (call : IssuedCall) (x : Word) : Prop := InRange call.start call.len x

/-- The policy a call asks for. -/
def IssuedCall.asks (call : IssuedCall) : PagePolicy := .requested call.policy call.nodes

/-- A placement that returns leaves its calls in force. -/
theorem Placement.issueAll_apply {mbind : MbindCall → Bool} {calls : List IssuedCall}
    (hok : (issueAll mbind calls).aborted = false) (policies : PolicyMap) :
    (issueAll mbind calls).apply policies = some (applyCalls calls policies) := by
  rw [apply, hok, issueAll_issued mbind calls hok]
  rfl

section Policies

variable {P : PageSize} {mbind : MbindCall → Bool} {nodesInfo : List Record}

/-- The pages a segment is placed on. -/
def MemorySegment.InPages (P : PageSize) (s : MemorySegment) (x : Word) : Prop :=
  InRange (s.pageAlignedStartAddress P) (s.pageAlignedLength P) x

/-- The calls for a segment stay on its pages. -/
theorem inPages_of_covers {segment : MemorySegment} {call : IssuedCall}
    (hcall : call ∈ segmentCalls P nodesInfo segment) {x : Word} (hx : Covers call x) :
    segment.InPages P x := by
  unfold segmentCalls at hcall
  split_ifs at hcall with hlarge
  · have hbelow := (inRange_sliceCalls_iff _ _ _ _ (segment.pageAlignedLength P).isLt
      nodesInfo.length x).mp ⟨call, hcall, hx⟩
    exact BitVec.lt_def.mpr (hbelow.trans_le (filled_le _ _ _))
  · exact absurd hcall List.not_mem_nil

/-- The calls for a segment do not overlap. -/
theorem disjoint_segmentCalls (segment : MemorySegment) :
    (segmentCalls P nodesInfo segment).Pairwise fun a b => ∀ x, ¬(Covers a x ∧ Covers b x) := by
  unfold segmentCalls
  split_ifs with hlarge
  · exact disjoint_sliceCalls _ _ _ _ (segment.pageAlignedLength P).isLt nodesInfo.length
  · exact List.Pairwise.nil

/-- No two large segments of the list share an address of their page ranges. -/
def PagesApart (P : PageSize) (segments : List MemorySegment) : Prop :=
  segments.Pairwise fun s t => s.length > (1 : Word) <<< 20 → t.length > (1 : Word) <<< 20 →
    ∀ x, ¬(s.InPages P x ∧ t.InPages P x)

/-- Nor then do their calls. -/
theorem disjoint_calls {segments : List MemorySegment} (hapart : PagesApart P segments) :
    (segments.flatMap (segmentCalls P nodesInfo)).Pairwise
      fun a b => ∀ x, ¬(Covers a x ∧ Covers b x) := by
  rw [List.pairwise_flatMap]
  refine ⟨fun segment _ => disjoint_segmentCalls segment, hapart.imp ?_⟩
  intro s t hst a ha b hb x hx
  have hlarge : ∀ {u : MemorySegment} {call : IssuedCall}, call ∈ segmentCalls P nodesInfo u →
      u.length > (1 : Word) <<< 20 := by
    intro u call hcall
    by_contra hsmall
    rw [segmentCalls, if_neg hsmall] at hcall
    exact List.not_mem_nil hcall
  exact hst (hlarge ha) (hlarge hb) x ⟨inPages_of_covers ha hx.1, inPages_of_covers hb hx.2⟩

/-- If all calls of a pass are accepted, the calls of the placement of a segment are among them, and
no other call of the pass changes what they ask for. -/
theorem applyCalls_pass_own {segments : List MemorySegment} (hapart : PagesApart P segments)
    (haccepted : ∀ call ∈ segments.flatMap (segmentCalls P nodesInfo),
      mbind call.toMbindCall = true)
    {s : MemorySegment} (hs : s ∈ segments) {call : IssuedCall}
    (hcall : call ∈ (placeSegmentWeightedInitial P mbind nodesInfo s).issued) {x : Word}
    (hx : InRange call.start call.len x) (before : PolicyMap) :
    applyCalls (segments.flatMap (segmentCalls P nodesInfo)) before x =
      .requested call.policy call.nodes := by
  have hpart : ∀ c ∈ segmentCalls P nodesInfo s, mbind c.toMbindCall = true :=
    fun c hc => haccepted c (List.mem_flatMap_of_mem hs hc)
  have hown : call ∈ segmentCalls P nodesInfo s := by
    rwa [placeSegmentWeightedInitial_eq,
      Placement.issueAll_issued mbind _ (Placement.issueAll_aborted mbind _ hpart)] at hcall
  exact overwrite_of_agree Covers IssuedCall.asks
    (agree_of_disjoint Covers IssuedCall.asks (disjoint_calls hapart))
    (List.mem_flatMap_of_mem hs hown) hx before

/-- Placing a map whose large segments lie on different pages leaves on every range the policy that
the placement of its segment asks for, and on every page of no segment the policy it had. The
order of the segments does not matter. -/
theorem placeAllWeightedInitial_policies {segments : List MemorySegment}
    (hapart : PagesApart P segments)
    (hok : (placeAllWeightedInitial P mbind nodesInfo segments).aborted = false)
    (before : PolicyMap) :
    ∃ after, (placeAllWeightedInitial P mbind nodesInfo segments).apply before = some after ∧
      (∀ s ∈ segments, ∀ call ∈ (placeSegmentWeightedInitial P mbind nodesInfo s).issued,
        ∀ x, InRange call.start call.len x → after x = .requested call.policy call.nodes) ∧
      (∀ x, (∀ s ∈ segments, ¬ s.InPages P x) → after x = before x) ∧
      ∀ other : List MemorySegment, other.Perm segments →
        (placeAllWeightedInitial P mbind nodesInfo other).apply before = some after := by
  have hdisjoint : (segments.flatMap (segmentCalls P nodesInfo)).Pairwise
      fun a b => ∀ x, ¬(Covers a x ∧ Covers b x) := disjoint_calls hapart
  have hagree := agree_of_disjoint Covers IssuedCall.asks hdisjoint
  rw [placeAllWeightedInitial_eq] at hok ⊢
  have haccepted := Placement.issueAll_accepted mbind _ hok
  refine ⟨_, Placement.issueAll_apply hok before, ?_, ?_, ?_⟩
  · intro s hs call hcall x hx
    exact applyCalls_pass_own hapart haccepted hs hcall hx before
  · intro x hx
    refine overwrite_of_not_covered Covers IssuedCall.asks (fun call hcall hcover => ?_) before
    obtain ⟨s, hs, hown⟩ := List.mem_flatMap.mp hcall
    exact hx s hs (inPages_of_covers hown hcover)
  · intro other hperm
    have hcalls := hperm.flatMap_right (segmentCalls P nodesInfo)
    have hok' := Placement.issueAll_aborted mbind _ fun call hcall =>
      haccepted call (hcalls.mem_iff.mp hcall)
    rw [placeAllWeightedInitial_eq, Placement.issueAll_apply hok']
    exact congrArg some (overwrite_perm Covers IssuedCall.asks hcalls.symm hagree before).symm

end Policies

/-- Two mappings of two mebibytes, one after a gap behind the other. -/
def twoMappings : List MemorySegment :=
  [extent 0x7f0000000000 0x200000 "mmap", extent 0x7f0000400000 0x200000 "mmap"]

/-- Their pages are different ones. -/
theorem twoMappings_apart : PagesApart .fourKiB twoMappings := by
  apply List.pairwise_pair.mpr
  intro _ _ x hx
  have hfirst := (inRange_iff_of_fit _ _ x (by decide)).mp hx.1
  have hlast := (inRange_iff_of_fit _ _ x (by decide)).mp hx.2
  have hstop : ((extent 0x7f0000000000 0x200000 "mmap").pageAlignedStartAddress .fourKiB).toNat +
      ((extent 0x7f0000000000 0x200000 "mmap").pageAlignedLength .fourKiB).toNat ≤
        ((extent 0x7f0000400000 0x200000 "mmap").pageAlignedStartAddress .fourKiB).toNat := by
    decide
  omega

/-- The kernel accepts all calls for them. -/
theorem placeAllWeightedInitial_policies_two_mappings :
    let place := placeAllWeightedInitial .fourKiB (fun _ => true)
      WeightTable.twoNodeTable.records
    let before : PolicyMap := fun _ => .other 0 ∅
    ∃ after, (place twoMappings).apply before = some after ∧
      (∀ s ∈ twoMappings, ∀ call ∈ (placeSegmentWeightedInitial .fourKiB (fun _ => true)
          WeightTable.twoNodeTable.records s).issued,
        ∀ x, InRange call.start call.len x → after x = .requested call.policy call.nodes) ∧
      (∀ x, (∀ s ∈ twoMappings, ¬ s.InPages .fourKiB x) → after x = before x) ∧
      ∀ other : List MemorySegment, other.Perm twoMappings →
        (place other).apply before = some after := by
  intro place before
  have hok : (place twoMappings).aborted = false := by
    simp only [place, placeAllWeightedInitial_eq]
    exact Placement.issueAll_aborted _ _ fun _ _ => rfl
  exact placeAllWeightedInitial_policies twoMappings_apart hok before

end Bwap
