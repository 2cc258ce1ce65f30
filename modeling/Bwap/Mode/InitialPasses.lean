import Bwap.Mode.HandOver

/-!
# What the passes leave when the adaptive thread takes over

However `memInitThread`, `start` and `adaptiveThread` interleave and however many passes are made,
between two passes and after the last one the policies in force are those of a single pass. The
published vector lists the large segments once each, in their order.
-/

namespace Bwap

open Common

namespace HandOver

variable (P : PageSize) (mbind : MbindCall → Bool) (nodesInfo : List Record)
  (segments : List MemorySegment)

/-- The policies in force after the calls made. -/
def policiesInForce (before : PolicyMap) (s : HandOverState) : PolicyMap :=
  applyCalls s.calls before

/-- The page ranges that `adaptiveThread` exports for a list of segments. -/
def exportedRanges (segments : List MemorySegment) : List (Word × Word) :=
  (segments.filter fun segment => IsExported segment).map fun segment =>
    (segment.pageAlignedStartAddress P, segment.pageAlignedLength P)

/-- `memInitThread` has dealt with the first segments of its pass. -/
def PassAt (past : List MemorySegment) : MemInitPosition → Prop
  | .testing => past = []
  | .finished => past = []
  | .atSegment left => past ++ left = segments
  | .pastSegment left => past ++ left = segments

/-- Unless the process died, the calls made are those of a number of whole passes and of the
segments dealt with since, and the kernel accepted all of them. -/
def PassesMade (n : ℕ) (s : HandOverState) : Prop :=
  s.died = false → ∃ past, PassAt segments past s.memInitThread ∧
    s.calls = ((List.replicate n segments).flatten ++ past).flatMap (segmentCalls P nodesInfo) ∧
    ∀ call ∈ s.calls, mbind call.toMbindCall = true

/-- Whether a step ends a pass. -/
def endsPass (label : HandOverLabel) : Bool := label = .sleep

/-- `adaptiveThread` is started last by `start`, and it has exported the segments before those left
to it. -/
structure ExportedSoFar (s : HandOverState) : Prop where
  notStarted : s.start ≠ .returned → s.adaptiveThread = .notStarted
  shared : match s.adaptiveThread with
    | .notStarted => s.shared = []
    | .exporting left => s.shared ++ exportedRanges P left = exportedRanges P segments
    | .published => s.shared = exportedRanges P segments

/-- The calls of a number of passes. -/
theorem flatMap_flatten_replicate (f : MemorySegment → List IssuedCall) (n : ℕ) :
    (List.replicate n segments).flatten.flatMap f =
      (List.replicate n (segments.flatMap f)).flatten := by
  induction n with
  | zero => rfl
  | succ n ih =>
    rw [List.replicate_succ, List.flatten_cons, List.flatMap_append, ih, List.replicate_succ,
      List.flatten_cons]

section Steps

variable {P mbind nodesInfo segments} {s s' : HandOverState} {label : HandOverLabel} {n : ℕ}

/-- Placing a segment adds its calls, unless the process dies. -/
theorem PassesMade.place {segment : MemorySegment} {left : List MemorySegment}
    (h : PassesMade P mbind nodesInfo segments n s) (halive : s.died = false)
    (hat : s.memInitThread = .atSegment (segment :: left)) :
    PassesMade P mbind nodesInfo segments n (place P mbind nodesInfo segment left s) := by
  obtain ⟨past, hpast, hcalls, haccepted⟩ := h halive
  rw [hat] at hpast
  have hnext : PassAt segments (past ++ [segment]) (.pastSegment left) := by
    simpa [PassAt] using hpast
  intro halive'
  unfold HandOver.place at halive' ⊢
  split_ifs at halive' ⊢ with hlong
  · have hissued := Placement.issueAll_issued mbind (segmentCalls P nodesInfo segment)
    have hok := Placement.issueAll_accepted mbind (segmentCalls P nodesInfo segment)
    rw [← placeSegmentWeightedInitial_eq] at hissued hok
    dsimp only at halive' ⊢
    rw [hissued halive', hcalls]
    refine ⟨past ++ [segment], hnext, by simp, ?_⟩
    rw [← hcalls]
    exact List.forall_mem_append.mpr ⟨haccepted, hok halive'⟩
  · refine ⟨past ++ [segment], hnext, ?_, haccepted⟩
    change s.calls = _
    rw [hcalls]
    simp [segmentCalls_of_short P nodesInfo hlong]

/-- Every step keeps the count of the passes. -/
theorem Step.passesMade (hstep : Step P mbind nodesInfo segments s label s')
    (h : PassesMade P mbind nodesInfo segments n s) :
    PassesMade P mbind nodesInfo segments (n + if endsPass label then 1 else 0) s' := by
  cases hstep with
  | enterPass halive hat _ =>
    intro _
    obtain ⟨past, hpast, hmade⟩ := h halive
    rw [hat] at hpast
    obtain rfl : past = [] := hpast
    exact ⟨[], rfl, hmade⟩
  | leaveLoop halive hat _ =>
    intro _
    obtain ⟨past, hpast, hmade⟩ := h halive
    rw [hat] at hpast
    exact ⟨past, hpast, hmade⟩
  | placeSegment halive hat => exact h.place halive hat
  | advance halive hat =>
    intro _
    obtain ⟨past, hpast, hmade⟩ := h halive
    rw [hat] at hpast
    exact ⟨past, hpast, hmade⟩
  | sleep halive hat =>
    intro _
    obtain ⟨past, hpast, hcalls, haccepted⟩ := h halive
    rw [hat] at hpast
    obtain rfl : past = segments := by simpa [PassAt] using hpast
    refine ⟨[], rfl, ?_, haccepted⟩
    change s.calls = _
    rw [hcalls]
    simp [endsPass, List.replicate_succ']
  | setMemInit _ _ => exact h
  | startThread _ _ => exact h
  | @exportSegment segment left _ _ =>
    obtain ⟨_, hexport⟩ := exists_exportOne_eq segment left s
    rw [hexport]
    exact h
  | publish _ _ => exact h

/-- Every step keeps what has been exported. -/
theorem Step.exportedSoFar (hstep : Step P mbind nodesInfo segments s label s')
    (h : ExportedSoFar P segments s) : ExportedSoFar P segments s' := by
  obtain ⟨hbefore, hshared⟩ := h
  cases hstep with
  | enterPass _ _ _ => exact ⟨hbefore, hshared⟩
  | leaveLoop _ _ _ => exact ⟨hbefore, hshared⟩
  | @placeSegment segment left _ _ =>
    rw [HandOver.place]
    by_cases hlong : IsPlaced segment
    · rw [if_pos hlong]
      exact ⟨hbefore, hshared⟩
    · rw [if_neg hlong]
      exact ⟨hbefore, hshared⟩
  | advance _ _ => exact ⟨hbefore, hshared⟩
  | sleep _ _ => exact ⟨hbefore, hshared⟩
  | setMemInit _ hat => exact ⟨fun _ => hbefore (by simp [hat]), hshared⟩
  | startThread _ hat =>
    rw [hbefore (by simp [hat])] at hshared
    have hnone : s.shared = [] := hshared
    exact ⟨fun hreturned => absurd rfl hreturned, by simp [hnone]⟩
  | @exportSegment segment left _ hat =>
    have hreturned : s.start = .returned := by
      by_contra hstart
      simp [hbefore hstart] at hat
    rw [hat] at hshared
    change s.shared ++ exportedRanges P (segment :: left) = _ at hshared
    rw [exportOne]
    by_cases hlarge : IsExported segment
    · have hcons : exportedRanges P (segment :: left) =
          (segment.pageAlignedStartAddress P, segment.pageAlignedLength P) ::
            exportedRanges P left := by
        simp [exportedRanges, hlarge]
      rw [hcons] at hshared
      rw [if_pos hlarge]
      exact ⟨fun hstart => absurd hreturned hstart, by simpa using hshared⟩
    · have hcons : exportedRanges P (segment :: left) = exportedRanges P left := by
        simp [exportedRanges, hlarge]
      rw [hcons] at hshared
      rw [if_neg hlarge]
      exact ⟨fun hstart => absurd hreturned hstart, hshared⟩
  | publish _ hat =>
    have hreturned : s.start = .returned := by
      by_contra hstart
      simp [hbefore hstart] at hat
    rw [hat] at hshared
    refine ⟨fun hstart => absurd hreturned hstart, ?_⟩
    simpa [exportedRanges] using hshared

/-- In every interleaving, unless the process dies: between two passes and after the last one the
policies in force are those that a single pass leaves, or those of the start if no pass is
complete; and once the ranges are published, they are those of the large segments, in order. -/
theorem handOver_policies (trace : List (HandOverLabel × HandOverState))
    (hrun : Run (Step P mbind nodesInfo segments) initial trace)
    (halive : (final initial trace).died = false) (before : PolicyMap) :
    let s := final initial trace
    (s.memInitThread = .testing ∨ s.memInitThread = .finished →
      if .sleep ∈ trace.map Prod.fst then
        (placeAllWeightedInitial P mbind nodesInfo segments).apply before =
          some (policiesInForce before s)
      else policiesInForce before s = before) ∧
    (s.adaptiveThread = .published → s.shared = exportedRanges P segments) := by
  intro s
  apply And.intro
  · intro hbetween
    have hinitial : PassesMade P mbind nodesInfo segments 0 initial := fun _ =>
      ⟨[], rfl, rfl, by simp [initial]⟩
    have hmade : PassesMade P mbind nodesInfo segments
        (0 + (trace.map Prod.fst).countP endsPass) s :=
      @Run.final_counted _ _ _ (PassesMade P mbind nodesInfo segments) _ _ _ _
        (fun _ _ _ _ h hstep => hstep.passesMade h) hrun hinitial
    rw [Nat.zero_add] at hmade
    obtain ⟨past, hpast, hcalls, haccepted⟩ := hmade halive
    have hnone : past = [] := by
      rcases hbetween with hat | hat
      · simpa [hat, PassAt] using hpast
      · simpa [hat, PassAt] using hpast
    rw [hnone, List.append_nil] at hcalls
    split_ifs with hslept
    · -- the last of the passes overwrites what those before it left
      have hpos : 0 < (trace.map Prod.fst).countP endsPass :=
        List.countP_pos_iff.mpr ⟨_, hslept, rfl⟩
      obtain ⟨n, hn⟩ := Nat.exists_eq_succ_of_ne_zero hpos.ne'
      rw [hn] at hcalls
      have honce : ∀ call ∈ segments.flatMap (segmentCalls P nodesInfo),
          mbind call.toMbindCall = true := by
        intro call hcall
        apply haccepted
        rw [hcalls, List.replicate_succ, List.flatten_cons, List.flatMap_append]
        exact List.mem_append_left _ hcall
      rw [placeAllWeightedInitial_eq, Placement.issueAll_apply
        (Placement.issueAll_aborted mbind _ honce), policiesInForce, hcalls]
      rw [flatMap_flatten_replicate]
      exact congrArg some (overwrite_replicate Covers IssuedCall.asks _ n before).symm
    · have hzero : (trace.map Prod.fst).countP endsPass = 0 := by
        rw [List.countP_eq_zero]
        intro label hlabel hends
        obtain rfl : label = .sleep := by simpa [endsPass] using hends
        exact hslept hlabel
      rw [policiesInForce, hcalls, hzero]
      rfl
  · intro hpublished
    have hexported : ExportedSoFar P segments s := hrun.final_invariant
      (fun _ _ _ h hstep => hstep.exportedSoFar h) ⟨fun _ => rfl, rfl⟩
    have hshared := hexported.shared
    rwa [hpublished] at hshared

end Steps

/-- A pass over the large mapping is complete, and `start` has published it. -/
theorem handOver_policies_large_mapping :
    let placed : HandOverState := { initial with
      memInitThread := .testing
      calls := (placeSegmentWeightedInitial .fourKiB (fun _ => true)
        WeightTable.twoNodeTable.records largeMapping).issued }
    let published : HandOverState := { placed with
      memInit := 1, start := .returned, adaptiveThread := .published
      shared := [(0x7f0000000000, 0x200000)] }
    let before : PolicyMap := fun _ => .other 0 ∅
    (placeAllWeightedInitial .fourKiB (fun _ => true) WeightTable.twoNodeTable.records
        [largeMapping]).apply before = some (policiesInForce before published) ∧
      published.shared = exportedRanges .fourKiB [largeMapping] := by
  generalize hissued : (placeSegmentWeightedInitial .fourKiB (fun _ => true)
    WeightTable.twoNodeTable.records largeMapping).issued = issued
  intro placed published before
  have halive : (placeSegmentWeightedInitial .fourKiB (fun _ => true)
      WeightTable.twoNodeTable.records largeMapping).aborted = false := by
    rw [placeSegmentWeightedInitial_eq]
    exact Placement.issueAll_aborted _ _ fun _ _ => rfl
  have hplace : place .fourKiB (fun _ => true) WeightTable.twoNodeTable.records largeMapping []
      { initial with memInitThread := .atSegment [largeMapping] } =
        { placed with memInitThread := .pastSegment [] } := by
    have hlong : IsPlaced largeMapping := by decide
    simp only [place, if_pos hlong, halive, hissued, initial, List.nil_append, placed]
  have hexport : exportOne .fourKiB largeMapping []
      { placed with
        memInit := 1, start := .returned, adaptiveThread := .exporting [largeMapping] } =
        { published with adaptiveThread := .exporting [] } := by
    rw [exportOne, if_pos (by decide)]
    rfl
  have hplaced : SingleStep largeMapping { initial with memInitThread := .atSegment [largeMapping] }
      .placeSegment { placed with memInitThread := .pastSegment [] } :=
    hplace ▸ .placeSegment rfl rfl
  have hexported : SingleStep largeMapping { placed with
      memInit := 1, start := .returned, adaptiveThread := .exporting [largeMapping] }
      .exportSegment { published with adaptiveThread := .exporting [] } :=
    hexport ▸ .exportSegment rfl rfl
  have hrun : Run (SingleStep largeMapping) initial
      [(.testMemInit, { initial with memInitThread := .atSegment [largeMapping] }),
        (.placeSegment, { placed with memInitThread := .pastSegment [] }),
        (.advance, { placed with memInitThread := .atSegment [] }), (.sleep, placed),
        (.setMemInit, { placed with memInit := 1, start := .startingThread }),
        (.startThread, { placed with
          memInit := 1, start := .returned, adaptiveThread := .exporting [largeMapping] }),
        (.exportSegment, { published with adaptiveThread := .exporting [] }),
        (.publish, published)] :=
    .cons (.enterPass rfl rfl rfl) <| .cons hplaced <| .cons (.advance rfl rfl) <|
      .cons (.sleep rfl rfl) <| .cons (.setMemInit rfl rfl) <| .cons (.startThread rfl rfl) <|
        .cons hexported <| .cons (.publish rfl rfl) <| .nil _
  obtain ⟨hpolicies, hshared⟩ := handOver_policies _ hrun rfl before
  have hslept := hpolicies (.inl rfl)
  rw [if_pos (by simp)] at hslept
  exact ⟨hslept, hshared rfl⟩

end HandOver

end Bwap
