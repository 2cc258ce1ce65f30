import Bwap.Memory.PageRange
import Bwap.Memory.Tracking
import Bwap.Mode.InitialPass

/-!
# Live blocks keep their placement

In the weighted adaptive mode every large block that libc puts outside the heap is placed when it
is inserted. Later insertions are placed as well, and libc maps and unmaps memory in between. No
page of a block that stays live loses its policy: a placement stays on the pages of its own block,
and blocks that are live together share no byte.
-/

namespace Bwap

open Common

/-- A run of the allocator together with the policies in force. -/
structure PlacedState where
  alloc : AllocState
  policies : PolicyMap

/-- The blocks live before and after a call. -/
def StaysLive (s s' : AllocState) (b : Block) : Prop := b ∈ s.live ∧ b ∈ s'.live

/-- The callbacks the mode got in a call. -/
def newNotices (s s' : AllocState) : List Notice := s'.map.notices.drop s.map.notices.length

section Step

variable (P : PageSize) (mbind : MbindCall → Bool) (nodesInfo : List Record)

/-- What the mode does with a callback: it places a segment that is added. -/
def Notice.place : Notice → PolicyMap → PolicyMap
  | .added segment, policies =>
    applyCalls (placeSegmentWeightedInitial P mbind nodesInfo segment).issued policies
  | .removed _, policies => policies

/-- A handler call in the weighted adaptive mode. Inside it libc may map and unmap anything but the
blocks that stay live, before the mode places what is inserted. -/
def PlacedStep (initial : List MemorySegment) (heapStart : Word) (s : PlacedState) (call : Call)
    (s' : PlacedState) : Prop :=
  AllocStep (weightedAdaptiveMode P mbind nodesInfo) initial heapStart s.alloc call s'.alloc ∧
    ∃ between : PolicyMap,
      (∀ b, StaysLive s.alloc s'.alloc b → ∀ x, b.segment.contains x = true →
        between x = s.policies x) ∧
      s'.policies = (newNotices s.alloc s'.alloc).foldl
        (fun policies notice => notice.place P mbind nodesInfo policies) between

/-- Every byte of the page of an address belongs to a block. -/
def WithinBlock (b : Block) (x : Word) : Prop :=
  ∀ a : Word, a.toNat / P.bytes = x.toNat / P.bytes → b.segment.contains a = true

/-- Every page within a live block outside the heap has the policy that the block's own placement
asks for. -/
def BlocksPlaced (s : PlacedState) : Prop :=
  ∀ b ∈ s.alloc.live, b.inHeap = false →
    ∀ call ∈ (placeSegmentWeightedInitial P mbind nodesInfo b.segment).issued,
      ∀ x, InRange call.start call.len x → WithinBlock P b x →
        s.policies x = .requested call.policy call.nodes

end Step

/-! ## The pages a placement touches -/

/-- The calls issued are the first ones of the list. -/
theorem Placement.issueAll_sublist (mbind : MbindCall → Bool) (calls : List IssuedCall) :
    (issueAll mbind calls).issued.Sublist calls := by
  induction calls with
  | nil => exact List.Sublist.refl _
  | cons call rest ih =>
    change (issue mbind call (issueAll mbind rest)).issued.Sublist (call :: rest)
    unfold issue
    split_ifs with hcall
    · exact ih.cons_cons call
    · exact (List.nil_sublist rest).cons_cons call

/-- The page range of a segment goes no further than the pages of its bytes, also where it reaches
the top of the address space. -/
theorem MemorySegment.InPages.mem_pages {P : PageSize} {s : MemorySegment} {x : Word}
    (hle : s.startAddress.toNat ≤ s.endAddress.toNat) (hx : s.InPages P x) :
    x.toNat / P.bytes ∈ s.pages P := by
  have hpos := P.bytes_pos
  rw [mem_pages_iff hle]
  by_cases htop : s.endAddress.toNat + P.bytes ≤ 2 ^ 64
  · obtain ⟨hlow, hhigh⟩ := (inRange_pages_iff hle htop x).mp hx
    refine ⟨(Nat.le_div_iff_mul_le hpos).mpr hlow, ?_⟩
    have hlast : x.toNat / P.bytes < (s.endAddress.toNat + (P.bytes - 1)) / P.bytes :=
      (Nat.div_lt_iff_lt_mul hpos).mpr hhigh
    have hnext : (s.endAddress.toNat + (P.bytes - 1)) / P.bytes ≤
        s.endAddress.toNat / P.bytes + 1 := by
      rw [← Nat.add_div_right _ hpos]
      exact Nat.div_le_div_right (by omega)
    omega
  · -- the last byte lies in the top page, where rounding up wraps to zero
    have hlt := s.endAddress.isLt
    have hsmall := P.bytes_lt
    have hwrapped :
        (s.endAddress + ~~~P.mask).toNat = s.endAddress.toNat + P.bytes - 1 - 2 ^ 64 := by
      rw [BitVec.toNat_add, P.not_mask_toNat]
      omega
    have hstop : (s.pageAlignedEndAddress P).toNat = 0 := by
      change (P.alignDown (s.endAddress + ~~~P.mask)).toNat = 0
      rw [P.alignDown_toNat, hwrapped, Nat.div_eq_of_lt (by omega), Nat.zero_mul]
    have hstart : (s.pageAlignedStartAddress P).toNat =
        s.startAddress.toNat / P.bytes * P.bytes := P.alignDown_toNat _
    have hbelow : s.startAddress.toNat / P.bytes * P.bytes ≤ x.toNat := by
      rw [← hstart]
      rw [InPages, InRange, pageAlignedLength, BitVec.lt_def, BitVec.toNat_sub, BitVec.toNat_sub,
        hstop] at hx
      have hstartlt := (s.pageAlignedStartAddress P).isLt
      have hxlt := x.isLt
      omega
    refine ⟨(Nat.le_div_iff_mul_le hpos).mpr hbelow, ?_⟩
    obtain ⟨pages, hpages⟩ := P.bytes_dvd
    have hx' : x.toNat / P.bytes < pages :=
      (Nat.div_lt_iff_lt_mul hpos).mpr (by rw [Nat.mul_comm, ← hpages]; exact x.isLt)
    have hend : pages - 1 ≤ s.endAddress.toNat / P.bytes := by
      rw [Nat.le_div_iff_mul_le hpos, Nat.sub_mul, Nat.mul_comm, ← hpages]
      omega
    omega

section Frame

variable {P : PageSize} {mbind : MbindCall → Bool} {nodesInfo : List Record}

/-- A call issued for a segment touches only pages with a byte of it. -/
theorem exists_byte_of_issued {segment : MemorySegment} {call : IssuedCall}
    (hle : segment.startAddress.toNat ≤ segment.endAddress.toNat)
    (hcall : call ∈ (placeSegmentWeightedInitial P mbind nodesInfo segment).issued) {x : Word}
    (hx : InRange call.start call.len x) :
    ∃ a, segment.contains a = true ∧ a.toNat / P.bytes = x.toNat / P.bytes := by
  rw [placeSegmentWeightedInitial_eq] at hcall
  have hown := (Placement.issueAll_sublist mbind _).subset hcall
  exact (inPages_of_covers hown hx).mem_pages hle

/-- The calls issued for a segment do not overlap. -/
theorem disjoint_issued (segment : MemorySegment) :
    (placeSegmentWeightedInitial P mbind nodesInfo segment).issued.Pairwise
      fun a b => ∀ x, ¬(Covers a x ∧ Covers b x) := by
  rw [placeSegmentWeightedInitial_eq]
  exact (disjoint_segmentCalls segment).sublist (Placement.issueAll_sublist mbind _)

/-- Placing a block leaves the pages within another one alone. -/
theorem place_within_apart {b c : Block} (hapart : Apart c.segment b.segment) {x : Word}
    (hwithin : WithinBlock P b x) (policies : PolicyMap) :
    applyCalls (placeSegmentWeightedInitial P mbind nodesInfo c.segment).issued policies x =
      policies x := by
  refine overwrite_of_not_covered Covers IssuedCall.asks (fun call hcall hcover => ?_) policies
  obtain ⟨a, ha, hpage⟩ := exists_byte_of_issued c.start_le_end hcall hcover
  have hshared := hapart a ha
  rw [hwithin a hpage] at hshared
  exact absurd hshared (by simp)

/-- Placing a block leaves its own calls in force. -/
theorem place_own {segment : MemorySegment} {call : IssuedCall}
    (hcall : call ∈ (placeSegmentWeightedInitial P mbind nodesInfo segment).issued) {x : Word}
    (hx : InRange call.start call.len x) (policies : PolicyMap) :
    applyCalls (placeSegmentWeightedInitial P mbind nodesInfo segment).issued policies x =
      .requested call.policy call.nodes :=
  overwrite_of_agree Covers IssuedCall.asks
    (agree_of_disjoint Covers IssuedCall.asks (disjoint_issued segment)) hcall hx policies

/-- Placing what is announced places what is added. -/
theorem foldl_place (gone : List MemorySegment) (added : Option MemorySegment)
    (policies : PolicyMap) :
    (gone.map Notice.removed ++ added.toList.map Notice.added).foldl
        (fun policies notice => notice.place P mbind nodesInfo policies) policies =
      match added with
      | none => policies
      | some segment =>
        applyCalls (placeSegmentWeightedInitial P mbind nodesInfo segment).issued policies := by
  induction gone with
  | nil => cases added <;> rfl
  | cons segment gone ih => exact ih

end Frame

/-! ## Runs -/

/-- A call leaves blocks that were live before and at most one new one, which shares no byte with
them; it owes the mode the removal of some segments and the insertion of the new block's. -/
theorem LibcStep.exists_new {initial : List MemorySegment} {heapStart : Word}
    {live live' : List Block} {call : Call} {owed : List Notice}
    (hstep : LibcStep initial heapStart live call live' owed) :
    ∃ (gone : List MemorySegment) (new : Option Block),
      owed = gone.map .removed ++ (new.bind Block.tracked).toList.map .added ∧
      ∀ c ∈ live', some c = new ∨ c ∈ live ∧ ∀ b ∈ new, Apart b.segment c.segment := by
  have hall {b : Block} {rest : List Block} (hunused : Unused initial rest b)
      (hrest : ∀ c ∈ rest, c ∈ live) : ∀ c ∈ b :: rest, some c = some b ∨
        c ∈ live ∧ ∀ b' ∈ some b, Apart b'.segment c.segment := by
    intro c hc
    rcases List.mem_cons.mp hc with rfl | hmem
    · exact .inl rfl
    · refine .inr ⟨hrest c hmem, fun b' hb' => ?_⟩
      obtain rfl := Option.some.inj hb'
      exact hunused.1 c hmem
  cases hstep with
  | malloc b brk hunused _ _ => exact ⟨[], some b, rfl, hall hunused fun _ => id⟩
  | calloc b nmemb size brk hunused _ _ _ => exact ⟨[], some b, rfl, hall hunused fun _ => id⟩
  | posixMemalign b brk hunused _ _ => exact ⟨[], some b, rfl, hall hunused fun _ => id⟩
  | realloc old b brk hlive hunused _ _ _ =>
    exact ⟨old.tracked.toList, some b, rfl,
      hall hunused fun c hc => hlive.mem_iff.mpr (List.mem_cons_of_mem _ hc)⟩
  | reallocNull b brk hunused _ _ => exact ⟨[], some b, rfl, hall hunused fun _ => id⟩
  | free old brk hlive _ =>
    refine ⟨old.tracked.toList, none, by simp, fun c hc => .inr ⟨?_, by simp⟩⟩
    exact hlive.mem_iff.mpr (List.mem_cons_of_mem _ hc)
  | freeNull brk _ => exact ⟨[], none, rfl, fun c hc => .inr ⟨hc, by simp⟩⟩

section Run

variable {P : PageSize} {mbind : MbindCall → Bool} {nodesInfo : List Record}
  {m₀ : MemoryMap} {heap : MemorySegment} {s s' : PlacedState} {call : Call}

/-- The mode gets exactly the callbacks that a call owes it. -/
theorem newNotices_eq {owed : List Notice} {before after : AllocState}
    (h : Tracked m₀ heap before) (h' : Tracked m₀ heap after)
    (howed : after.announced = before.announced ++ owed) : newNotices before after = owed := by
  obtain ⟨_, htracks⟩ := h
  obtain ⟨_, htracks'⟩ := h'
  rw [newNotices, htracks'.notices, htracks.notices, howed, ← List.append_assoc]
  exact List.drop_left

/-- A call keeps every live block placed. -/
theorem PlacedStep.blocksPlaced
    (hstep : PlacedStep P mbind nodesInfo m₀.others heap.startAddress s call s')
    (htracked : Tracked m₀ heap s.alloc) (htracked' : Tracked m₀ heap s'.alloc)
    (h : BlocksPlaced P mbind nodesInfo s) : BlocksPlaced P mbind nodesInfo s' := by
  obtain ⟨⟨owed, hlibc, -, hannounced⟩, between, hkept, hpolicies⟩ := hstep
  obtain ⟨gone, new, howed, hlive⟩ := hlibc.exists_new
  rw [newNotices_eq htracked htracked' hannounced, howed, foldl_place] at hpolicies
  intro c hc hside issued hissued x hx hwithin
  rw [hpolicies]
  have hself : c.segment.contains x = true := hwithin x rfl
  rcases hlive c hc with hnew | ⟨hbefore, hapart⟩
  · -- the block is the new one, and its placement comes last
    have hadded : new.bind Block.tracked = some c.segment := by
      rw [← hnew, Option.bind_some, Block.tracked, hside]
      rfl
    rw [hadded]
    exact place_own hissued hx between
  · have hsame : between x = .requested issued.policy issued.nodes := by
      rw [hkept c ⟨hbefore, hc⟩ x hself]
      exact h c hbefore hside issued hissued x hx hwithin
    cases hadded : new.bind Block.tracked with
    | none => exact hsame
    | some segment =>
      obtain ⟨b, hb, htrack⟩ := Option.bind_eq_some_iff.mp hadded
      obtain rfl := Block.eq_segment_of_tracked htrack
      exact (place_within_apart (hapart b hb) hwithin between).trans hsame

/-- In every run in the weighted adaptive mode, every page within a live block outside the heap
keeps the policy of the block's own placement, provided the null pointer is released only where no
scan can find it. -/
theorem live_blocks_stay_placed (P : PageSize) (mbind : MbindCall → Bool) (nodesInfo : List Record)
    (policies : PolicyMap) (trace : List (Call × PlacedState))
    (hheap : m₀.heapSegment? = some heap)
    (hrun : Run (PlacedStep P mbind nodesInfo m₀.others heap.startAddress) ⟨⟨[], m₀, []⟩, policies⟩
      trace)
    (hnull : Guarded (fun _ call => call.releasesNull = true → NullUntracked m₀ heap)
      ⟨⟨[], m₀, []⟩, policies⟩ trace) :
    Throughout (BlocksPlaced P mbind nodesInfo) trace := by
  have hstart : Tracked m₀ heap (⟨⟨[], m₀, []⟩, policies⟩ : PlacedState).alloc ∧
      BlocksPlaced P mbind nodesInfo ⟨⟨[], m₀, []⟩, policies⟩ :=
    ⟨⟨heap.endAddress, Tracks.start hheap⟩, fun b hb => absurd hb List.not_mem_nil⟩
  have hkeep : ∀ (s : PlacedState) (call : Call) (s' : PlacedState),
      Tracked m₀ heap s.alloc ∧ BlocksPlaced P mbind nodesInfo s →
      PlacedStep P mbind nodesInfo m₀.others heap.startAddress s call s' →
      (call.releasesNull = true → NullUntracked m₀ heap) →
      Tracked m₀ heap s'.alloc ∧ BlocksPlaced P mbind nodesInfo s' := by
    intro s call s' h hstep hguard
    have htracked' := hstep.1.tracked h.1 hguard
    exact ⟨htracked', hstep.blocksPlaced h.1 htracked' h.2⟩
  exact (hrun.invariant_of_guarded hkeep hstart hnull).imp fun s h => h.2

end Run

/-- Two blocks of two mebibytes, in the pages behind their headers. -/
def firstLargeBlock : Block :=
  ⟨0x7f1000000010, 0x200000, "malloc", false, by decide, by decide, by decide⟩

def secondLargeBlock : Block :=
  ⟨0x7f1000400010, 0x200000, "malloc", false, by decide, by decide, by decide⟩

/-- The mode accepts a segment when the kernel accepts every call. -/
theorem weightedAdaptiveMode_accepts (P : PageSize) (nodesInfo : List Record)
    (segment : MemorySegment) :
    (weightedAdaptiveMode P (fun _ => true) nodesInfo).processSegmentAddition segment = none := by
  have hok : (placeSegmentWeightedInitial P (fun _ => true) nodesInfo segment).aborted = false := by
    rw [placeSegmentWeightedInitial_eq]
    exact Placement.issueAll_aborted _ _ fun _ _ => rfl
  simp [weightedAdaptiveMode, hok]

/-- The first block is live while the second one is allocated and placed. -/
theorem live_blocks_stay_placed_two_blocks :
    let place := fun (b : Block) => applyCalls (placeSegmentWeightedInitial .fourKiB (fun _ => true)
      WeightTable.twoNodeTable.records b.segment).issued
    let one := smallProcess.applyEdit ⟨some 0x1021000, none, some firstLargeBlock.segment⟩
    let two := one.applyEdit ⟨some 0x1021000, none, some secondLargeBlock.segment⟩
    let policies : PolicyMap := fun _ => .other 0 ∅
    Throughout (BlocksPlaced .fourKiB (fun _ => true) WeightTable.twoNodeTable.records)
      [(Call.malloc 0x200000 0x7f1000000010 0x1021000,
          ⟨⟨[firstLargeBlock], one, [.added firstLargeBlock.segment]⟩,
            place firstLargeBlock policies⟩),
        (Call.malloc 0x200000 0x7f1000400010 0x1021000,
          ⟨⟨[secondLargeBlock, firstLargeBlock], two,
            [.added firstLargeBlock.segment, .added secondLargeBlock.segment]⟩,
            place secondLargeBlock (place firstLargeBlock policies)⟩)] := by
  intro place one two policies
  have hone : Unused smallProcess.others [] firstLargeBlock :=
    .of_ordered (by decide) (by decide)
  have htwo : Unused smallProcess.others [firstLargeBlock] secondLargeBlock :=
    .of_ordered (by decide) (by decide)
  have haccepts := weightedAdaptiveMode_accepts .fourKiB WeightTable.twoNodeTable.records
  let mode := weightedAdaptiveMode .fourKiB (fun _ => true) WeightTable.twoNodeTable.records
  have hexec (m : MemoryMap) (brk : Word) (b : Block) (hheap : m.heapSegment? =
      some (heapUpTo smallHeap brk)) (hside : b.inHeap = false) (horigin : b.origin = "malloc")
      (hplaced : b.Placed smallHeap.startAddress 0x1021000) :
      m.exec mode (.malloc b.size b.start 0x1021000) = .ok (.pointer b.start,
        m.applyEdit ⟨some 0x1021000, none, some b.segment⟩) := by
    have hedit : (Call.malloc b.size b.start 0x1021000).edit (heapUpTo smallHeap brk) =
        ⟨some 0x1021000, none, some b.segment⟩ := by
      have htracked := hplaced.outsideHeap_eq
      rw [Block.segment, horigin] at htracked
      rw [Call.edit, Block.segment, horigin]
      change Edit.mk (some 0x1021000) none (outsideHeap (heapUpTo smallHeap 0x1021000) _) = _
      rw [htracked, Block.tracked, hside, Block.segment, horigin]
      rfl
    refine (MemoryMap.exec_eq_ok_iff _ hheap _ _ _).mpr ⟨rfl, by rw [hedit], ?_⟩
    rw [hedit]
    exact haccepts b.segment
  have hstep {b : Block} {s s' : AllocState} {call : Call} (before : PolicyMap)
      (halloc : AllocStep mode smallProcess.others smallHeap.startAddress s call s')
      (hnew : newNotices s s' = [.added b.segment]) :
      PlacedStep .fourKiB (fun _ => true) WeightTable.twoNodeTable.records smallProcess.others
        smallHeap.startAddress ⟨s, before⟩ call ⟨s', place b before⟩ := by
    refine ⟨halloc, before, fun _ _ _ _ => rfl, ?_⟩
    rw [hnew]
    rfl
  have hnew₁ : newNotices ⟨[], smallProcess, []⟩ ⟨[firstLargeBlock], one,
      [.added firstLargeBlock.segment]⟩ = [.added firstLargeBlock.segment] := by
    simp [newNotices, one, MemoryMap.notices_applyEdit]
  have hnew₂ : newNotices ⟨[firstLargeBlock], one, [.added firstLargeBlock.segment]⟩
      ⟨[secondLargeBlock, firstLargeBlock], two, [.added firstLargeBlock.segment,
        .added secondLargeBlock.segment]⟩ = [.added secondLargeBlock.segment] := by
    simp [newNotices, two, MemoryMap.notices_applyEdit]
  have hfirst : AllocStep mode smallProcess.others smallHeap.startAddress ⟨[], smallProcess, []⟩
      (.malloc 0x200000 0x7f1000000010 0x1021000)
      ⟨[firstLargeBlock], one, [.added firstLargeBlock.segment]⟩ :=
    ⟨_, .malloc firstLargeBlock 0x1021000 hone (by decide) rfl,
      hexec smallProcess _ firstLargeBlock rfl rfl rfl (by decide), rfl⟩
  have hsecond : AllocStep mode smallProcess.others smallHeap.startAddress
      ⟨[firstLargeBlock], one, [.added firstLargeBlock.segment]⟩
      (.malloc 0x200000 0x7f1000400010 0x1021000)
      ⟨[secondLargeBlock, firstLargeBlock], two, [.added firstLargeBlock.segment,
        .added secondLargeBlock.segment]⟩ :=
    ⟨_, .malloc secondLargeBlock 0x1021000 htwo (by decide) rfl,
      hexec one 0x1021000 secondLargeBlock rfl rfl rfl (by decide), rfl⟩
  have hheap : smallProcess.heapSegment? = some smallHeap := rfl
  apply live_blocks_stay_placed _ _ _ policies _ hheap
  · exact .cons (hstep policies hfirst hnew₁) (.cons (hstep _ hsecond hnew₂) (.nil _))
  · simp [Guarded, Call.releasesNull]

end Bwap
