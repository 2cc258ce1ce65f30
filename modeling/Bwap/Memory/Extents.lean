import Bwap.Memory.Failure
import Bwap.Memory.HeapEnd

/-!
# The extents of inserted segments

The last address of an inserted segment is computed from the size without a test for zero. The
segment of an empty block at an address other than null contains nothing, so that no scan
ever finds it; the one of an empty block at the null pointer contains every address. Other
segments are exact, and are gone after the block is freed unless the heap has come to contain
the block in between.
-/

namespace Bwap

open Common

/-- A segment contains exactly the given number of bytes from an address. -/
def ExactExtent (p : Word) (bytes : ℕ) (s : MemorySegment) : Prop :=
  ∀ a, s.contains a = true ↔ p.toNat ≤ a.toNat ∧ a.toNat < p.toNat + bytes

section Extent

variable {p size : Word} (name : String)

/-- The extent of an empty block contains nothing, unless it is at the null pointer. -/
theorem extent_zero_contains (hp : p ≠ 0) (a : Word) : (extent p 0 name).contains a = false := by
  have hpos : 0 < p.toNat := BitVec.toNat_pos_of_ne_zero hp
  have hzero : (0 : Word).toNat = 0 := rfl
  have hlt := p.isLt
  have hlast := @extent_endAddress_toNat p 0 name (by omega) (by omega)
  rw [MemorySegment.contains_eq_false_iff, hlast]
  change a.toNat < p.toNat ∨ _
  omega

/-- The extent of an empty block at the null pointer contains every address. -/
theorem extent_null_contains (a : Word) : (extent 0 0 name).contains a = true := by
  have hlast : (0 + 0 - 1 : Word).toNat = 2 ^ 64 - 1 := by decide
  have hzero : (0 : Word).toNat = 0 := rfl
  have hlt := a.isLt
  rw [MemorySegment.contains_iff]
  simp only [extent, hlast, hzero]
  omega

/-- The extent of a block is exact, if it is not an empty block at the null pointer. -/
theorem exactExtent_iff (hfit : p.toNat + size.toNat ≤ 2 ^ 64) :
    ExactExtent p size.toNat (extent p size name) ↔ size ≠ 0 ∨ p ≠ 0 := by
  apply Iff.intro
  · intro h
    by_contra hnull
    push Not at hnull
    obtain ⟨rfl, rfl⟩ := hnull
    have hall := (h 0).mp (extent_null_contains name 0)
    simp at hall
  · intro h a
    by_cases hsize : size = 0
    · have hp := h.resolve_left (not_not.mpr hsize)
      have hzero : (0 : Word).toNat = 0 := rfl
      subst hsize
      rw [extent_zero_contains name hp a, hzero]
      simp
    · exact extent_contains_iff name (BitVec.toNat_pos_of_ne_zero hsize) hfit a

end Extent

/-! ## The life of a node -/

variable {mode : Mode} {m : MemoryMap} {heap : MemorySegment}

/-- Every step performs an edit. -/
theorem HandlerStep.exists_edit {call : Call} {m' : MemoryMap}
    (hstep : HandlerStep mode m call m') : ∃ e, m' = m.applyEdit e := by
  cases hheap : m.heapSegment? with
  | some heap =>
    obtain ⟨-, hedit, -⟩ := (MemoryMap.exec_eq_ok_iff mode hheap call _ _).mp hstep
    exact ⟨_, hedit⟩
  | none =>
    cases call with
    | mmap length result =>
      exact ⟨⟨none, none, some (extent result length "mmap")⟩, (MemoryMap.exec_mmap_eq_ok hstep).2⟩
    | munmap addr length result =>
      exact ⟨⟨none, some addr, none⟩, MemoryMap.exec_munmap_eq_ok hstep⟩
    | _ => exact absurd (hstep.symm.trans (MemoryMap.exec_eq_dangling mode hheap rfl)) (by simp)

/-- An edit leaves the segment of an older node other than the heap alone, unless it removes it. -/
theorem MemoryMap.get?_applyEdit_iff {node : ℕ} (hne : node ≠ m.heap)
    (hold : node < m.segments.fresh) (e : Edit) (s : MemorySegment) :
    (m.applyEdit e).segments.get? node = some s ↔
      m.segments.get? node = some s ∧ ∀ addr, e.removes = some addr → s.contains addr = false := by
  have hreread : (m.reread e.rereads).segments.get? node = m.segments.get? node := by
    cases e.rereads with
    | none => rfl
    | some brk => exact NodeList.get?_modify_of_ne _ _ hne
  have hscan : ((m.reread e.rereads).scan e.removes).segments.get? node = some s ↔
      m.segments.get? node = some s ∧ ∀ addr, e.removes = some addr → s.contains addr = false := by
    rw [← hreread]
    cases e.removes with
    | none => simp
    | some addr =>
      simp only [scan_some, Option.some.injEq, forall_eq']
      exact NodeList.get?_removeIf_eq_some_iff _ _ _ _
  rw [← hscan]
  cases hinserts : e.inserts with
  | none => rw [applyEdit, hinserts, append_none]
  | some segment =>
    rw [applyEdit, hinserts, append_some]
    exact iff_of_eq (congrArg (· = some s) (NodeList.get?_pushBack_of_lt _ _ (by simpa using hold)))

/-- A node other than the heap leads to a segment as long as it is in the list. -/
structure Holds (heapNode node : ℕ) (s : MemorySegment) (m : MemoryMap) : Prop where
  heap : m.heap = heapNode
  old : node < m.segments.fresh
  only : ∀ s', m.segments.get? node = some s' → s' = s

/-- An edit moves no node, and takes no segment away that contains no address. -/
theorem holds_applyEdit {heapNode node : ℕ} {s : MemorySegment} (hne : node ≠ heapNode)
    (h : Holds heapNode node s m) (e : Edit) :
    Holds heapNode node s (m.applyEdit e) ∧
      ((∀ a, s.contains a = false) → m.segments.get? node = some s →
        (m.applyEdit e).segments.get? node = some s) := by
  have hget := MemoryMap.get?_applyEdit_iff (by rw [h.heap]; exact hne) h.old e
  refine ⟨⟨?_, ?_, fun s' hs' => h.only s' ((hget s').mp hs').1⟩, fun hempty hlive =>
    (hget s).mpr ⟨hlive, fun addr _ => hempty addr⟩⟩
  · rw [← h.heap]
    exact (List.cons.inj (MemoryMap.pointers_applyEdit m e)).1
  · have hfresh : m.segments.fresh ≤ (m.applyEdit e).segments.fresh := by
      obtain ⟨rereads, removes, inserts⟩ := e
      cases rereads <;> cases removes <;> cases inserts <;>
        simp [MemoryMap.applyEdit, MemoryMap.setHeapEnd, MemoryMap.removeSegments,
          MemoryMap.appendSegment, NodeList.modify, NodeList.removeIf, NodeList.pushBack]
    exact lt_of_lt_of_le h.old hfresh

/-- A node keeps its segment through a run, and keeps it for good if it contains no address. -/
theorem holds_final {heapNode node : ℕ} {s : MemorySegment} (hne : node ≠ heapNode)
    {trace : List (Call × MemoryMap)} (hrun : Run (HandlerStep mode) m trace)
    (h : Holds heapNode node s m) :
    Holds heapNode node s (final m trace) ∧
      ((∀ a, s.contains a = false) → m.segments.get? node = some s →
        (final m trace).segments.get? node = some s) := by
  apply And.intro
  · refine hrun.final_invariant (fun m call m' hm hstep => ?_) h
    obtain ⟨e, rfl⟩ := hstep.exists_edit
    exact (holds_applyEdit hne hm e).1
  · intro hempty hlive
    have hboth : Holds heapNode node s (final m trace) ∧
        (final m trace).segments.get? node = some s := by
      refine hrun.final_invariant (fun m call m' (hm : Holds heapNode node s m ∧
        m.segments.get? node = some s) hstep => ?_) ⟨h, hlive⟩
      obtain ⟨e, rfl⟩ := hstep.exists_edit
      obtain ⟨hholds, hkeeps⟩ := holds_applyEdit hne hm.1 e
      exact ⟨hholds, hkeeps hempty hm.2⟩
    exact hboth.2

/-- A node is still in the list after a free exactly when it was before and either the heap held
the address or the segment of the node does not contain it. -/
theorem mem_handles_freed_iff {heapNode node : ℕ} {s : MemorySegment} (hne : node ≠ heapNode)
    (h : Holds heapNode node s m) {p brk : Word} {m' : MemoryMap}
    (hfree : HandlerStep mode m (.free p brk) m') :
    node ∈ m'.segments.handles ↔
      node ∈ m.segments.handles ∧ (m.HeapHolds p ∨ s.contains p = false) := by
  cases hheap : m.heapSegment? with
  | none => exact absurd (hfree.symm.trans (MemoryMap.exec_eq_dangling mode hheap rfl)) (by simp)
  | some heap =>
    obtain ⟨-, rfl, -⟩ := (MemoryMap.exec_eq_ok_iff mode hheap _ _ _).mp hfree
    have hget := MemoryMap.get?_applyEdit_iff (by rw [h.heap]; exact hne) h.old
      ((Call.free p brk).edit heap)
    have hholds : m.HeapHolds p ↔ heap.contains p = true := by
      simp [MemoryMap.HeapHolds, hheap]
    have hremoves : ((Call.free p brk).edit heap).removes =
        if heap.contains p = true then none else some p := by
      change (if heap.contains p = true then (⟨some brk, none, none⟩ : Edit)
        else ⟨none, some p, none⟩).removes = _
      split_ifs <;> rfl
    rw [hremoves] at hget
    simp only [NodeList.mem_handles_iff, hget, hholds]
    apply Iff.intro
    · intro hlive
      obtain ⟨s', hs', hkept⟩ := hlive
      obtain rfl := h.only s' hs'
      refine ⟨⟨s', hs'⟩, ?_⟩
      by_cases hin : heap.contains p = true
      · exact Or.inl hin
      · exact Or.inr (hkept p (if_neg hin))
    · intro hlive
      obtain ⟨⟨s', hs'⟩, hkept⟩ := hlive
      obtain rfl := h.only s' hs'
      refine ⟨s', hs', fun addr haddr => ?_⟩
      split_ifs at haddr with hin
      obtain rfl := Option.some.inj haddr
      exact hkept.resolve_left hin

/-! ## The life of a block -/

/-- An allocation succeeds and returns a block, handlers run, and then the block is freed. -/
structure Lifetime (mode : Mode) (m : MemoryMap) (call : Call) (p brk : Word) (m₁ : MemoryMap)
    (trace : List (Call × MemoryMap)) (brk' : Word) (m₃ : MemoryMap) : Prop where
  returned : call.returned? = some (p, brk)
  succeeded : ¬ call.Failed
  fits : p.toNat + call.bytes ≤ 2 ^ 64
  allocated : HandlerStep mode m call m₁
  run : Run (HandlerStep mode) m₁ trace
  freed : HandlerStep mode (final m₁ trace) (.free p brk') m₃

/-- The segments an allocation inserted contain exactly the bytes of its block, and none of their
nodes is in the list once the block was freed. -/
def TrackedForLife (m m₁ m₃ : MemoryMap) (p : Word) (bytes : ℕ) : Prop :=
  (∀ s ∈ m₁.insertedSince m.segments.fresh, ExactExtent p bytes s) ∧
    ∀ node ∈ m₁.segments.handles, m.segments.fresh ≤ node → node ∉ m₃.segments.handles

/-- The number of bytes of a successful allocation does not wrap around. -/
theorem bytes_lt_of_succeeded {call : Call} {p brk : Word}
    (hreturned : call.returned? = some (p, brk)) (hok : ¬ call.Failed)
    (hfits : p.toNat + call.bytes ≤ 2 ^ 64) : call.bytes < 2 ^ 64 := by
  cases call with
  | free ptr brk => simp [Call.returned?] at hreturned
  | mmap length result => simp [Call.returned?] at hreturned
  | munmap addr length result => simp [Call.returned?] at hreturned
  | malloc size result brk => exact size.isLt
  | realloc ptr size result brk => exact size.isLt
  | posixMemalign size memptr result brk => exact size.isLt
  | calloc nmemb size result brk =>
    obtain ⟨rfl, rfl⟩ := Prod.mk.inj (Option.some.inj hreturned)
    rw [Call.bytes] at hfits ⊢
    -- a product that wraps around would be a failure at the null pointer
    by_cases hnull : result = 0
    · have hempty : nmemb = 0 ∨ size = 0 := by
        by_contra hboth
        push Not at hboth
        exact hok ⟨hboth.1, hboth.2, hnull⟩
      rcases hempty with rfl | rfl
      · simp
      · simp
    · have hpos : 0 < result.toNat := BitVec.toNat_pos_of_ne_zero hnull
      omega

/-- An allocation follows the heap pointer. -/
theorem usesHeap_of_returned {call : Call} {p brk : Word}
    (hreturned : call.returned? = some (p, brk)) : call.usesHeap = true := by
  cases call with
  | mmap length result => simp [Call.returned?] at hreturned
  | munmap addr length result => simp [Call.returned?] at hreturned
  | _ => rfl

/-- Nothing is inserted by an edit: no node is new. -/
theorem lt_fresh_of_applyEdit {e : Edit} (hinserts : e.inserts = none) {node : ℕ}
    (hnode : node ∈ (m.applyEdit e).segments.handles) : node < m.segments.fresh := by
  rw [MemoryMap.applyEdit, hinserts, MemoryMap.append_none] at hnode
  simpa using NodeList.lt_fresh_of_mem _ hnode

/-- An edit inserts a segment: its node is the new one. -/
theorem inserted_applyEdit {e : Edit} {s : MemorySegment} (hinserts : e.inserts = some s) :
    (m.applyEdit e).segments.get? m.segments.fresh = some s ∧
      m.segments.fresh < (m.applyEdit e).segments.fresh ∧
      ∀ node ∈ (m.applyEdit e).segments.handles, m.segments.fresh ≤ node →
        node = m.segments.fresh := by
  have hfresh := MemoryMap.fresh_scan_reread m e.rereads e.removes
  rw [MemoryMap.applyEdit, hinserts, MemoryMap.append_some]
  refine ⟨?_, ?_, fun node hnode hnew => ?_⟩
  · rw [← hfresh]
    exact NodeList.get?_pushBack_fresh _ _
  · rw [← hfresh]
    exact Nat.lt_succ_self _
  · change node ∈ (((m.reread e.rereads).scan e.removes).segments.pushBack s).handles at hnode
    rw [NodeList.handles_pushBack, List.mem_append, List.mem_singleton, hfresh] at hnode
    rcases hnode with hold | hnode
    · have hlt := NodeList.lt_fresh_of_mem _ hold
      omega
    · exact hnode

/-- The life of a block for which a segment was inserted: the segment has to be exact, and at the
free it has to be gone, or found by the scan. A segment that contains nothing is never gone. -/
theorem trackedForLife_inserted {e : Edit} {s : MemorySegment} {p brk : Word} {bytes : ℕ}
    {trace : List (Call × MemoryMap)} {m₃ : MemoryMap} (hheap : m.heapSegment? = some heap)
    (hinserts : e.inserts = some s) (hrun : Run (HandlerStep mode) (m.applyEdit e) trace)
    (hfree : HandlerStep mode (final (m.applyEdit e) trace) (.free p brk) m₃) :
    (TrackedForLife m (m.applyEdit e) m₃ p bytes ↔
      ExactExtent p bytes s ∧
        (m.segments.fresh ∉ (final (m.applyEdit e) trace).segments.handles ∨
          ¬ (final (m.applyEdit e) trace).HeapHolds p ∧ s.contains p = true)) ∧
      ((∀ a, s.contains a = false) →
        m.segments.fresh ∈ (final (m.applyEdit e) trace).segments.handles) := by
  obtain ⟨hlive, hfresh, honly⟩ := inserted_applyEdit hinserts
  have hne : m.segments.fresh ≠ m.heap := by
    have hheapOld := m.segments.lt_fresh_of_mem
      ((m.segments.mem_handles_iff m.heap).mpr ⟨heap, hheap⟩)
    omega
  have hholds : Holds m.heap m.segments.fresh s (m.applyEdit e) :=
    ⟨(List.cons.inj (MemoryMap.pointers_applyEdit m _)).1, hfresh,
      fun s' hs' => Option.some.inj (hs'.symm.trans hlive)⟩
  obtain ⟨hlater, hstays⟩ := holds_final hne hrun hholds
  have hnew : m.segments.fresh ∈ (m.applyEdit e).segments.handles :=
    (NodeList.mem_handles_iff _ _).mpr ⟨_, hlive⟩
  have hgone : (∀ node ∈ (m.applyEdit e).segments.handles,
      m.segments.fresh ≤ node → node ∉ m₃.segments.handles) ↔
        m.segments.fresh ∉ m₃.segments.handles := by
    refine ⟨fun h => h _ hnew le_rfl, fun h node hnode hle => ?_⟩
    rwa [honly node hnode hle]
  apply And.intro
  · rw [TrackedForLife, MemoryMap.insertedSince_applyEdit, hinserts, hgone,
      mem_handles_freed_iff hne hlater hfree, not_and_or, not_or, Bool.not_eq_false]
    simp
  · intro hempty
    exact (NodeList.mem_handles_iff _ _).mpr ⟨_, hstays hempty hlive⟩

/-- A segment outside the heap is exact, and found when its block is freed, just when the block is
not empty: an empty one at the null pointer is not exact, and any other one is never removed. -/
theorem exact_and_released_iff {p size : Word} (name : String)
    (hfits : p.toNat + size.toNat ≤ 2 ^ 64) {live held : Prop}
    (hstays : (∀ a, (extent p size name).contains a = false) → live) :
    ExactExtent p size.toNat (extent p size name) ∧
        (¬ live ∨ ¬ held ∧ (extent p size name).contains p = true) ↔
      size.toNat ≠ 0 ∧ (¬ live ∨ ¬ held) := by
  rw [exactExtent_iff name hfits]
  by_cases hempty : size = 0
  · subst hempty
    have hzero : (0 : Word).toNat = 0 := rfl
    refine iff_of_false (fun h => ?_) fun h => h.1 hzero
    have hp := h.1.resolve_left (not_not.mpr rfl)
    have hnever := extent_zero_contains name hp
    rcases h.2 with hgone | hfound
    · exact hgone (hstays hnever)
    · rw [hnever p] at hfound
      exact absurd hfound.2 Bool.false_ne_true
  · have hpos := BitVec.toNat_pos_of_ne_zero hempty
    have hfirst : (extent p size name).contains p = true :=
      (extent_contains_iff name hpos hfits p).mpr ⟨le_rfl, by omega⟩
    rw [and_iff_left hfirst, and_iff_right (Or.inl hempty), and_iff_right hpos.ne']

/-- Over the life of a block, its segments are exact and go away with it exactly when nothing was
inserted for it, or it is not empty and its segment is gone or outside the heap when it is freed. -/
theorem trackedForLife_iff {mode : Mode} {m m₁ m₃ : MemoryMap} {call : Call} {p brk brk' : Word}
    {trace : List (Call × MemoryMap)} (life : Lifetime mode m call p brk m₁ trace brk' m₃) :
    TrackedForLife m m₁ m₃ p call.bytes ↔
      HeapReaches m brk p ∨
        call.bytes ≠ 0 ∧ (m.segments.fresh ∉ (final m₁ trace).segments.handles ∨
          ¬ (final m₁ trace).HeapHolds p) := by
  have huses : call.usesHeap = true := usesHeap_of_returned life.returned
  cases hheap : m.heapSegment? with
  | none =>
    exact absurd (life.allocated.symm.trans (MemoryMap.exec_eq_dangling mode hheap huses)) (by simp)
  | some heap =>
    obtain ⟨-, rfl, -⟩ := (MemoryMap.exec_eq_ok_iff mode hheap call _ _).mp life.allocated
    obtain ⟨size, name, hwrapped, hinserts⟩ := inserts_of_returned heap life.returned
    have hsize : size.toNat = call.bytes := by
      rw [hwrapped]
      exact Nat.mod_eq_of_lt (bytes_lt_of_succeeded life.returned life.succeeded life.fits)
    have hreaches : HeapReaches m brk p ↔ (heapUpTo heap brk).contains p = true := by
      simp [HeapReaches, hheap]
    rw [hreaches, ← hsize]
    by_cases hin : (heapUpTo heap brk).contains p = true
    · have hnone : (call.edit heap).inserts = none :=
        hinserts.trans ((outsideHeap_eq_none_iff _ _).mpr hin)
      refine iff_of_true ⟨?_, fun node hnode hnew => ?_⟩ (Or.inl hin)
      · simp [MemoryMap.insertedSince_applyEdit, hnone]
      · have hold := lt_fresh_of_applyEdit hnone hnode
        omega
    · obtain ⟨htracks, hstays⟩ :=
        @trackedForLife_inserted mode m heap _ _ p brk' size.toNat trace m₃ hheap
          (hinserts.trans (if_neg hin)) life.run life.freed
      have hfits : p.toNat + size.toNat ≤ 2 ^ 64 := by
        rw [hsize]
        exact life.fits
      rw [htracks, or_iff_right hin]
      exact exact_and_released_iff name hfits hstays

/-- A block of 16 bytes outside the heap is tracked exactly. -/
theorem trackedForLife_mapped_block :
    let tracked := (smallProcess.setHeapEnd 0x1021000).appendSegment
      (extent 0x7f0000000010 16 "malloc")
    TrackedForLife smallProcess tracked (tracked.removeSegments 0x7f0000000010)
      0x7f0000000010 16 := by
  intro tracked
  have life : Lifetime ⟨fun _ => none⟩ smallProcess (.malloc 16 0x7f0000000010 0x1021000)
      0x7f0000000010 0x1021000 tracked [] 0x1021000 (tracked.removeSegments 0x7f0000000010) :=
    ⟨rfl, by simp [Call.Failed], by decide, rfl, .nil _, rfl⟩
  refine (trackedForLife_iff life).mpr (Or.inr ⟨by decide, Or.inr ?_⟩)
  simp only [final, MemoryMap.HeapHolds]
  rintro ⟨heap, hheap, hin⟩
  obtain rfl : heapUpTo smallHeap 0x1021000 = heap := Option.some.inj hheap
  exact absurd hin (by decide)

/-- The segment of an empty block outside the heap stays in the list when the block is freed, and
`realloc` of a block to nothing inserts a segment that contains every address. -/
theorem trackedForLife_empty_block :
    let tracked := (smallProcess.setHeapEnd 0x1021000).appendSegment
      (extent 0x7f0000000010 0 "malloc")
    let released := (smallProcess.setHeapEnd 0x1021000).appendSegment (extent 0 0 "realloc")
    HandlerStep ⟨fun _ => none⟩ smallProcess (.malloc 0 0x7f0000000010 0x1021000) tracked ∧
      HandlerStep ⟨fun _ => none⟩ tracked (.free 0x7f0000000010 0x1021000) tracked ∧
      ¬ TrackedForLife smallProcess tracked tracked 0x7f0000000010 0 ∧
      HandlerStep ⟨fun _ => none⟩ smallProcess (.realloc 0x1000010 0 0 0x1021000) released ∧
      (extent 0 0 "realloc").contains 0x400000 = true ∧
      ¬ ExactExtent 0 0 (extent 0 0 "realloc") := by
  intro tracked released
  have hfree : HandlerStep ⟨fun _ => none⟩ tracked (.free 0x7f0000000010 0x1021000)
      (tracked.removeSegments 0x7f0000000010) := rfl
  rw [tracked.removeSegments_eq_self (by decide)] at hfree
  refine ⟨rfl, hfree, fun h => ?_, rfl, extent_null_contains _ _, fun h => ?_⟩
  · exact h.2 4 (by decide) (by decide) (by decide)
  · exact absurd ((h 0).mp (extent_null_contains _ _)) (by decide)

end Bwap
