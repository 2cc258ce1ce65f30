import Bwap.Common.Runs
import Bwap.Memory.MemoryMap
import Mathlib.Data.Set.Lattice
import Mathlib.Order.CompletePartialOrder

/-!
# Tracking mapped pages

The kernel maps and unmaps ranges of pages; the handler of `munmap` removes the segments that
contain the first address of the range and looks at nothing else. Tracking stays exact
through an `munmap` when the segments it removes cover, of the pages tracked by them alone,
just those in the range, and the segments it keeps touch none of these.
-/

namespace Bwap

open Common

/-- The pages touched by a range of bytes. -/
def rangePages (P : PageSize) (addr length : Word) : Set ℕ :=
  {page | ∃ a, addr.toNat ≤ a ∧ a < addr.toNat + length.toNat ∧ a / P.bytes = page}

/-- The pages touched by a segment. -/
def MemorySegment.pages (P : PageSize) (s : MemorySegment) : Set ℕ :=
  {page | ∃ a : Word, s.contains a = true ∧ a.toNat / P.bytes = page}

/-- The pages touched by a list of segments. -/
def pagesOf (P : PageSize) (segments : List MemorySegment) : Set ℕ :=
  {page | ∃ s ∈ segments, page ∈ s.pages P}

/-- The map, and the pages the run mapped and has not unmapped. -/
structure MappingState where
  map : MemoryMap
  mapped : Set ℕ

/-- One successful `mmap` or `munmap`: the kernel takes page-aligned addresses and nonempty ranges
inside the address space, and answers `mmap` with any such range. -/
inductive MappingStep (P : PageSize) (mode : Mode) : MappingState → Call → MappingState → Prop
  | mmap {s : MappingState} {m : MemoryMap} (length result : Word)
      (haligned : P.bytes ∣ result.toNat) (hpos : 0 < length.toNat)
      (hfit : result.toNat + length.toNat ≤ 2 ^ 64)
      (hexec : s.map.exec mode (.mmap length result) = .ok (.pointer result, m)) :
      MappingStep P mode s (.mmap length result) ⟨m, s.mapped ∪ rangePages P result length⟩
  | munmap {s : MappingState} {m : MemoryMap} (addr length : Word)
      (haligned : P.bytes ∣ addr.toNat) (hpos : 0 < length.toNat)
      (hfit : addr.toNat + length.toNat ≤ 2 ^ 64)
      (hexec : s.map.exec mode (.munmap addr length 0) = .ok (.code 0, m)) :
      MappingStep P mode s (.munmap addr length 0) ⟨m, s.mapped \ rangePages P addr length⟩

/-- The segments inserted by the run touch exactly the pages mapped by the run. -/
def PagesTracked (P : PageSize) (fresh : ℕ) (s : MappingState) : Prop :=
  pagesOf P (s.map.insertedSince fresh) = s.mapped

/-- What an `munmap` needs: the run's segments that touch a page of its range contain its address,
and those that contain its address touch outside the range only pages that another one, which
does not contain the address, touches too. -/
def RemovesRange (P : PageSize) (fresh : ℕ) (s : MappingState) : Call → Prop
  | .munmap addr length _ =>
    (∀ t ∈ s.map.insertedSince fresh, t.contains addr = false →
      Disjoint (t.pages P) (rangePages P addr length)) ∧
    ∀ t ∈ s.map.insertedSince fresh, t.contains addr = true →
      ∀ page ∈ t.pages P, page ∉ rangePages P addr length →
        ∃ u ∈ s.map.insertedSince fresh, u.contains addr = false ∧ page ∈ u.pages P
  | _ => True

section Pages

variable {P : PageSize}

/-- An extent touches the pages of its bytes. -/
theorem extent_pages {start length : Word} (name : String) (hpos : 0 < length.toNat)
    (hfit : start.toNat + length.toNat ≤ 2 ^ 64) :
    (extent start length name).pages P = rangePages P start length := by
  apply Set.ext
  intro page
  apply Iff.intro
  · intro h
    obtain ⟨a, ha, hpage⟩ := h
    obtain ⟨hlow, hhigh⟩ := (extent_contains_iff name hpos hfit a).mp ha
    exact ⟨a.toNat, hlow, hhigh, hpage⟩
  · intro h
    obtain ⟨a, hlow, hhigh, hpage⟩ := h
    have ha : (BitVec.ofNat 64 a).toNat = a := by
      rw [BitVec.toNat_ofNat, Nat.mod_eq_of_lt (by omega)]
    refine ⟨BitVec.ofNat 64 a, (extent_contains_iff name hpos hfit _).mpr ?_, ?_⟩
    · rw [ha]
      exact ⟨hlow, hhigh⟩
    · rw [ha]
      exact hpage

@[simp] theorem pagesOf_nil : pagesOf P [] = ∅ := by
  simp [pagesOf]

@[simp] theorem pagesOf_append (left right : List MemorySegment) :
    pagesOf P (left ++ right) = pagesOf P left ∪ pagesOf P right := by
  apply Set.ext
  intro page
  simp only [pagesOf, List.mem_append, Set.mem_ofPred_eq, Set.mem_union]
  grind

@[simp] theorem pagesOf_singleton (s : MemorySegment) : pagesOf P [s] = s.pages P := by
  simp [pagesOf]

end Pages

/-- Keeping some segments of a list is removing a range of pages exactly when the kept ones leave
the range alone and the others touch outside it only what a kept one touches. -/
theorem pagesOf_kept_iff {P : PageSize} (segments : List MemorySegment)
    (p : MemorySegment → Bool) (range : Set ℕ) :
    pagesOf P (segments.filter fun s => !p s) = pagesOf P segments \ range ↔
      (∀ s ∈ segments, p s = false → Disjoint (s.pages P) range) ∧
        ∀ s ∈ segments, p s = true → ∀ page ∈ s.pages P, page ∉ range →
          ∃ u ∈ segments, p u = false ∧ page ∈ u.pages P := by
  simp only [Set.ext_iff, Set.mem_sdiff, pagesOf, List.mem_filter, Set.mem_ofPred_eq,
    Set.disjoint_left]
  apply Iff.intro
  · intro h
    exact ⟨by grind, by grind⟩
  · intro h page
    obtain ⟨hkept, hremoved⟩ := h
    apply Iff.intro
    · grind
    · intro hpage
      obtain ⟨⟨s, hs, hmem⟩, hrange⟩ := hpage
      cases hp : p s with
      | true =>
        obtain ⟨u, hu, hpu, hmemu⟩ := hremoved s hs hp page hmem hrange
        exact ⟨u, ⟨hu, by simp [hpu]⟩, hmemu⟩
      | false => exact ⟨s, ⟨hs, by simp [hp]⟩, hmem⟩

/-- The invariant: tracking is exact, and the run's insertions have handles of their own. -/
structure MappingInvariant (P : PageSize) (fresh : ℕ) (s : MappingState) : Prop where
  tracked : PagesTracked P fresh s
  older : fresh ≤ s.map.segments.fresh

variable {P : PageSize} {mode : Mode} {fresh : ℕ} {s s' : MappingState} {call : Call}

/-- The handles a call gives out come after those of the initial list. -/
theorem MappingStep.older (hstep : MappingStep P mode s call s')
    (holder : fresh ≤ s.map.segments.fresh) : fresh ≤ s'.map.segments.fresh := by
  cases hstep with
  | @mmap m length result haligned hpos hfit hexec =>
    obtain ⟨-, hinsert⟩ := MemoryMap.exec_mmap_eq_ok hexec
    rw [hinsert]
    exact Nat.le_succ_of_le holder
  | @munmap m addr length haligned hpos hfit hexec =>
    obtain rfl := MemoryMap.exec_munmap_eq_ok hexec
    exact holder

/-- After a call, tracking is exact if and only if an `munmap` removed just its range. -/
theorem MappingStep.tracked_iff (hstep : MappingStep P mode s call s')
    (hs : MappingInvariant P fresh s) : PagesTracked P fresh s' ↔ RemovesRange P fresh s call := by
  have htracked := hs.tracked
  unfold PagesTracked at htracked ⊢
  cases hstep with
  | @mmap m length result haligned hpos hfit hexec =>
    obtain ⟨-, hinsert⟩ := MemoryMap.exec_mmap_eq_ok hexec
    simp only [RemovesRange, iff_true]
    rw [hinsert, MemoryMap.insertedSince_appendSegment hs.older, pagesOf_append, pagesOf_singleton,
      extent_pages "mmap" hpos hfit, htracked]
  | @munmap m addr length haligned hpos hfit hexec =>
    obtain rfl := MemoryMap.exec_munmap_eq_ok hexec
    rw [MemoryMap.insertedSince_removeSegments, ← htracked]
    exact pagesOf_kept_iff _ (fun t => t.contains addr) _

/-- In a run of successful `mmap` and `munmap` calls, the pages touched by the segments the run
inserted are in every state reached the pages it has mapped, if and only if each `munmap`
removes just its range. -/
theorem pages_tracked_iff (P : PageSize) (mode : Mode) (m₀ : MemoryMap)
    (trace : List (Call × MappingState)) (hrun : Run (MappingStep P mode) ⟨m₀, ∅⟩ trace) :
    Throughout (PagesTracked P m₀.segments.fresh) trace ↔
      Guarded (RemovesRange P m₀.segments.fresh) ⟨m₀, ∅⟩ trace := by
  have hstart : MappingInvariant P m₀.segments.fresh ⟨m₀, ∅⟩ := by
    refine ⟨?_, le_refl _⟩
    change pagesOf P (m₀.insertedSince m₀.segments.fresh) = ∅
    rw [MemoryMap.insertedSince_fresh, pagesOf_nil]
  exact hrun.throughout_iff_guarded (fun _ hs => hs.tracked)
    (fun _ _ _ hs hstep hguard => ⟨(hstep.tracked_iff hs).mpr hguard, hstep.older hs.older⟩)
    (fun _ _ _ hs hstep htracked => (hstep.tracked_iff hs).mp htracked) hstart

/-- Unmapping whole mappings removes just their range, when nothing else the run tracks touches
it. -/
theorem removesRange_of_whole {addr length : Word} {result : ℤ}
    (hwhole : ∀ t ∈ s.map.insertedSince fresh, t.contains addr = true →
      t.pages P ⊆ rangePages P addr length)
    (hrest : ∀ t ∈ s.map.insertedSince fresh, t.contains addr = false →
      Disjoint (t.pages P) (rangePages P addr length)) :
    RemovesRange P fresh s (.munmap addr length result) :=
  ⟨hrest, fun t ht hcontains _ hpage houtside => absurd (hwhole t ht hcontains hpage) houtside⟩

/-- Mapping two pages and unmapping both is tracked. -/
theorem pages_tracked_mmap_munmap :
    let P : PageSize := ⟨12, by decide⟩
    let range := rangePages P 0x7f0000000000 0x2000
    let mapped := smallProcess.appendSegment (extent 0x7f0000000000 0x2000 "mmap")
    Throughout (PagesTracked P 4)
      [(Call.mmap 0x2000 0x7f0000000000, ⟨mapped, ∅ ∪ range⟩),
        (Call.munmap 0x7f0000000000 0x2000 0,
          ⟨mapped.removeSegments 0x7f0000000000, (∅ ∪ range) \ range⟩)] := by
  intro P range mapped
  have hmmap : MappingStep P ⟨fun _ => none⟩ ⟨smallProcess, ∅⟩ (.mmap 0x2000 0x7f0000000000)
      ⟨mapped, ∅ ∪ range⟩ := .mmap _ _ (by decide) (by decide) (by decide) rfl
  have hmunmap : MappingStep P ⟨fun _ => none⟩ ⟨mapped, ∅ ∪ range⟩
      (.munmap 0x7f0000000000 0x2000 0)
      ⟨mapped.removeSegments 0x7f0000000000, (∅ ∪ range) \ range⟩ :=
    .munmap _ _ (by decide) (by decide) (by decide) rfl
  have hinserted : mapped.insertedSince 4 = [extent 0x7f0000000000 0x2000 "mmap"] := rfl
  have hpages : (extent 0x7f0000000000 0x2000 "mmap").pages P = range :=
    extent_pages "mmap" (by decide) (by decide)
  have hwhole : RemovesRange P 4 ⟨mapped, ∅ ∪ range⟩ (.munmap 0x7f0000000000 0x2000 0) := by
    apply removesRange_of_whole
    · intro t ht _
      rw [hinserted, List.mem_singleton] at ht
      rw [ht, hpages]
    · intro t ht hcontains
      rw [hinserted, List.mem_singleton] at ht
      rw [ht] at hcontains
      exact absurd hcontains (by decide)
  exact (pages_tracked_iff P ⟨fun _ => none⟩ smallProcess _
    (.cons hmmap (.cons hmunmap (.nil _)))).mpr ⟨trivial, hwhole, trivial⟩

/-- Unmapping the first of two mapped pages drops both from the map. -/
theorem partial_munmap_drops_mapping :
    let P : PageSize := ⟨12, by decide⟩
    let mapped := smallProcess.appendSegment (extent 0x7f0000000000 0x2000 "mmap")
    let left : Set ℕ := (∅ ∪ rangePages P 0x7f0000000000 0x2000) \
      rangePages P 0x7f0000000000 0x1000
    Run (MappingStep P ⟨fun _ => none⟩) ⟨smallProcess, ∅⟩
        [(Call.mmap 0x2000 0x7f0000000000, ⟨mapped, ∅ ∪ rangePages P 0x7f0000000000 0x2000⟩),
          (Call.munmap 0x7f0000000000 0x1000 0, ⟨mapped.removeSegments 0x7f0000000000, left⟩)] ∧
      0x7f0000001 ∈ left ∧
      ¬ PagesTracked P smallProcess.segments.fresh
        ⟨mapped.removeSegments 0x7f0000000000, left⟩ := by
  intro P mapped left
  have hleft : 0x7f0000001 ∈ left := by
    refine ⟨Or.inr ⟨0x7f0000001000, by decide, by decide, by decide⟩, ?_⟩
    intro h
    obtain ⟨a, hlow, hhigh, hpage⟩ := h
    have hbytes : P.bytes = 4096 := rfl
    have hstart : (0x7f0000000000 : Word).toNat = 0x7f0000000000 := rfl
    have hlength : (0x1000 : Word).toNat = 0x1000 := rfl
    rw [hbytes] at hpage
    omega
  refine ⟨.cons (.mmap _ _ (by decide) (by decide) (by decide) rfl)
    (.cons (.munmap _ _ (by decide) (by decide) (by decide) rfl) (.nil _)), hleft, ?_⟩
  intro htracked
  have hnone : (mapped.removeSegments 0x7f0000000000).insertedSince smallProcess.segments.fresh =
      [] := rfl
  rw [PagesTracked, hnone, pagesOf_nil] at htracked
  change ∅ = left at htracked
  rw [← htracked] at hleft
  exact hleft

end Bwap
