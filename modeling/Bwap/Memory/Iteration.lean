import Bwap.Common.Runs
import Bwap.Memory.MemoryMap
import Mathlib.Data.List.Count

/-!
# Passes over the map

A pass walks the list with an iterator and places the segment it stands on before it moves
on, while other threads run the locked sections of the handlers. The pass takes no lock. It
stays safe exactly as long as no removal deletes the node under its iterator; other
insertions and removals do it no harm.
-/

namespace Bwap

open Common

/-- One step of the pass or of another thread. -/
inductive PassLabel
  | visit
  | advance
  | append (segment : MemorySegment)
  | remove (addr : Word)
  | reread (brk : Word)
deriving DecidableEq, Repr

/-- The map, the node under the iterator (none at the end), whether its segment was placed
already, and the visits so far: the handle visited, and whether it was in the list then. -/
structure PassState where
  map : MemoryMap
  iterator : Option ℕ
  placed : Bool
  visits : List (ℕ × Bool)

/-- The start of a pass: `begin()`. -/
def PassState.begin (m : MemoryMap) : PassState := ⟨m, m.segments.first?, false, []⟩

/-- The steps of an interleaving. Moving on from a deleted node may lead anywhere. -/
inductive PassStep : PassState → PassLabel → PassState → Prop
  | visit {s : PassState} (node : ℕ) (hiterator : s.iterator = some node)
      (hplaced : s.placed = false) :
      PassStep s .visit { s with
        placed := true
        visits := s.visits ++ [(node, decide (node ∈ s.map.segments.handles))] }
  | advance {s : PassState} (node : ℕ) (hiterator : s.iterator = some node)
      (hplaced : s.placed = true) (hlive : node ∈ s.map.segments.handles) :
      PassStep s .advance { s with iterator := s.map.segments.next? node, placed := false }
  | advanceDangling {s : PassState} (node : ℕ) (target : Option ℕ)
      (hiterator : s.iterator = some node) (hplaced : s.placed = true)
      (hdead : node ∉ s.map.segments.handles) :
      PassStep s .advance { s with iterator := target, placed := false }
  | append {s : PassState} (segment : MemorySegment) :
      PassStep s (.append segment) { s with map := s.map.appendSegment segment }
  | remove {s : PassState} (addr : Word) :
      PassStep s (.remove addr) { s with map := s.map.removeSegments addr }
  | reread {s : PassState} (brk : Word) :
      PassStep s (.reread brk) { s with map := s.map.setHeapEnd brk }

/-- The iterator designates an element or the end, every visit was of a tracked segment, and once
the pass is over every segment that stayed tracked was visited exactly once. -/
structure PassSafe (m₀ : MemoryMap) (s : PassState) : Prop where
  valid : ∀ node, s.iterator = some node → node ∈ s.map.segments.handles
  tracked : ∀ visit ∈ s.visits, visit.2 = true
  once : s.iterator = none → ∀ node ∈ m₀.segments.handles, node ∈ s.map.segments.handles →
    (s.visits.map Prod.fst).count node = 1

/-- The removal leaves the node under the iterator. -/
def SparesIterator (s : PassState) : PassLabel → Prop
  | .remove addr => ∀ node, s.iterator = some node →
      (s.map.segments.get? node).any (fun t => t.contains addr) = false
  | _ => True

/-- The pass has left a node behind: it is at the end, further on, or done with it. -/
def PassState.Behind (s : PassState) (node : ℕ) : Prop :=
  ∀ current, s.iterator = some current → node < current ∨ node = current ∧ s.placed = true

/-- The invariant of a safe pass: the visited handles increase and lie behind the iterator, and
every initial segment behind the iterator that is still in the list was visited. -/
structure PassInvariant (m₀ : MemoryMap) (s : PassState) : Prop where
  valid : ∀ node, s.iterator = some node → node ∈ s.map.segments.handles
  tracked : ∀ visit ∈ s.visits, visit.2 = true
  increasing : (s.visits.map Prod.fst).Pairwise (· < ·)
  behind : ∀ visit ∈ s.visits, s.Behind visit.1
  complete : ∀ node ∈ m₀.segments.handles, node ∈ s.map.segments.handles → s.Behind node →
    node ∈ s.visits.map Prod.fst
  older : ∀ node ∈ m₀.segments.handles, node < s.map.segments.fresh

namespace PassInvariant

variable {m₀ : MemoryMap} {s s' : PassState} {label : PassLabel}

/-- A pass begins at the first node. -/
theorem begin (m₀ : MemoryMap) : PassInvariant m₀ (PassState.begin m₀) where
  valid := fun node hnode => (NodeList.first?_eq_some hnode).1
  tracked := by simp [PassState.begin]
  increasing := by simp [PassState.begin]
  behind := by simp [PassState.begin]
  complete := by
    intro node hnode _ hbehind
    cases hfirst : m₀.segments.first? with
    | none => simp [NodeList.handles_of_first?_eq_none hfirst] at hnode
    | some current =>
      have hle := (NodeList.first?_eq_some hfirst).2 node hnode
      cases hbehind current hfirst with
      | inl hless => omega
      | inr hself => exact absurd hself.2 (by simp [PassState.begin])
  older := fun node hnode => m₀.segments.lt_fresh_of_mem hnode

/-- The invariant says the pass is safe. -/
theorem safe (h : PassInvariant m₀ s) : PassSafe m₀ s where
  valid := h.valid
  tracked := h.tracked
  once := by
    intro hend node hinitial hlive
    have hbehind : s.Behind node := fun current hcurrent =>
      absurd (hend.symm.trans hcurrent) (by simp)
    exact List.count_eq_one_of_mem (h.increasing.imp Nat.ne_of_lt)
      (h.complete node hinitial hlive hbehind)

/-- Visiting keeps the invariant: everything visited before lies before the current node. -/
theorem visit (h : PassInvariant m₀ s) {node : ℕ} (hiterator : s.iterator = some node)
    (hplaced : s.placed = false) :
    PassInvariant m₀ { s with
      placed := true
      visits := s.visits ++ [(node, decide (node ∈ s.map.segments.handles))] } where
  valid := h.valid
  tracked := by
    have hlive := h.valid node hiterator
    intro visit hvisit
    cases List.mem_append.mp hvisit with
    | inl hold => exact h.tracked visit hold
    | inr hnew => simp [List.mem_singleton.mp hnew, hlive]
  increasing := by
    rw [List.map_append, List.pairwise_append]
    refine ⟨h.increasing, List.pairwise_singleton _ _, ?_⟩
    intro old hold new hnew
    obtain ⟨visit, hvisit, rfl⟩ := List.mem_map.mp hold
    rw [List.mem_singleton.mp hnew]
    cases h.behind visit hvisit node hiterator with
    | inl hless => exact hless
    | inr hself => simp [hplaced] at hself
  behind := by
    intro visit hvisit current hcurrent
    cases List.mem_append.mp hvisit with
    | inl hold =>
      exact (h.behind visit hold current hcurrent).imp_right fun hself => ⟨hself.1, rfl⟩
    | inr hnew =>
      rw [List.mem_singleton.mp hnew]
      exact Or.inr ⟨Option.some.inj (hiterator.symm.trans hcurrent), rfl⟩
  complete := by
    intro other hinitial hlive hbehind
    rw [List.map_append, List.mem_append]
    cases hbehind node hiterator with
    | inl hless =>
      refine Or.inl (h.complete other hinitial hlive fun current hcurrent => Or.inl ?_)
      rwa [← Option.some.inj (hiterator.symm.trans hcurrent)]
    | inr hself => exact Or.inr (by simp [hself.1])
  older := h.older

/-- Moving on from a live node keeps the invariant: no node lies between it and the next one. -/
theorem advance (h : PassInvariant m₀ s) {node : ℕ} (hiterator : s.iterator = some node)
    (hplaced : s.placed = true) (hlive : node ∈ s.map.segments.handles) :
    PassInvariant m₀ { s with iterator := s.map.segments.next? node, placed := false } where
  valid := fun following hfollowing => (NodeList.next?_eq_some hlive hfollowing).1
  tracked := h.tracked
  increasing := h.increasing
  behind := by
    intro visit hvisit following hfollowing
    have hless := (NodeList.next?_eq_some hlive hfollowing).2.1
    cases h.behind visit hvisit node hiterator with
    | inl hbefore => exact Or.inl (hbefore.trans hless)
    | inr hself => exact Or.inl (hself.1 ▸ hless)
  complete := by
    intro other hinitial hother hbehind
    have hle : other ≤ node := by
      cases hnext : s.map.segments.next? node with
      | none => exact NodeList.next?_eq_none hlive hnext other hother
      | some following =>
        cases hbehind following hnext with
        | inl hless => exact (NodeList.next?_eq_some hlive hnext).2.2 other hother hless
        | inr hself => exact absurd hself.2 (by simp)
    apply h.complete other hinitial hother
    intro current hcurrent
    rw [← Option.some.inj (hiterator.symm.trans hcurrent)]
    exact (Nat.lt_or_eq_of_le hle).imp_right fun hself => ⟨hself, hplaced⟩
  older := h.older

/-- A change of the map that keeps the node under the iterator and gives no initial node a second
life keeps the invariant. -/
theorem changeMap (h : PassInvariant m₀ s) {m : MemoryMap}
    (hvalid : ∀ node, s.iterator = some node → node ∈ m.segments.handles)
    (hlive : ∀ node ∈ m₀.segments.handles, node ∈ m.segments.handles →
      node ∈ s.map.segments.handles)
    (holder : s.map.segments.fresh ≤ m.segments.fresh) : PassInvariant m₀ { s with map := m } where
  valid := hvalid
  tracked := h.tracked
  increasing := h.increasing
  behind := h.behind
  complete := fun node hinitial hnode hbehind =>
    h.complete node hinitial (hlive node hinitial hnode) hbehind
  older := fun node hinitial => Nat.lt_of_lt_of_le (h.older node hinitial) holder

/-- Appending a segment keeps the invariant: its node is younger than every initial one. -/
theorem appendSegment (h : PassInvariant m₀ s) (segment : MemorySegment) :
    PassInvariant m₀ { s with map := s.map.appendSegment segment } := by
  apply h.changeMap
  · intro node hnode
    change node ∈ (s.map.segments.pushBack segment).handles
    rw [NodeList.handles_pushBack]
    exact List.mem_append_left _ (h.valid node hnode)
  · intro node hinitial hnode
    change node ∈ (s.map.segments.pushBack segment).handles at hnode
    rw [NodeList.handles_pushBack, List.mem_append, List.mem_singleton] at hnode
    have hyoung := h.older node hinitial
    exact hnode.resolve_right (by omega)
  · exact Nat.le_succ _

/-- A step that spares the node under the iterator keeps the invariant. -/
theorem step (h : PassInvariant m₀ s) (hstep : PassStep s label s')
    (hspares : SparesIterator s label) : PassInvariant m₀ s' := by
  cases hstep with
  | visit node hiterator hplaced => exact h.visit hiterator hplaced
  | advance node hiterator hplaced hlive => exact h.advance hiterator hplaced hlive
  | advanceDangling node target hiterator hplaced hdead =>
    exact absurd (h.valid node hiterator) hdead
  | append segment => exact h.appendSegment segment
  | remove addr =>
    apply h.changeMap
    · intro node hnode
      exact (MemoryMap.mem_handles_removeSegments (h.valid node hnode) addr).mpr
        (hspares node hnode)
    · intro node _ hnode
      exact NodeList.mem_handles_of_mem_removeIf _ _ hnode
    · exact Nat.le_refl _
  | reread brk =>
    have hhandles : (s.map.setHeapEnd brk).segments.handles = s.map.segments.handles :=
      NodeList.handles_modify _ _ _
    apply h.changeMap
    · intro node hnode
      rw [hhandles]
      exact h.valid node hnode
    · intro node _ hnode
      rwa [hhandles] at hnode
    · exact Nat.le_refl _

/-- A step after which the iterator is valid spared the node under it. -/
theorem spares (h : PassInvariant m₀ s) (hstep : PassStep s label s') (hsafe : PassSafe m₀ s') :
    SparesIterator s label := by
  cases hstep with
  | remove addr =>
    intro node hnode
    exact (MemoryMap.mem_handles_removeSegments (h.valid node hnode) addr).mp
      (hsafe.valid node hnode)
  | _ => trivial

end PassInvariant

/-- In an interleaving of one pass with the handlers of other threads, the pass is safe in every
state reached if and only if no removal deletes the node under the iterator. -/
theorem pass_safe_iff (m₀ : MemoryMap) (trace : List (PassLabel × PassState))
    (hrun : Run PassStep (PassState.begin m₀) trace) :
    Throughout (PassSafe m₀) trace ↔ Guarded SparesIterator (PassState.begin m₀) trace :=
  hrun.throughout_iff_guarded (fun _ h => h.safe)
    (fun _ _ _ h hstep hspares => h.step hstep hspares)
    (fun _ _ _ h hstep hsafe => h.spares hstep hsafe) (PassInvariant.begin m₀)

/-- Removing a segment that the pass has left behind does it no harm. -/
theorem pass_safe_remove_behind :
    let behind := smallProcess.removeSegments 0x400000
    Throughout (PassSafe smallProcess)
      [(PassLabel.visit, ⟨smallProcess, some 0, true, [(0, true)]⟩),
        (PassLabel.advance, ⟨smallProcess, some 1, false, [(0, true)]⟩),
        (PassLabel.remove 0x400000, ⟨behind, some 1, false, [(0, true)]⟩)] := by
  intro behind
  have hvisit : PassStep (PassState.begin smallProcess) .visit
      ⟨smallProcess, some 0, true, [(0, true)]⟩ := .visit 0 rfl rfl
  have hadvance : PassStep ⟨smallProcess, some 0, true, [(0, true)]⟩ .advance
      ⟨smallProcess, some 1, false, [(0, true)]⟩ := .advance 0 rfl rfl (by decide)
  have hremove : PassStep ⟨smallProcess, some 1, false, [(0, true)]⟩ (.remove 0x400000)
      ⟨behind, some 1, false, [(0, true)]⟩ := .remove 0x400000
  have hspares : SparesIterator ⟨smallProcess, some 1, false, [(0, true)]⟩ (.remove 0x400000) := by
    intro node hnode
    rw [← Option.some.inj hnode]
    decide
  exact (pass_safe_iff smallProcess _ (.cons hvisit (.cons hadvance (.cons hremove (.nil _))))).mpr
    ⟨trivial, trivial, hspares, trivial⟩

/-- Unmapping the segment a pass has just placed leaves its iterator on a deleted node. -/
theorem munmap_under_iterator :
    let mapped := smallProcess.appendSegment (extent 0x7f0000000000 0x200000 "mmap")
    let removed := mapped.removeSegments 0x7f0000000000
    let seen (count : ℕ) : List (ℕ × Bool) := (List.range count).map fun node => (node, true)
    Run PassStep (PassState.begin mapped)
        [(.visit, ⟨mapped, some 0, true, seen 1⟩), (.advance, ⟨mapped, some 1, false, seen 1⟩),
          (.visit, ⟨mapped, some 1, true, seen 2⟩), (.advance, ⟨mapped, some 2, false, seen 2⟩),
          (.visit, ⟨mapped, some 2, true, seen 3⟩), (.advance, ⟨mapped, some 3, false, seen 3⟩),
          (.visit, ⟨mapped, some 3, true, seen 4⟩), (.advance, ⟨mapped, some 4, false, seen 4⟩),
          (.visit, ⟨mapped, some 4, true, seen 5⟩),
          (.remove 0x7f0000000000, ⟨removed, some 4, true, seen 5⟩)] ∧
      ¬ PassSafe mapped ⟨removed, some 4, true, seen 5⟩ := by
  intro mapped removed seen
  have hrun : Run PassStep (PassState.begin mapped) _ :=
    .cons (.visit 0 rfl rfl) <| .cons (.advance 0 rfl rfl (by decide)) <|
    .cons (.visit 1 rfl rfl) <| .cons (.advance 1 rfl rfl (by decide)) <|
    .cons (.visit 2 rfl rfl) <| .cons (.advance 2 rfl rfl (by decide)) <|
    .cons (.visit 3 rfl rfl) <| .cons (.advance 3 rfl rfl (by decide)) <|
    .cons (.visit 4 rfl rfl) <| .cons (.remove 0x7f0000000000) (.nil _)
  have hdead : 4 ∉ removed.segments.handles := by decide
  exact ⟨hrun, fun hsafe => hdead (hsafe.valid 4 rfl)⟩

end Bwap
