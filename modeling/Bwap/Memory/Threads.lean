import Bwap.Common.Runs
import Bwap.Memory.Blocks
import Mathlib.Logic.Function.Basic

/-!
# Handlers on several threads

A handler calls libc or the kernel first and takes the lock afterwards, once for each edit of
the list. Between the two, another thread may be handed an address that was just released.
Tracking survives every interleaving in which no block is inserted while another thread has
still to remove a segment at an address inside that block.
-/

namespace Bwap

open Common

/-- Where a thread is: outside the handlers, or between the underlying call and an edit of the
list that is still to come. -/
inductive Activity
  | idle
  | inserting (b : Block)
  | removing (addr : Word)
  | reallocating (addr : Word) (b : Block)

namespace Activity

/-- The address a thread has still to remove. -/
def pending : Activity → Option Word
  | removing addr => some addr
  | reallocating addr _ => some addr
  | _ => none

/-- The block a thread got and has still to insert. -/
def inFlight : Activity → Option Block
  | inserting b => some b
  | reallocating _ b => some b
  | _ => none

end Activity

/-- The blocks and mappings the handlers returned that were not released since, what each thread
is doing, and the map. -/
structure ThreadState (T : Type*) where
  returned : List Block
  activity : T → Activity
  map : MemoryMap

variable {T : Type*}

/-- A block that shares no byte with any live one, returned or still in flight. -/
def FreshBlock (s : ThreadState T) (returned : List Block) (b : Block) : Prop :=
  (∀ c ∈ returned, Apart b.segment c.segment) ∧
    ∀ t c, (s.activity t).inFlight = some c → Apart b.segment c.segment

/-- The atomic steps: the underlying call of a handler, or one locked edit. -/
inductive ThreadLabel (T : Type*)
  | allocate (t : T) (b : Block)
  | insert (t : T) (b : Block)
  | release (t : T) (old : Block)
  | releaseNull (t : T)
  | remove (t : T) (addr : Word)
  | reallocate (t : T) (old b : Block)
  | reallocateNull (t : T) (b : Block)
  | reallocRemove (t : T) (addr : Word) (b : Block)

/-- The steps of an interleaving. Released bytes may be handed out again at once. -/
inductive ThreadStep [DecidableEq T] (mode : Mode) :
    ThreadState T → ThreadLabel T → ThreadState T → Prop
  | allocate {s : ThreadState T} (t : T) (b : Block) (hidle : s.activity t = .idle)
      (hfresh : FreshBlock s s.returned b) :
      ThreadStep mode s (.allocate t b)
        { s with activity := Function.update s.activity t (.inserting b) }
  | insert {s : ThreadState T} {m : MemoryMap} (t : T) (b : Block)
      (hactivity : s.activity t = .inserting b)
      (hinsert : s.map.insertSegment mode b.segment = .ok m) :
      ThreadStep mode s (.insert t b)
        ⟨b :: s.returned, Function.update s.activity t .idle, m⟩
  | release {s : ThreadState T} {rest : List Block} (t : T) (old : Block)
      (hidle : s.activity t = .idle) (hreturned : s.returned.Perm (old :: rest)) :
      ThreadStep mode s (.release t old)
        ⟨rest, Function.update s.activity t (.removing old.start), s.map⟩
  | releaseNull {s : ThreadState T} (t : T) (hidle : s.activity t = .idle) :
      ThreadStep mode s (.releaseNull t)
        { s with activity := Function.update s.activity t (.removing 0) }
  | remove {s : ThreadState T} (t : T) (addr : Word) (hactivity : s.activity t = .removing addr) :
      ThreadStep mode s (.remove t addr)
        ⟨s.returned, Function.update s.activity t .idle, s.map.removeSegments addr⟩
  | reallocate {s : ThreadState T} {rest : List Block} (t : T) (old b : Block)
      (hidle : s.activity t = .idle) (hreturned : s.returned.Perm (old :: rest))
      (hfresh : FreshBlock s rest b) :
      ThreadStep mode s (.reallocate t old b)
        ⟨rest, Function.update s.activity t (.reallocating old.start b), s.map⟩
  | reallocateNull {s : ThreadState T} (t : T) (b : Block) (hidle : s.activity t = .idle)
      (hfresh : FreshBlock s s.returned b) :
      ThreadStep mode s (.reallocateNull t b)
        { s with activity := Function.update s.activity t (.reallocating 0 b) }
  | reallocRemove {s : ThreadState T} (t : T) (addr : Word) (b : Block)
      (hactivity : s.activity t = .reallocating addr b) :
      ThreadStep mode s (.reallocRemove t addr b)
        ⟨s.returned, Function.update s.activity t (.inserting b), s.map.removeSegments addr⟩

/-- No removal is still to come for an address inside the block that is inserted. -/
def InsertsSafely (s : ThreadState T) : ThreadLabel T → Prop
  | .insert _ b => ∀ u addr, (s.activity u).pending = some addr → b.segment.contains addr = false
  | _ => True

/-- When no handler is in progress, the segments inserted by the run are those of the blocks that
are live, each once. -/
def QuiescentTracked (fresh : ℕ) (s : ThreadState T) : Prop :=
  (∀ t, s.activity t = .idle) →
    (s.map.insertedSince fresh).Perm (s.returned.map Block.segment)

/-- A state to start from: no handler is in progress, and the list holds the segments of the live
blocks, which are apart. -/
structure Settled (fresh : ℕ) (s : ThreadState T) : Prop where
  idle : ∀ t, s.activity t = .idle
  older : fresh ≤ s.map.segments.fresh
  apart : s.returned.Pairwise fun b c => Apart b.segment c.segment
  tracked : (s.map.insertedSince fresh).Perm (s.returned.map Block.segment)

/-- Before the first call nothing is live and nothing was inserted. -/
theorem Settled.before (m₀ : MemoryMap) :
    Settled m₀.segments.fresh (⟨[], fun _ => .idle, m₀⟩ : ThreadState T) where
  idle := fun _ => rfl
  older := Nat.le_refl _
  apart := List.Pairwise.nil
  tracked := by simp [MemoryMap.insertedSince_fresh]

/-- The invariant: live blocks are apart, no returned block contains an address to be removed, and
the list holds the segments of the returned blocks and stale ones, each of which some thread
is about to remove. -/
structure ThreadInvariant (fresh : ℕ) (s : ThreadState T) : Prop where
  older : fresh ≤ s.map.segments.fresh
  apart : s.returned.Pairwise fun b c => Apart b.segment c.segment
  apartInFlight : ∀ t b, (s.activity t).inFlight = some b →
    ∀ c ∈ s.returned, Apart b.segment c.segment
  inFlightApart : ∀ t u b c, t ≠ u → (s.activity t).inFlight = some b →
    (s.activity u).inFlight = some c → Apart b.segment c.segment
  clear : ∀ t addr, (s.activity t).pending = some addr →
    ∀ b ∈ s.returned, b.segment.contains addr = false
  tracked : ∃ stale, (s.map.insertedSince fresh).Perm (s.returned.map Block.segment ++ stale) ∧
    ∀ old ∈ stale, ∃ t addr, (s.activity t).pending = some addr ∧ old.contains addr = true

namespace ThreadInvariant

variable {fresh : ℕ} {s s' : ThreadState T} {mode : Mode} {label : ThreadLabel T}

/-- A settled state keeps the invariant. -/
theorem start (h : Settled fresh s) : ThreadInvariant fresh s where
  older := h.older
  apart := h.apart
  apartInFlight := fun t => by simp [h.idle t, Activity.inFlight]
  inFlightApart := fun t => by simp [h.idle t, Activity.inFlight]
  clear := fun t => by simp [h.idle t, Activity.pending]
  tracked := ⟨[], by simpa using h.tracked, by simp⟩

/-- With every thread idle no segment is stale. -/
theorem quiescent (h : ThreadInvariant fresh s) : QuiescentTracked fresh s := by
  intro hidle
  obtain ⟨stale, hperm, hstale⟩ := h.tracked
  have hnone : stale = [] := by
    rw [List.eq_nil_iff_forall_not_mem]
    intro old hold
    obtain ⟨t, addr, hpending, -⟩ := hstale old hold
    rw [hidle t] at hpending
    exact absurd hpending (by simp [Activity.pending])
  rwa [hnone, List.append_nil] at hperm

variable [DecidableEq T]

section Update

variable {β : Type*} (f : Activity → Option β) (activity : T → Activity) (t u : T) {a : Activity}
  {x : β}

/-- What an updated thread table says comes from the updated thread or from another one. -/
theorem of_update (h : f (Function.update activity t a u) = some x) :
    u = t ∧ f a = some x ∨ u ≠ t ∧ f (activity u) = some x := by
  by_cases hu : u = t
  · rw [hu, Function.update_self] at h
    exact Or.inl ⟨hu, h⟩
  · rw [Function.update_of_ne hu] at h
    exact Or.inr ⟨hu, h⟩

/-- It comes from another thread when the updated one has nothing to say. -/
theorem of_update_none (hnone : f a = none)
    (h : f (Function.update activity t a u) = some x) : u ≠ t ∧ f (activity u) = some x :=
  (of_update f activity t u h).resolve_left fun hself =>
    absurd (hnone.symm.trans hself.2) (by simp)

/-- What a thread says stays when a thread that had nothing to say is updated. -/
theorem update_of_none (hnone : f (activity t) = none) (h : f (activity u) = some x) :
    f (Function.update activity t a u) = some x := by
  have hu : u ≠ t := by
    intro hu
    rw [hu, hnone] at h
    exact absurd h (by simp)
  rwa [Function.update_of_ne hu]

end Update

/-- A thread that gets a fresh block, and owes the same removal as before, keeps the invariant. -/
theorem hold (h : ThreadInvariant fresh s) {t : T} {a : Activity} {b : Block}
    (hpending : a.pending = (s.activity t).pending) (hb : a.inFlight = some b)
    (hfresh : FreshBlock s s.returned b) :
    ThreadInvariant fresh { s with activity := Function.update s.activity t a } where
  older := h.older
  apart := h.apart
  apartInFlight := by
    intro u c hc
    cases of_update Activity.inFlight s.activity t u hc with
    | inl hself =>
      rw [← Option.some.inj (hb.symm.trans hself.2)]
      exact hfresh.1
    | inr hother => exact h.apartInFlight u c hother.2
  inFlightApart := by
    intro u v c d huv hc hd
    cases of_update Activity.inFlight s.activity t u hc with
    | inl hself =>
      cases of_update Activity.inFlight s.activity t v hd with
      | inl hself' => exact absurd (hself.1.trans hself'.1.symm) huv
      | inr hother =>
        rw [← Option.some.inj (hb.symm.trans hself.2)]
        exact hfresh.2 v d hother.2
    | inr hother =>
      cases of_update Activity.inFlight s.activity t v hd with
      | inl hself =>
        rw [← Option.some.inj (hb.symm.trans hself.2)]
        exact (hfresh.2 u c hother.2).symm
      | inr hother' => exact h.inFlightApart u v c d huv hother.2 hother'.2
  clear := by
    intro u addr haddr
    cases of_update Activity.pending s.activity t u haddr with
    | inl hself => exact h.clear t addr (hpending ▸ hself.2)
    | inr hother => exact h.clear u addr hother.2
  tracked := by
    obtain ⟨stale, hperm, hstale⟩ := h.tracked
    refine ⟨stale, hperm, fun old hold => ?_⟩
    obtain ⟨u, addr, haddr, hcontains⟩ := hstale old hold
    refine ⟨u, addr, ?_, hcontains⟩
    by_cases hu : u = t
    · change (Function.update s.activity t a u).pending = some addr
      rw [hu, Function.update_self, hpending, ← hu]
      exact haddr
    · change (Function.update s.activity t a u).pending = some addr
      rwa [Function.update_of_ne hu]

/-- A thread whose block is inserted safely keeps the invariant. -/
theorem insert (h : ThreadInvariant fresh s) {t : T} {b : Block} {m : MemoryMap}
    (hactivity : s.activity t = .inserting b)
    (hinsert : s.map.insertSegment mode b.segment = .ok m)
    (hsafe : InsertsSafely s (.insert t b)) :
    ThreadInvariant fresh ⟨b :: s.returned, Function.update s.activity t .idle, m⟩ := by
  obtain ⟨-, rfl⟩ := MemoryMap.insertSegment_eq_ok hinsert
  have hb : (s.activity t).inFlight = some b := by rw [hactivity]; rfl
  have hother : ∀ u c, (Function.update s.activity t .idle u).inFlight = some c →
      u ≠ t ∧ (s.activity u).inFlight = some c := by
    intro u c hc
    exact of_update_none Activity.inFlight s.activity t u rfl hc
  exact {
    older := Nat.le_succ_of_le h.older
    apart := List.pairwise_cons.mpr ⟨h.apartInFlight t b hb, h.apart⟩
    apartInFlight := by
      intro u c hc
      obtain ⟨hu, hc⟩ := hother u c hc
      exact List.forall_mem_cons.mpr
        ⟨h.inFlightApart u t c b hu hc hb, h.apartInFlight u c hc⟩
    inFlightApart := fun u v c d huv hc hd =>
      h.inFlightApart u v c d huv (hother u c hc).2 (hother v d hd).2
    clear := by
      intro u addr haddr
      have hpending := of_update_none Activity.pending s.activity t u rfl haddr
      exact List.forall_mem_cons.mpr ⟨hsafe u addr hpending.2, h.clear u addr hpending.2⟩
    tracked := by
      obtain ⟨stale, hperm, hstale⟩ := h.tracked
      refine ⟨stale, ?_, fun old hold => ?_⟩
      · change ((s.map.appendSegment b.segment).insertedSince fresh).Perm _
        rw [MemoryMap.insertedSince_appendSegment h.older]
        exact (List.perm_append_singleton _ _).trans (hperm.cons _)
      · obtain ⟨u, addr, haddr, hcontains⟩ := hstale old hold
        have hnone : (s.activity t).pending = none := by rw [hactivity]; rfl
        exact ⟨u, addr, update_of_none Activity.pending s.activity t u hnone haddr, hcontains⟩ }

/-- An idle thread that comes to owe a removal keeps the invariant, where the blocks containing the
address are just those that are given up. Their segments are stale from then on. -/
theorem owe (h : ThreadInvariant fresh s) {t : T} {addr : Word} (gone : List Block)
    {rest : List Block} (hidle : s.activity t = .idle) (hreturned : s.returned.Perm (gone ++ rest))
    (hgone : ∀ b ∈ gone, b.segment.contains addr = true)
    (hclear : ∀ b ∈ rest, b.segment.contains addr = false) :
    ThreadInvariant fresh ⟨rest, Function.update s.activity t (.removing addr), s.map⟩ := by
  have hrest : ∀ b ∈ rest, b ∈ s.returned :=
    fun b hb => hreturned.mem_iff.mpr (List.mem_append_right _ hb)
  have hother : ∀ u c, (Function.update s.activity t (.removing addr) u).inFlight = some c →
      (s.activity u).inFlight = some c := by
    intro u c hc
    exact (of_update_none Activity.inFlight s.activity t u rfl hc).2
  have hapart := (hreturned.pairwise_iff fun hbc => Apart.symm hbc).mp h.apart
  exact {
    older := h.older
    apart := (List.pairwise_append.mp hapart).2.1
    apartInFlight := fun u c hc b hb => h.apartInFlight u c (hother u c hc) b (hrest b hb)
    inFlightApart := fun u v c d huv hc hd =>
      h.inFlightApart u v c d huv (hother u c hc) (hother v d hd)
    clear := by
      intro u pending hpending
      cases of_update Activity.pending s.activity t u hpending with
      | inl hself => rwa [← Option.some.inj hself.2]
      | inr hold => exact fun b hb => h.clear u pending hold.2 b (hrest b hb)
    tracked := by
      obtain ⟨stale, hperm, hstale⟩ := h.tracked
      have hmap : (s.returned.map Block.segment).Perm
          (rest.map Block.segment ++ gone.map Block.segment) := by
        rw [← List.map_append]
        exact (hreturned.trans List.perm_append_comm).map _
      refine ⟨gone.map Block.segment ++ stale, ?_, fun old hold => ?_⟩
      · rw [← List.append_assoc]
        exact hperm.trans (hmap.append_right stale)
      · cases List.mem_append.mp hold with
        | inl hnew =>
          obtain ⟨b, hb, rfl⟩ := List.mem_map.mp hnew
          exact ⟨t, addr, by simp [Activity.pending], hgone b hb⟩
        | inr hold =>
          obtain ⟨u, pending, hpending, hcontains⟩ := hstale old hold
          have hnone : (s.activity t).pending = none := by rw [hidle]; rfl
          exact ⟨u, pending, update_of_none Activity.pending s.activity t u hnone hpending,
            hcontains⟩ }

/-- A thread that releases a returned block owes the removal of its segment. -/
theorem release (h : ThreadInvariant fresh s) {t : T} {old : Block} {rest : List Block}
    (hidle : s.activity t = .idle) (hreturned : s.returned.Perm (old :: rest)) :
    ThreadInvariant fresh
      ⟨rest, Function.update s.activity t (.removing old.start), s.map⟩ := by
  have hapart := (hreturned.pairwise_iff fun hbc => Apart.symm hbc).mp h.apart
  have hgone : ∀ b ∈ [old], b.segment.contains old.start = true := by
    intro b hb
    rw [List.mem_singleton.mp hb]
    exact old.segment_contains_start
  exact h.owe [old] hidle hreturned hgone fun b hb =>
    (List.pairwise_cons.mp hapart).1 b hb _ old.segment_contains_start

/-- Releasing the null pointer owes a removal at an address that no block contains. -/
theorem releaseNull (h : ThreadInvariant fresh s) {t : T} (hidle : s.activity t = .idle) :
    ThreadInvariant fresh { s with activity := Function.update s.activity t (.removing 0) } :=
  h.owe [] hidle (List.Perm.refl _) (by simp) fun b _ => b.segment_contains_zero

/-- A removal takes stale segments only. -/
theorem remove (h : ThreadInvariant fresh s) {t : T} {addr : Word}
    (hpending : (s.activity t).pending = some addr) :
    ThreadInvariant fresh
      ⟨s.returned, Function.update s.activity t .idle, s.map.removeSegments addr⟩ := by
  have hother : ∀ u c, (Function.update s.activity t .idle u).inFlight = some c →
      (s.activity u).inFlight = some c := by
    intro u c hc
    exact (of_update_none Activity.inFlight s.activity t u rfl hc).2
  have hkept : (s.returned.map Block.segment).filter (fun old => !old.contains addr) =
      s.returned.map Block.segment := by
    rw [List.filter_eq_self]
    intro old hold
    obtain ⟨b, hb, rfl⟩ := List.mem_map.mp hold
    simp [h.clear t addr hpending b hb]
  exact {
    older := h.older
    apart := h.apart
    apartInFlight := fun u c hc => h.apartInFlight u c (hother u c hc)
    inFlightApart := fun u v c d huv hc hd =>
      h.inFlightApart u v c d huv (hother u c hc) (hother v d hd)
    clear := by
      intro u pending hpending'
      exact h.clear u pending (of_update_none Activity.pending s.activity t u rfl hpending').2
    tracked := by
      obtain ⟨stale, hperm, hstale⟩ := h.tracked
      refine ⟨stale.filter fun old => !old.contains addr, ?_, fun old hold => ?_⟩
      · rw [MemoryMap.insertedSince_removeSegments]
        have hfiltered := hperm.filter fun old => !old.contains addr
        rwa [List.filter_append, hkept] at hfiltered
      · obtain ⟨hmem, hsurvives⟩ := List.mem_filter.mp hold
        obtain ⟨u, pending, hpending', hcontains⟩ := hstale old hmem
        -- a stale segment that survives waits for the removal of another thread
        have hu : u ≠ t := by
          intro hu
          rw [hu, hpending] at hpending'
          rw [← Option.some.inj hpending'] at hcontains
          simp [hcontains] at hsurvives
        exact ⟨u, pending, by simpa [Function.update_of_ne hu] using hpending', hcontains⟩ }

/-- A thread that has just taken up an activity takes up another one, which owes the same removal
and holds a fresh block. -/
theorem hold_update {returned : List Block} {activity : T → Activity} {m : MemoryMap} {t : T}
    {taken a : Activity} {b : Block}
    (h : ThreadInvariant fresh ⟨returned, Function.update activity t taken, m⟩)
    (hpending : a.pending = taken.pending) (hb : a.inFlight = some b)
    (hnone : taken.inFlight = none) (hreturned : ∀ c ∈ returned, Apart b.segment c.segment)
    (hother : ∀ u c, u ≠ t → (activity u).inFlight = some c → Apart b.segment c.segment) :
    ThreadInvariant fresh ⟨returned, Function.update activity t a, m⟩ := by
  have hfresh : FreshBlock (⟨returned, Function.update activity t taken, m⟩ : ThreadState T)
      returned b := by
    refine ⟨hreturned, fun u c hc => ?_⟩
    cases of_update Activity.inFlight activity t u hc with
    | inl hself => exact absurd (hnone.symm.trans hself.2) (by simp)
    | inr hold => exact hother u c hold.1 hold.2
  have hnow := h.hold (t := t) (a := a) (by simpa using hpending) hb hfresh
  simpa only [Function.update_idem] using hnow

/-- A step that inserts safely keeps the invariant. -/
theorem step (h : ThreadInvariant fresh s) (hstep : ThreadStep mode s label s')
    (hsafe : InsertsSafely s label) : ThreadInvariant fresh s' := by
  cases hstep with
  | allocate t b hidle hfresh => exact h.hold (by rw [hidle]; rfl) rfl hfresh
  | insert t b hactivity hinsert => exact h.insert hactivity hinsert hsafe
  | release t old hidle hreturned => exact h.release hidle hreturned
  | releaseNull t hidle => exact h.releaseNull hidle
  | remove t addr hactivity => exact h.remove (by rw [hactivity]; rfl)
  | reallocate t old b hidle hreturned hfresh =>
    have hreleased := h.release hidle hreturned
    exact hreleased.hold_update (a := .reallocating old.start b) rfl rfl rfl hfresh.1
      fun u c _ hc => hfresh.2 u c hc
  | reallocateNull t b hidle hfresh =>
    have hreleased := h.releaseNull hidle
    exact hreleased.hold_update (a := .reallocating 0 b) rfl rfl rfl hfresh.1
      fun u c _ hc => hfresh.2 u c hc
  | reallocRemove t addr b hactivity =>
    have hb : (s.activity t).inFlight = some b := by rw [hactivity]; rfl
    have hpending : (s.activity t).pending = some addr := by rw [hactivity]; rfl
    have hremoved := h.remove hpending
    exact hremoved.hold_update (a := .inserting b) rfl rfl rfl (h.apartInFlight t b hb)
      fun u c hu hc => h.inFlightApart t u b c (Ne.symm hu) hb hc

end ThreadInvariant

/-- In every interleaving of the handlers in which no block is inserted while another thread has
still to remove a segment at an address inside it, the list holds exactly one segment for each
live block whenever no handler is in progress. -/
theorem threads_tracked [DecidableEq T] (mode : Mode) (fresh : ℕ) (s : ThreadState T)
    (trace : List (ThreadLabel T × ThreadState T)) (hstart : Settled fresh s)
    (hrun : Run (ThreadStep mode) s trace) (hsafe : Guarded InsertsSafely s trace) :
    Throughout (QuiescentTracked fresh) trace := by
  have hkeep : ∀ (s : ThreadState T) label s', ThreadInvariant fresh s →
      ThreadStep mode s label s' → InsertsSafely s label → ThreadInvariant fresh s' :=
    fun _ _ _ h hstep hinserts => h.step hstep hinserts
  exact (hrun.invariant_of_guarded hkeep (.start hstart) hsafe).imp fun _ h => h.quiescent

/-! ## Two threads -/

/-- The state of two threads that share the map: `false` is the first one. -/
def twoThreads (returned : List Block) (first second : Activity) (m : MemoryMap) :
    ThreadState Bool :=
  ⟨returned, fun t => if t then second else first, m⟩

section TwoThreads

variable {mode : Mode} {returned : List Block} {first second a : Activity} {m : MemoryMap}
  {label : ThreadLabel Bool}

/-- A step that changes what the first thread does. -/
theorem ThreadStep.byFirst {s : ThreadState Bool} {returned' : List Block} {m' : MemoryMap}
    (h : ThreadStep mode s label
      ⟨returned', Function.update (twoThreads returned first second m).activity false a, m'⟩) :
    ThreadStep mode s label (twoThreads returned' a second m') := by
  have hupdate : Function.update (twoThreads returned first second m).activity false a =
      (twoThreads returned' a second m').activity := by
    funext t
    cases t <;> rfl
  rwa [hupdate] at h

/-- A step that changes what the second thread does. -/
theorem ThreadStep.bySecond {s : ThreadState Bool} {returned' : List Block} {m' : MemoryMap}
    (h : ThreadStep mode s label
      ⟨returned', Function.update (twoThreads returned first second m).activity true a, m'⟩) :
    ThreadStep mode s label (twoThreads returned' first a m') := by
  have hupdate : Function.update (twoThreads returned first second m).activity true a =
      (twoThreads returned' first a m').activity := by
    funext t
    cases t <;> rfl
  rwa [hupdate] at h

/-- With nothing live and nothing in flight every block is fresh. -/
theorem freshBlock_twoThreads (b : Block) (hfirst : first.inFlight = none)
    (hsecond : second.inFlight = none) : FreshBlock (twoThreads [] first second m) [] b := by
  refine ⟨by simp, fun t c hc => ?_⟩
  cases t with
  | false => exact absurd (hfirst.symm.trans hc) (by simp)
  | true => exact absurd (hsecond.symm.trans hc) (by simp)

/-- Two idle threads of a small process with nothing live are settled. -/
theorem settled_smallProcess : Settled 4 (twoThreads [] .idle .idle smallProcess) := by
  have hidle : (fun t => if t then .idle else .idle : Bool → Activity) = fun _ => .idle := by
    funext t
    cases t <;> rfl
  unfold twoThreads
  rw [hidle]
  exact Settled.before smallProcess

/-- The mode that places nothing. -/
def quietMode : Mode := ⟨fun _ => none⟩

/-- A block next to the one of 16 bytes. -/
def nextBlock : Block :=
  ⟨0x7f0000000020, 144, "malloc", false, by decide, by decide, by decide⟩

/-- A thread that releases a block and is overtaken by another one, which inserts the block next to
it, then removes its own segment only. -/
theorem threads_tracked_overtaken :
    let b := mappedBlock
    let c := nextBlock
    let held := smallProcess.appendSegment b.segment
    let both := held.appendSegment c.segment
    let last := both.removeSegments b.start
    let trace := [(ThreadLabel.allocate false b, twoThreads [] (.inserting b) .idle smallProcess),
      (.insert false b, twoThreads [b] .idle .idle held),
      (.release false b, twoThreads [] (.removing b.start) .idle held),
      (.allocate true c, twoThreads [] (.removing b.start) (.inserting c) held),
      (.insert true c, twoThreads [c] (.removing b.start) .idle both),
      (.remove false b.start, twoThreads [c] .idle .idle last)]
    Throughout (QuiescentTracked 4) trace ∧ (last.insertedSince 4).Perm [c.segment] := by
  intro b c held both last trace
  have hfirst : FreshBlock (twoThreads [] .idle .idle smallProcess) [] b :=
    freshBlock_twoThreads b rfl rfl
  have hsecond : FreshBlock (twoThreads [] (.removing b.start) .idle held) [] c :=
    freshBlock_twoThreads c rfl rfl
  have hrun : Run (ThreadStep quietMode) (twoThreads [] .idle .idle smallProcess) trace :=
    .cons (.byFirst (.allocate false b rfl hfirst)) <|
    .cons (.byFirst (.insert false b rfl rfl)) <|
    .cons (.byFirst (.release false b rfl (List.Perm.refl _))) <|
    .cons (.bySecond (.allocate true c rfl hsecond)) <|
    .cons (.bySecond (.insert true c rfl rfl)) <|
    .cons (.byFirst (.remove false b.start rfl)) <| .nil _
  have hnone : InsertsSafely (twoThreads [] (.inserting b) .idle smallProcess)
      (.insert false b) := by
    intro u addr haddr
    cases u <;> exact absurd haddr (by simp [twoThreads, Activity.pending])
  -- the first thread owes the removal at the start of its block, where the other block is not
  have howed : InsertsSafely (twoThreads [] (.removing b.start) (.inserting c) held)
      (.insert true c) := by
    intro u addr haddr
    cases u with
    | false =>
      obtain rfl : b.start = addr := by simpa [twoThreads, Activity.pending] using haddr
      decide
    | true => exact absurd haddr (by simp [twoThreads, Activity.pending])
  have htracked := threads_tracked quietMode 4 _ _ settled_smallProcess hrun
    ⟨trivial, hnone, trivial, trivial, howed, trivial, trivial⟩
  have hlast := htracked (.remove false b.start, twoThreads [c] .idle .idle last) (by simp [trace])
  exact ⟨htracked, hlast fun t => by cases t <;> rfl⟩

/-- A thread that releases a block and is overtaken by another one, which is given the same bytes
and inserts them, then removes the segment of the live block. -/
theorem late_removal_untracks :
    let b := mappedBlock
    let held := smallProcess.appendSegment b.segment
    let twice := held.appendSegment b.segment
    let last := twoThreads [b] .idle .idle (twice.removeSegments b.start)
    Run (ThreadStep quietMode) (twoThreads [] .idle .idle smallProcess)
        [(.allocate false b, twoThreads [] (.inserting b) .idle smallProcess),
          (.insert false b, twoThreads [b] .idle .idle held),
          (.release false b, twoThreads [] (.removing b.start) .idle held),
          (.allocate true b, twoThreads [] (.removing b.start) (.inserting b) held),
          (.insert true b, twoThreads [b] (.removing b.start) .idle twice),
          (.remove false b.start, last)] ∧
      Settled 4 (twoThreads [] .idle .idle smallProcess) ∧ ¬ QuiescentTracked 4 last := by
  intro b held twice last
  have hfirst : FreshBlock (twoThreads [] .idle .idle smallProcess) [] b :=
    freshBlock_twoThreads b rfl rfl
  have hsecond : FreshBlock (twoThreads [] (.removing b.start) .idle held) [] b :=
    freshBlock_twoThreads b rfl rfl
  have hrun : Run (ThreadStep quietMode) (twoThreads [] .idle .idle smallProcess) _ :=
    .cons (.byFirst (.allocate false b rfl hfirst)) <|
    .cons (.byFirst (.insert false b rfl rfl)) <|
    .cons (.byFirst (.release false b rfl (List.Perm.refl _))) <|
    .cons (.bySecond (.allocate true b rfl hsecond)) <|
    .cons (.bySecond (.insert true b rfl rfl)) <|
    .cons (.byFirst (.remove false b.start rfl)) <| .nil _
  refine ⟨hrun, settled_smallProcess, fun htracked => ?_⟩
  have hnone : last.map.insertedSince 4 = [] := by decide
  have hperm := htracked fun t => by cases t <;> rfl
  rw [hnone] at hperm
  exact absurd hperm.length_eq (by simp [last, twoThreads])

end TwoThreads

end Bwap
