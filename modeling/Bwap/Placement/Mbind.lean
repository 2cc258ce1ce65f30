import Bwap.Common.Slices
import Bwap.Common.WordRange
import Bwap.Placement.Page
import Mathlib.Data.Finset.Range
import Mathlib.Data.Rat.Floor
import Mathlib.Data.List.Range

/-!
# Memory policy calls and tilings

A placement function issues `mbind` calls in order and stops the process at the first one
that fails. A list of calls tiles a range when the calls are nonempty, page aligned and
consecutive from the start of the range to its end.
-/

namespace Bwap

open Common

/-- The memory policies the placement functions ask for. -/
inductive MemoryPolicy
  | bind
  | interleave
deriving DecidableEq, Repr

/-- The arguments of one `mbind` call; the node mask is a set of node numbers. -/
structure MbindCall where
  start : Word
  len : Word
  policy : MemoryPolicy
  nodes : Finset ℕ
deriving DecidableEq

/-- A call together with the value of the loop variable at which it was issued. -/
structure IssuedCall extends MbindCall where
  iteration : ℕ
deriving DecidableEq

/-- The calls a placement function issued, and whether one of them failed. -/
structure Placement where
  issued : List IssuedCall
  aborted : Bool
deriving DecidableEq

/-- Issue a call: the process stops if the kernel refuses it. -/
def Placement.issue (mbind : MbindCall → Bool) (call : IssuedCall) (next : Placement) : Placement :=
  if mbind call.toMbindCall then { next with issued := call :: next.issued }
  else ⟨[call], true⟩

/-- Issue a list of calls in order. -/
def Placement.issueAll (mbind : MbindCall → Bool) (calls : List IssuedCall) : Placement :=
  calls.foldr (Placement.issue mbind) ⟨[], false⟩

/-- Unless a call fails, all of them are issued. -/
theorem Placement.issueAll_issued (mbind : MbindCall → Bool) (calls : List IssuedCall)
    (hok : (issueAll mbind calls).aborted = false) : (issueAll mbind calls).issued = calls := by
  induction calls with
  | nil => rfl
  | cons call rest ih =>
    change (issue mbind call (issueAll mbind rest)).aborted = false at hok
    change (issue mbind call (issueAll mbind rest)).issued = call :: rest
    unfold issue at hok ⊢
    split_ifs at hok ⊢ with hcall
    rw [← ih hok]
    simp [ih hok]

/-- Nothing is aborted when the kernel accepts the calls. -/
theorem Placement.issueAll_aborted (mbind : MbindCall → Bool) (calls : List IssuedCall)
    (hok : ∀ call ∈ calls, mbind call.toMbindCall = true) :
    (issueAll mbind calls).aborted = false := by
  induction calls with
  | nil => rfl
  | cons call rest ih =>
    change (issue mbind call (issueAll mbind rest)).aborted = false
    rw [issue, if_pos (hok call List.mem_cons_self)]
    exact ih fun c hc => hok c (List.mem_cons_of_mem _ hc)

/-- Only a call that was issued and refused aborts. -/
theorem Placement.aborted_of_issued (mbind : MbindCall → Bool) (calls : List IssuedCall)
    (hok : ∀ call ∈ (issueAll mbind calls).issued, mbind call.toMbindCall = true) :
    (issueAll mbind calls).aborted = false := by
  induction calls with
  | nil => rfl
  | cons call rest ih =>
    change ∀ c ∈ (issue mbind call (issueAll mbind rest)).issued, _ at hok
    change (issue mbind call (issueAll mbind rest)).aborted = false
    unfold issue at hok ⊢
    split_ifs at hok ⊢ with hcall
    · exact ih fun c hc => hok c (List.mem_cons_of_mem _ hc)
    · exact absurd (hok call List.mem_cons_self) hcall

/-- When nothing is aborted, the kernel accepted every call. -/
theorem Placement.issueAll_accepted (mbind : MbindCall → Bool) (calls : List IssuedCall)
    (hok : (issueAll mbind calls).aborted = false) :
    ∀ call ∈ calls, mbind call.toMbindCall = true := by
  induction calls with
  | nil => simp
  | cons call rest ih =>
    change (issue mbind call (issueAll mbind rest)).aborted = false at hok
    unfold issue at hok
    split_ifs at hok with hcall
    exact List.forall_mem_cons.mpr ⟨hcall, ih hok⟩

/-- A first call is issued, whether the kernel accepts it or not. -/
theorem Placement.issueAll_issued_eq_nil_iff (mbind : MbindCall → Bool)
    (calls : List IssuedCall) : (issueAll mbind calls).issued = [] ↔ calls = [] := by
  cases calls with
  | nil => exact ⟨fun _ => rfl, fun _ => rfl⟩
  | cons call rest =>
    change (issue mbind call (issueAll mbind rest)).issued = [] ↔ _
    unfold issue
    split_ifs
    · simp
    · simp

/-- The conversion of a `double` to `size_t`: truncation towards zero. -/
def truncToSize (x : ℚ) : Word := BitVec.ofInt 64 (if 0 ≤ x then ⌊x⌋ else ⌈x⌉)

/-- A nonnegative number in range is rounded down. -/
theorem truncToSize_toNat {x : ℚ} (hx : 0 ≤ x) (hfit : ⌊x⌋₊ < 2 ^ 64) :
    (truncToSize x).toNat = ⌊x⌋₊ := by
  rw [truncToSize, if_pos hx, ← Int.natCast_floor_eq_floor hx, BitVec.ofInt_natCast,
    BitVec.toNat_ofNat, Nat.mod_eq_of_lt hfit]

/-- A nonnegative number is never increased, also where it does not fit. -/
theorem truncToSize_le {x : ℚ} (hx : 0 ≤ x) : (truncToSize x).toNat ≤ ⌊x⌋₊ := by
  rw [truncToSize, if_pos hx, ← Int.natCast_floor_eq_floor hx, BitVec.ofInt_natCast,
    BitVec.toNat_ofNat]
  exact Nat.mod_le _ _

/-! ## Tilings -/

/-- Each call starts where the one before it ends. -/
def Consecutive : Word → List IssuedCall → Word → Prop
  | start, [], stop => start = stop
  | start, call :: rest, stop => call.start = start ∧ Consecutive (start + call.len) rest stop

/-- The calls cover a range page by page, in order and without overlap. -/
structure Tiles (P : PageSize) (addr len : Word) (calls : List IssuedCall) : Prop where
  nonempty : ∀ call ∈ calls, call.len ≠ 0
  aligned : ∀ call ∈ calls, P.bytes ∣ call.start.toNat ∧ P.bytes ∣ call.len.toNat
  consecutive : Consecutive addr calls (addr + len)
  ascending : calls.Pairwise fun a b => a.start - addr < b.start - addr
  disjoint : calls.Pairwise fun a b => ∀ x, ¬(InRange a.start a.len x ∧ InRange b.start b.len x)
  union : ∀ x, (∃ call ∈ calls, InRange call.start call.len x) ↔ InRange addr len x

/-- The call made for one slice of a budget laid out from an address; none for an empty slice. -/
def sliceCall (addr : Word) (budget : ℕ) (demand : ℕ → ℕ) (policy : MemoryPolicy)
    (nodes : ℕ → Finset ℕ) (i : ℕ) : Option IssuedCall :=
  if slice budget demand i = 0 then none
  else some
    { start := addr + BitVec.ofNat 64 (filled budget demand i)
      len := BitVec.ofNat 64 (slice budget demand i)
      policy := policy
      nodes := nodes i
      iteration := i }

section SliceCalls

variable (P : PageSize) (addr : Word) (budget : ℕ) (demand : ℕ → ℕ) (policy : MemoryPolicy)
  (nodes : ℕ → Finset ℕ)

/-- A running total is a word. -/
theorem toNat_filled {budget : ℕ} (hbudget : budget < 2 ^ 64) (demand : ℕ → ℕ) (i : ℕ) :
    (BitVec.ofNat 64 (filled budget demand i)).toNat = filled budget demand i := by
  rw [BitVec.toNat_ofNat, Nat.mod_eq_of_lt (lt_of_le_of_lt (filled_le budget demand i) hbudget)]

/-- A slice is a word. -/
theorem toNat_slice {budget : ℕ} (hbudget : budget < 2 ^ 64) (demand : ℕ → ℕ) (i : ℕ) :
    (BitVec.ofNat 64 (slice budget demand i)).toNat = slice budget demand i := by
  rw [BitVec.toNat_ofNat, Nat.mod_eq_of_lt (lt_of_le_of_lt (slice_le budget demand i) hbudget)]

/-- Running totals grow by slices, also as words. -/
theorem ofNat_filled_succ (budget : ℕ) (demand : ℕ → ℕ) (i : ℕ) :
    BitVec.ofNat 64 (filled budget demand i) + BitVec.ofNat 64 (slice budget demand i) =
      BitVec.ofNat 64 (filled budget demand (i + 1)) := by
  rw [filled_succ, BitVec.ofNat_add]

/-- A slice that is not empty is not empty as a word. -/
theorem ofNat_slice_ne_zero {budget : ℕ} (hbudget : budget < 2 ^ 64) {demand : ℕ → ℕ} {i : ℕ}
    (hslice : slice budget demand i ≠ 0) : BitVec.ofNat 64 (slice budget demand i) ≠ 0 := by
  intro hzero
  have hword := congrArg BitVec.toNat hzero
  rw [toNat_slice hbudget] at hword
  exact hslice hword

/-- Once the budget is used up no call is made. -/
theorem sliceCalls_of_full {i : ℕ} (hfull : filled budget demand i = budget) (count : ℕ) :
    (List.range' i count).filterMap (sliceCall addr budget demand policy nodes) = [] := by
  rw [List.filterMap_eq_nil_iff]
  intro j hj
  have hmono := filled_mono budget demand (List.mem_range'_1.mp hj).1
  have hzero : slice budget demand j = 0 := by
    simp only [slice]
    omega
  exact if_pos hzero

/-- No call is made if and only if nothing is handed out. -/
theorem sliceCalls_eq_nil_iff (n : ℕ) :
    (List.range n).filterMap (sliceCall addr budget demand policy nodes) = [] ↔
      filled budget demand n = 0 := by
  induction n with
  | zero => simp
  | succ n ih =>
    rw [List.range_succ, List.filterMap_append, List.append_eq_nil_iff, ih, filled_succ,
      Nat.add_eq_zero_iff]
    by_cases hempty : slice budget demand n = 0
    · simp [sliceCall, hempty]
    · simp [sliceCall, hempty]

/-- The slices laid out from an address are consecutive. -/
theorem consecutive_sliceCalls (i count : ℕ) :
    Consecutive (addr + BitVec.ofNat 64 (filled budget demand i))
      ((List.range' i count).filterMap (sliceCall addr budget demand policy nodes))
      (addr + BitVec.ofNat 64 (filled budget demand (i + count))) := by
  induction count generalizing i with
  | zero => simp [Consecutive]
  | succ count ih =>
    have hrest := ih (i + 1)
    rw [Nat.add_right_comm, Nat.add_assoc] at hrest
    rw [List.range'_succ]
    by_cases hempty : slice budget demand i = 0
    · rw [List.filterMap_cons_none (by simp [sliceCall, hempty])]
      rwa [filled_succ, hempty, Nat.add_zero] at hrest
    · rw [List.filterMap_cons_some (by simp only [sliceCall, if_neg hempty]; rfl)]
      refine ⟨rfl, ?_⟩
      rwa [filled_succ, BitVec.ofNat_add, ← BitVec.add_assoc] at hrest

/-- The call for a slice covers the distances between two running totals. -/
theorem inRange_sliceCall_iff {addr : Word} {budget : ℕ} {demand : ℕ → ℕ} {policy : MemoryPolicy}
    {nodes : ℕ → Finset ℕ} (hbudget : budget < 2 ^ 64) {i : ℕ} {call : IssuedCall}
    (hcall : sliceCall addr budget demand policy nodes i = some call) (x : Word) :
    InRange call.start call.len x ↔
      filled budget demand i ≤ (x - addr).toNat ∧
        (x - addr).toNat < filled budget demand (i + 1) := by
  have hnext := filled_le budget demand (i + 1)
  have hsucc := filled_succ budget demand i
  unfold sliceCall at hcall
  split_ifs at hcall
  obtain rfl := Option.some.inj hcall
  have hstart := toNat_filled hbudget demand i
  have hlen := toNat_slice hbudget demand i
  have hfit : (BitVec.ofNat 64 (filled budget demand i)).toNat +
      (BitVec.ofNat 64 (slice budget demand i)).toNat ≤ 2 ^ 64 := by omega
  rw [inRange_add_iff addr _ _ x hfit, hstart, hlen, hsucc]

/-- The call for a slice, read back. -/
theorem sliceCall_eq_some_iff {i : ℕ} {call : IssuedCall} :
    sliceCall addr budget demand policy nodes i = some call ↔
      slice budget demand i ≠ 0 ∧ call =
        { start := addr + BitVec.ofNat 64 (filled budget demand i)
          len := BitVec.ofNat 64 (slice budget demand i)
          policy := policy
          nodes := nodes i
          iteration := i } := by
  unfold sliceCall
  split_ifs with hempty
  · simp [hempty]
  · simp [hempty, eq_comm]

/-- A pass of a loop issues the call of its slice before those of the rest, and none for an empty
slice. -/
theorem issueAll_sliceCalls {budget : ℕ} (hbudget : budget < 2 ^ 64) (mbind : MbindCall → Bool)
    (i count : ℕ) :
    let next := Placement.issueAll mbind
      ((List.range' (i + 1) count).filterMap (sliceCall addr budget demand policy nodes))
    Placement.issueAll mbind
        ((List.range' i (count + 1)).filterMap (sliceCall addr budget demand policy nodes)) =
      if BitVec.ofNat 64 (slice budget demand i) ≠ 0 then
        Placement.issue mbind ⟨⟨addr + BitVec.ofNat 64 (filled budget demand i),
          BitVec.ofNat 64 (slice budget demand i), policy, nodes i⟩, i⟩ next
      else next := by
  intro next
  rw [List.range'_succ]
  by_cases hempty : slice budget demand i = 0
  · have hskip : sliceCall addr budget demand policy nodes i = none := if_pos hempty
    rw [List.filterMap_cons_none hskip, hempty]
    rfl
  · have hcall := ofNat_slice_ne_zero hbudget hempty
    have hmake : sliceCall addr budget demand policy nodes i = some _ :=
      (sliceCall_eq_some_iff _ _ _ _ _).mpr ⟨hempty, rfl⟩
    rw [if_pos hcall, List.filterMap_cons_some hmake]
    rfl

/-- The calls for the slices do not overlap. -/
theorem disjoint_sliceCalls {budget : ℕ} (hbudget : budget < 2 ^ 64) (n : ℕ) :
    ((List.range n).filterMap (sliceCall addr budget demand policy nodes)).Pairwise
      fun a b => ∀ x, ¬(InRange a.start a.len x ∧ InRange b.start b.len x) := by
  rw [List.pairwise_filterMap]
  refine List.pairwise_lt_range.imp fun {i j} hij a ha b hb x hx => ?_
  have hi := (inRange_sliceCall_iff hbudget ha x).mp hx.1
  have hj := (inRange_sliceCall_iff hbudget hb x).mp hx.2
  exact absurd (slice_unique budget demand hi hj) (by omega)

/-- Together they cover the distances below the last running total. -/
theorem inRange_sliceCalls_iff {budget : ℕ} (hbudget : budget < 2 ^ 64) (n : ℕ) (x : Word) :
    (∃ call ∈ (List.range n).filterMap (sliceCall addr budget demand policy nodes),
        InRange call.start call.len x) ↔ (x - addr).toNat < filled budget demand n := by
  apply Iff.intro
  · intro h
    obtain ⟨call, hcall, hx⟩ := h
    obtain ⟨i, hi, hmake⟩ := List.mem_filterMap.mp hcall
    have hbelow := ((inRange_sliceCall_iff hbudget hmake x).mp hx).2
    exact hbelow.trans_le (filled_mono budget demand (Nat.succ_le_of_lt (List.mem_range.mp hi)))
  · intro hx
    obtain ⟨i, hin, hslice⟩ := exists_slice_of_lt budget demand hx
    have hempty : slice budget demand i ≠ 0 := by
      have hsucc := filled_succ budget demand i
      omega
    have hcall := (sliceCall_eq_some_iff addr budget demand policy nodes).mpr ⟨hempty, rfl⟩
    exact ⟨_, List.mem_filterMap.mpr ⟨i, List.mem_range.mpr hin, hcall⟩,
      (inRange_sliceCall_iff hbudget hcall x).mpr hslice⟩

/-- Slices that use up a budget of whole pages, each one of whole pages, tile the range the
budget stands for. -/
theorem tiles_sliceCalls {n : ℕ} (hbudget : budget < 2 ^ 64) (haddr : P.bytes ∣ addr.toNat)
    (hpages : P.bytes ∣ budget) (hdemand : ∀ i, P.bytes ∣ demand i)
    (hfull : filled budget demand n = budget) :
    Tiles P addr (BitVec.ofNat 64 budget)
      ((List.range n).filterMap (sliceCall addr budget demand policy nodes)) where
  nonempty := by
    intro call hcall
    obtain ⟨i, -, hi⟩ := List.mem_filterMap.mp hcall
    obtain ⟨hslice, rfl⟩ := (sliceCall_eq_some_iff _ _ _ _ _).mp hi
    exact ofNat_slice_ne_zero hbudget hslice
  aligned := by
    intro call hcall
    obtain ⟨i, -, hi⟩ := List.mem_filterMap.mp hcall
    obtain ⟨-, rfl⟩ := (sliceCall_eq_some_iff _ _ _ _ _).mp hi
    have hfilled := dvd_filled budget demand hpages hdemand
    have hslice : P.bytes ∣ slice budget demand i := by
      have hnext := hfilled (i + 1)
      rw [filled_succ] at hnext
      exact (Nat.dvd_add_right (hfilled i)).mp hnext
    simp only [BitVec.toNat_add, BitVec.toNat_ofNat]
    exact ⟨(Nat.dvd_mod_iff P.bytes_dvd).mpr
      (Nat.dvd_add haddr ((Nat.dvd_mod_iff P.bytes_dvd).mpr (hfilled i))),
      (Nat.dvd_mod_iff P.bytes_dvd).mpr hslice⟩
  consecutive := by
    have h := consecutive_sliceCalls addr budget demand policy nodes 0 n
    simpa [List.range_eq_range', hfull] using h
  ascending := by
    rw [List.pairwise_filterMap]
    refine List.pairwise_lt_range.imp fun {i j} hij a ha b hb => ?_
    obtain ⟨hi, rfl⟩ := (sliceCall_eq_some_iff _ _ _ _ _).mp ha
    obtain ⟨-, rfl⟩ := (sliceCall_eq_some_iff _ _ _ _ _).mp hb
    have hmono := filled_mono budget demand (show i + 1 ≤ j by omega)
    have hlast := filled_le budget demand j
    rw [filled_succ] at hmono
    simp only [BitVec.add_comm addr, BitVec.add_sub_cancel, BitVec.lt_def, BitVec.toNat_ofNat]
    rw [Nat.mod_eq_of_lt (by omega), Nat.mod_eq_of_lt (by omega)]
    omega
  disjoint := disjoint_sliceCalls addr demand policy nodes hbudget n
  union := by
    intro x
    rw [inRange_sliceCalls_iff addr demand policy nodes hbudget n x, hfull, InRange,
      BitVec.lt_def, BitVec.toNat_ofNat, Nat.mod_eq_of_lt hbudget]

end SliceCalls

end Bwap
