import Bwap.Common.RoundRobin
import Bwap.Placement.Mbind

/-!
# Uniform interleaving

`force_uniform_interleave` binds a range to the nodes in turns, 64 pages with each call and
what is left with the last one. The loop is given a number of passes it may take and has no
result when these do not suffice.
-/

namespace Bwap

open Common

variable (P : PageSize) (mbind : MbindCall → Bool)

/-- `len_per_call`: the product of two `int`s. -/
def lenPerCall : Word := (BitVec.ofNat 32 64 * BitVec.ofNat 32 P.bytes).signExtend 64

/-- The loop of `force_uniform_interleave`. -/
def forceUniformInterleaveLoop (lenPerCall : Word) (numNodes : ℕ) :
    ℕ → Word → Word → ℕ → ℕ → Option Placement
  | 0, _, _, _, _ => none
  | passes + 1, addr, len, nodeToBind, iteration =>
    if len > 0 then
      let mbindLen := if len < lenPerCall then len else lenPerCall
      let call : IssuedCall := ⟨⟨addr, mbindLen, .bind, {nodeToBind}⟩, iteration⟩
      if mbind call.toMbindCall then
        (forceUniformInterleaveLoop lenPerCall numNodes passes (addr + mbindLen) (len - mbindLen)
          ((nodeToBind + 1) % numNodes) (iteration + 1)).map (Placement.issue mbind call)
      else some ⟨[call], true⟩
    else some ⟨[], false⟩

/-- `force_uniform_interleave`, which stops the process on a length that is not one of pages. -/
def forceUniformInterleave (numNodes passes : ℕ) (addr len : Word) : Option Placement :=
  if len % BitVec.ofNat 64 P.bytes ≠ 0 then some ⟨[], true⟩
  else forceUniformInterleaveLoop mbind (lenPerCall P) numNodes passes addr len 0 0

/-- The bytes of one call. -/
def callBytes : ℕ → ℕ := fun _ => 64 * P.bytes

/-- The calls of the first passes, from a pass on. -/
def uniformCalls (numNodes : ℕ) (addr : Word) (budget start count : ℕ) : List IssuedCall :=
  (List.range' start count).filterMap
    (sliceCall addr budget (callBytes P) .bind fun i => {i % numNodes})

/-- The pages that calls bind to a node. -/
def pagesBound (calls : List IssuedCall) (node : ℕ) : ℕ :=
  (calls.map fun call => if node ∈ call.nodes then call.len.toNat / P.bytes else 0).sum

section Loop

variable {P mbind}

/-- Where 64 pages fit in an `int`, a call is given their bytes. -/
theorem lenPerCall_eq (hint : 64 * P.bytes < 2 ^ 31) :
    lenPerCall P = BitVec.ofNat 64 (64 * P.bytes) := by
  rw [lenPerCall, ← BitVec.ofNat_mul, signExtend_ofNat_of_lt hint]

/-- A call takes its bytes or what is left. -/
theorem mbindLen_eq {budget : ℕ} (hbudget : budget < 2 ^ 64) (hint : 64 * P.bytes < 2 ^ 31)
    (k : ℕ) :
    (if BitVec.ofNat 64 (budget - filled budget (callBytes P) k) < lenPerCall P then
        BitVec.ofNat 64 (budget - filled budget (callBytes P) k) else lenPerCall P) =
      BitVec.ofNat 64 (slice budget (callBytes P) k) := by
  have hless : BitVec.ofNat 64 (budget - filled budget (callBytes P) k) <
      BitVec.ofNat 64 (64 * P.bytes) ↔ budget - filled budget (callBytes P) k < 64 * P.bytes := by
    rw [BitVec.lt_def, BitVec.toNat_ofNat, BitVec.toNat_ofNat, Nat.mod_eq_of_lt (by omega),
      Nat.mod_eq_of_lt (by omega)]
  simp only [lenPerCall_eq hint, hless]
  change _ = BitVec.ofNat 64 (min (64 * P.bytes) (budget - filled budget (callBytes P) k))
  split_ifs with hlt
  · rw [min_eq_right hlt.le]
  · rw [min_eq_left (not_lt.mp hlt)]

/-- While something is left, the loop goes on. -/
theorem left_pos {budget : ℕ} (hbudget : budget < 2 ^ 64) {k : ℕ}
    (hleft : filled budget (callBytes P) k ≠ budget) :
    BitVec.ofNat 64 (budget - filled budget (callBytes P) k) > 0 := by
  have hfilled := filled_le budget (callBytes P) k
  rw [gt_iff_lt, BitVec.lt_def, BitVec.toNat_ofNat, Nat.mod_eq_of_lt (by omega)]
  change 0 < _
  omega

/-- While something is left, a call takes some of it. -/
theorem slice_ne_zero_of_left {budget k : ℕ} (hleft : filled budget (callBytes P) k ≠ budget) :
    slice budget (callBytes P) k ≠ 0 := by
  have hfilled := filled_le budget (callBytes P) k
  have hbytes := P.bytes_pos
  change min (64 * P.bytes) (budget - filled budget (callBytes P) k) ≠ 0
  omega

/-- What a call leaves for the next one, as a word. -/
theorem left_sub_slice (budget : ℕ) (demand : ℕ → ℕ) (k : ℕ) :
    BitVec.ofNat 64 (budget - filled budget demand k) - BitVec.ofNat 64 (slice budget demand k) =
      BitVec.ofNat 64 (budget - filled budget demand (k + 1)) := by
  have hnext := filled_le budget demand (k + 1)
  have hsucc := filled_succ budget demand k
  have hsum : budget - filled budget demand k =
      budget - filled budget demand (k + 1) + slice budget demand k := by omega
  rw [hsum, BitVec.ofNat_add, BitVec.add_sub_cancel]

/-- With more passes than calls that use up the range, the loop issues these calls. -/
theorem forceUniformInterleaveLoop_eq {numNodes : ℕ} (addr : Word) {budget : ℕ}
    (hbudget : budget < 2 ^ 64) (hint : 64 * P.bytes < 2 ^ 31) {k count passes : ℕ}
    (hfull : filled budget (callBytes P) (k + count) = budget) (hpasses : count < passes) :
    forceUniformInterleaveLoop mbind (lenPerCall P) numNodes passes
        (addr + BitVec.ofNat 64 (filled budget (callBytes P) k))
        (BitVec.ofNat 64 (budget - filled budget (callBytes P) k)) (k % numNodes) k =
      some (Placement.issueAll mbind (uniformCalls P numNodes addr budget k count)) := by
  induction count generalizing k passes with
  | zero =>
    obtain ⟨passes, rfl⟩ := Nat.exists_eq_succ_of_ne_zero hpasses.ne'
    rw [Nat.add_zero] at hfull
    rw [hfull, Nat.sub_self]
    rfl
  | succ count ih =>
    obtain ⟨passes, rfl⟩ := Nat.exists_eq_succ_of_ne_zero (Nat.ne_zero_of_lt hpasses)
    have hrest := @ih (k + 1) passes (by rwa [Nat.add_right_comm, Nat.add_assoc])
      (Nat.lt_of_succ_lt_succ hpasses)
    by_cases hleft : filled budget (callBytes P) k = budget
    · have hnone : uniformCalls P numNodes addr budget k (count + 1) = [] :=
        sliceCalls_of_full addr budget (callBytes P) .bind _ hleft (count + 1)
      rw [hnone, hleft, Nat.sub_self]
      rfl
    · have hcall := ofNat_slice_ne_zero hbudget (slice_ne_zero_of_left hleft)
      have hissue : Placement.issueAll mbind (uniformCalls P numNodes addr budget k (count + 1)) =
          Placement.issue mbind ⟨⟨addr + BitVec.ofNat 64 (filled budget (callBytes P) k),
            BitVec.ofNat 64 (slice budget (callBytes P) k), .bind, {k % numNodes}⟩, k⟩
            (Placement.issueAll mbind (uniformCalls P numNodes addr budget (k + 1) count)) := by
        rw [uniformCalls, issueAll_sliceCalls addr _ _ _ hbudget, if_pos hcall]
        rfl
      rw [forceUniformInterleaveLoop, if_pos (left_pos hbudget hleft), hissue]
      simp only [mbindLen_eq hbudget hint, left_sub_slice, Nat.mod_add_mod, BitVec.add_assoc,
        ofNat_filled_succ, hrest]
      split_ifs with haccepted
      · rfl
      · rw [Placement.issue, if_neg haccepted]

end Loop

/-- The number of calls for a range. -/
def callCount (budget : ℕ) : ℕ := (budget + (64 * P.bytes - 1)) / (64 * P.bytes)

section Calls

variable {P mbind} {numNodes budget : ℕ}

/-- The bytes of the first calls. -/
theorem filled_callBytes (budget k : ℕ) :
    filled budget (callBytes P) k = min budget (k * (64 * P.bytes)) := by
  rw [filled_eq_min]
  simp [callBytes]

/-- A call is among those for a range exactly when the calls before it leave something. -/
theorem lt_callCount_iff {k : ℕ} : k < callCount P budget ↔ k * (64 * P.bytes) < budget := by
  have hbytes := P.bytes_pos
  rw [callCount, Nat.lt_iff_add_one_le, Nat.le_div_iff_mul_le (by omega), Nat.add_mul]
  omega

/-- The calls use up the range. -/
theorem filled_callCount (budget : ℕ) :
    filled budget (callBytes P) (callCount P budget) = budget := by
  rw [filled_callBytes, min_eq_left]
  exact not_lt.mp (mt lt_callCount_iff.mpr (lt_irrefl _))

/-- Each of the calls has something to bind. -/
theorem slice_callBytes_ne_zero {k : ℕ} (hk : k < callCount P budget) :
    slice budget (callBytes P) k ≠ 0 := by
  have hleft := lt_callCount_iff.mp hk
  apply slice_ne_zero_of_left
  rw [filled_callBytes]
  omega

/-- All calls but the last one bind 64 pages. -/
theorem slice_callBytes_full {k : ℕ} (hk : k + 1 < callCount P budget) :
    slice budget (callBytes P) k = 64 * P.bytes := by
  have hleft := lt_callCount_iff.mp hk
  apply slice_eq_of_lt budget (callBytes P) (Nat.lt_succ_self k)
  rw [filled_callBytes, min_eq_right hleft.le]
  exact hleft

/-- The call of a pass. -/
def uniformCall (P : PageSize) (numNodes : ℕ) (addr : Word) (budget i : ℕ) : IssuedCall where
  start := addr + BitVec.ofNat 64 (filled budget (callBytes P) i)
  len := BitVec.ofNat 64 (slice budget (callBytes P) i)
  policy := .bind
  nodes := {i % numNodes}
  iteration := i

/-- Every pass makes its call. -/
theorem uniformCalls_eq (numNodes : ℕ) (addr : Word) (budget : ℕ) :
    uniformCalls P numNodes addr budget 0 (callCount P budget) =
      (List.range (callCount P budget)).map (uniformCall P numNodes addr budget) := by
  rw [uniformCalls, ← List.range_eq_range', ← List.filterMap_eq_map]
  apply List.filterMap_congr
  intro i hi
  exact if_neg (slice_callBytes_ne_zero (List.mem_range.mp hi))

/-- The pages bound to a node are those that it is dealt. -/
theorem pagesBound_uniformCalls (addr : Word) (hbudget : budget < 2 ^ 64) (node : ℕ) :
    pagesBound P (uniformCalls P numNodes addr budget 0 (callCount P budget)) node =
      dealt numNodes (fun i => slice budget (callBytes P) i / P.bytes) node
        (callCount P budget) := by
  rw [uniformCalls_eq, pagesBound, List.map_map]
  change _ = ((List.range (callCount P budget)).map _).sum
  refine congrArg List.sum (List.map_congr_left fun i _ => ?_)
  simp only [Function.comp_apply, uniformCall, Finset.mem_singleton, toNat_slice hbudget,
    eq_comm (a := node)]

/-- No node gets more than 64 pages over another one. -/
theorem pagesBound_le_add {a b : ℕ} (addr : Word) (hbudget : budget < 2 ^ 64) (ha : a < numNodes)
    (hb : b < numNodes) :
    pagesBound P (uniformCalls P numNodes addr budget 0 (callCount P budget)) a ≤
      pagesBound P (uniformCalls P numNodes addr budget 0 (callCount P budget)) b + 64 := by
  rw [pagesBound_uniformCalls addr hbudget, pagesBound_uniformCalls addr hbudget]
  cases hcount : callCount P budget with
  | zero => simp [dealt]
  | succ m =>
    apply dealt_le_dealt_add ha hb
    · intro j hj
      rw [slice_callBytes_full (by omega), Nat.mul_div_cancel _ P.bytes_pos]
    · exact Nat.div_le_of_le_mul (by
        rw [Nat.mul_comm]
        exact min_le_left _ _)

end Calls

/-- The check of the length passes for whole pages. -/
theorem umod_bytes_eq_zero {P : PageSize} {len : Word} (hlen : P.bytes ∣ len.toNat) :
    len % BitVec.ofNat 64 P.bytes = 0 := by
  have hbytes := P.bytes_lt
  have hword : (BitVec.ofNat 64 P.bytes).toNat = P.bytes := by
    rw [BitVec.toNat_ofNat]
    exact Nat.mod_eq_of_lt (by omega)
  apply BitVec.eq_of_toNat_eq
  rw [BitVec.toNat_umod, hword]
  exact Nat.mod_eq_zero_of_dvd hlen

/-- The loop ends, and it stops early only at a call that the kernel refuses. Otherwise the calls
tile the range, the nodes take turns and no node gets more than 64 pages over another one. -/
theorem forceUniformInterleave_uniform (numNodes : ℕ) (addr len : Word)
    (hint : 64 * P.bytes < 2 ^ 31) (_hnodes : 0 < numNodes) (haddr : P.bytes ∣ addr.toNat)
    (hlen : P.bytes ∣ len.toNat) :
    ∃ placement,
      (∀ passes, callCount P len.toNat < passes →
        forceUniformInterleave P mbind numNodes passes addr len = some placement) ∧
      ((∀ call ∈ placement.issued, mbind call.toMbindCall = true) →
        placement.aborted = false) ∧
      (placement.aborted = false →
        Tiles P addr len placement.issued ∧
        (∀ c call, placement.issued[c]? = some call →
          call.policy = .bind ∧ call.nodes = {c % numNodes}) ∧
        ∀ a < numNodes, ∀ b < numNodes,
          pagesBound P placement.issued a ≤ pagesBound P placement.issued b + 64) := by
  have hfull := filled_callCount (P := P) len.toNat
  refine ⟨Placement.issueAll mbind (uniformCalls P numNodes addr len.toNat 0
    (callCount P len.toNat)), fun passes hpasses => ?_, Placement.aborted_of_issued mbind _,
    fun hok => ?_⟩
  · have hloop := @forceUniformInterleaveLoop_eq P mbind numNodes addr _ len.isLt hint 0 _ _
      (by rwa [Nat.zero_add]) hpasses
    rw [forceUniformInterleave, if_neg (not_not.mpr (umod_bytes_eq_zero hlen))]
    simpa using hloop
  · rw [Placement.issueAll_issued mbind _ hok]
    refine ⟨?_, fun c call hcall => ?_, fun a ha b hb => pagesBound_le_add addr len.isLt ha hb⟩
    · have htiles := tiles_sliceCalls P addr len.toNat (callBytes P) .bind
        (fun i => {i % numNodes}) len.isLt haddr hlen (fun _ => Nat.dvd_mul_left _ _) hfull
      rw [uniformCalls, ← List.range_eq_range']
      rwa [BitVec.ofNat_toNat, BitVec.setWidth_eq] at htiles
    · rw [uniformCalls_eq, List.getElem?_map] at hcall
      obtain ⟨i, hi, rfl⟩ := Option.map_eq_some_iff.mp hcall
      obtain ⟨hc, rfl⟩ := List.getElem?_eq_some_iff.mp hi
      rw [List.getElem_range]
      exact ⟨rfl, rfl⟩

/-- A hundred pages on three nodes, where the kernel accepts every call. -/
theorem forceUniformInterleave_uniform_three_nodes :
    ∃ placement,
      (∀ passes, callCount .fourKiB (0x64000 : Word).toNat < passes →
        forceUniformInterleave .fourKiB (fun _ => true) 3 passes 0x10000 0x64000 =
          some placement) ∧
      placement.aborted = false ∧ Tiles .fourKiB 0x10000 0x64000 placement.issued ∧
      (∀ c call, placement.issued[c]? = some call → call.policy = .bind ∧ call.nodes = {c % 3}) ∧
      ∀ a < 3, ∀ b < 3, pagesBound .fourKiB placement.issued a ≤
        pagesBound .fourKiB placement.issued b + 64 := by
  obtain ⟨placement, hplacement, haccepted, huniform⟩ :=
    forceUniformInterleave_uniform .fourKiB (fun _ => true) 3 0x10000 0x64000 (by decide)
      (by decide) (by decide) (by decide)
  have hok := haccepted fun _ _ => rfl
  exact ⟨placement, hplacement, hok, huniform hok⟩

end Bwap
