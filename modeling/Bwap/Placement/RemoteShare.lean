import Bwap.Placement.MovePages
import Mathlib.Tactic.Positivity
import Mathlib.Tactic.FieldSimp

/-!
# The remote share of a migration

The pattern in which `move_pages_remote` spreads the pages over a local and a remote node
only ever moves pages to the remote node as the ratio grows, although it is built in two
different ways below and above one half. The table that selects the two nodes, however, gives
the same node twice, so that the requested share is realised only where it is next to
nothing, or where that node is the one that should hold nearly nothing.
-/

namespace Bwap

open Common

/-! ## The pattern -/

section Pattern

variable {α : Type*} {localNode remoteNode : α} (hdistinct : localNode ≠ remoteNode)

include hdistinct in
/-- With the local node beyond the cut-off, the remote pages are the odd ones below it. -/
theorem alternatingNode_local_iff (cut : ℚ) (i : ℕ) :
    alternatingNode localNode remoteNode localNode cut i = remoteNode ↔
      i % 2 = 1 ∧ (i : ℚ) < cut := by
  unfold alternatingNode
  split_ifs with hcut hparity
  · simp [hdistinct, hparity]
  · have hodd : i % 2 = 1 := by omega
    simp [hodd, hcut]
  · simp [hdistinct, hcut]

include hdistinct in
/-- With the remote node beyond the cut-off, they are the odd ones and those from it on. -/
theorem alternatingNode_remote_iff (cut : ℚ) (i : ℕ) :
    alternatingNode localNode remoteNode remoteNode cut i = remoteNode ↔ i % 2 = 1 ∨ cut ≤ i := by
  unfold alternatingNode
  split_ifs with hcut hparity
  · simp [hdistinct, hparity, hcut]
  · have hodd : i % 2 = 1 := by omega
    simp [hodd]
  · simp [not_lt.mp hcut]

include hdistinct in
/-- The remote pages of an array of nodes, for each of the two ways to build it. -/
theorem remoteNodes_getElem?_iff (maxNodes : ℕ) (count : ℤ) (ratio : ℚ) (i : ℕ) :
    (remoteNodes localNode remoteNode maxNodes count ratio)[i]? = some remoteNode ↔
      i < count.toNat ∧
        if ratio ≤ 50 then i % 2 = 1 ∧ (i : ℚ) < ratio / 100 * count * maxNodes
        else i % 2 = 1 ∨ (100 - ratio) / 100 * count * maxNodes ≤ i := by
  unfold remoteNodes
  split_ifs with hhalf
  · rw [← alternatingNode_local_iff hdistinct]
    by_cases hi : i < count.toNat
    · simp [hi]
    · simp [hi]
  · rw [← alternatingNode_remote_iff hdistinct]
    by_cases hi : i < count.toNat
    · simp [hi]
    · simp [hi]

include hdistinct in
/-- A page that is remote at a ratio is remote at every larger one, on both sides of one half. -/
theorem remote_of_le (maxNodes : ℕ) (count : ℤ) {ratio ratio' : ℚ} (hle : ratio ≤ ratio') {i : ℕ}
    (hremote : (remoteNodes localNode remoteNode maxNodes count ratio)[i]? = some remoteNode) :
    (remoteNodes localNode remoteNode maxNodes count ratio')[i]? = some remoteNode := by
  rw [remoteNodes_getElem?_iff hdistinct] at hremote ⊢
  obtain ⟨hi, hremote⟩ := hremote
  have hcount : (0 : ℚ) ≤ count := by exact_mod_cast (by omega : (0 : ℤ) ≤ count)
  refine ⟨hi, ?_⟩
  by_cases hhalf : ratio ≤ 50
  · rw [if_pos hhalf] at hremote
    by_cases hhalf' : ratio' ≤ 50
    · rw [if_pos hhalf']
      have hcut : ratio / 100 * count * maxNodes ≤ ratio' / 100 * count * maxNodes := by gcongr
      exact ⟨hremote.1, hremote.2.trans_le hcut⟩
    · -- above one half every odd page is remote, wherever the cut-off is
      rw [if_neg hhalf']
      exact Or.inl hremote.1
  · rw [if_neg hhalf] at hremote
    rw [if_neg (fun hhalf' => hhalf (hle.trans hhalf'))]
    have hcut : (100 - ratio') / 100 * count * maxNodes ≤
        (100 - ratio) / 100 * count * maxNodes := by gcongr
    exact hremote.imp_right hcut.trans

/-- Nothing is remote at the lower end. -/
theorem remoteNodes_zero (maxNodes : ℕ) (count : ℤ) {node : α}
    (hnode : node ∈ remoteNodes localNode remoteNode maxNodes count 0) : node = localNode := by
  rw [remoteNodes, if_pos (by norm_num)] at hnode
  obtain ⟨i, -, rfl⟩ := List.mem_map.mp hnode
  have hlow : ¬ (i : ℚ) < 0 / 100 * count * maxNodes := by
    rw [zero_div, zero_mul, zero_mul]
    exact not_lt.mpr (Nat.cast_nonneg _)
  rw [alternatingNode, if_neg hlow]

/-- Everything is remote at the upper end. -/
theorem remoteNodes_hundred (maxNodes : ℕ) (count : ℤ) {node : α}
    (hnode : node ∈ remoteNodes localNode remoteNode maxNodes count 100) : node = remoteNode := by
  rw [remoteNodes, if_neg (by norm_num)] at hnode
  obtain ⟨i, -, rfl⟩ := List.mem_map.mp hnode
  have hhigh : ¬ (i : ℚ) < (100 - 100) / 100 * count * maxNodes := by
    rw [sub_self, zero_div, zero_mul, zero_mul]
    exact not_lt.mpr (Nat.cast_nonneg _)
  rw [alternatingNode, if_neg hhigh]

/-- As the ratio grows from nothing to all of the segment, no page moves back. -/
theorem remoteNodes_mono (hdistinct : localNode ≠ remoteNode) (maxNodes : ℕ) (count : ℤ) :
    (∀ ratio ratio' : ℚ, 0 ≤ ratio → ratio ≤ ratio' → ratio' ≤ 100 → ∀ i : ℕ,
        (remoteNodes localNode remoteNode maxNodes count ratio)[i]? = some remoteNode →
          (remoteNodes localNode remoteNode maxNodes count ratio')[i]? = some remoteNode) ∧
      (∀ node ∈ remoteNodes localNode remoteNode maxNodes count 0, node = localNode) ∧
      ∀ node ∈ remoteNodes localNode remoteNode maxNodes count 100, node = remoteNode :=
  ⟨fun _ _ _ hle _ _ hremote => remote_of_le hdistinct maxNodes count hle hremote,
    fun _ => remoteNodes_zero maxNodes count, fun _ => remoteNodes_hundred maxNodes count⟩

end Pattern

/-- Five pages at a quarter and at three quarters. -/
theorem remoteNodes_mono_five_pages :
    remoteNodes false true 2 5 25 = [false, true, false, false, false] ∧
      remoteNodes false true 2 5 75 = [false, true, false, true, true] ∧
      ∀ i : ℕ, (remoteNodes false true 2 5 25)[i]? = some true →
        (remoteNodes false true 2 5 75)[i]? = some true := by
  have hmono := remoteNodes_mono (Bool.false_ne_true) 2 5
  exact ⟨by decide +kernel, by decide +kernel,
    hmono.1 25 75 (by norm_num) (by norm_num) (by norm_num)⟩

/-! ## The table of nodes -/

/-- The worker node, as `get_sum_nww_ww` has it. -/
def workerNode (workers : ℤ) : Option ℕ :=
  if workers = 1 then some 0 else if workers = 2 then some 1 else none

section Table

variable {P : PageSize} {malloc : ℕ → Word → Bool} {movePages : MovePagesCall → Option MoveError}
  {workers : ℤ} {start len : Word} {ratio : ℚ}

/-- The table gives the first node as the local and as the remote one. -/
theorem localNode_eq_remoteNode (workers : ℤ) : localNode workers = 0 ∧ remoteNode workers = 0 := by
  simp [localNode, remoteNode]

/-- A pattern of one node is constant. -/
theorem remoteNodes_self {α : Type*} (node : α) (maxNodes : ℕ) (count : ℤ) (ratio : ℚ) :
    remoteNodes node node maxNodes count ratio = List.replicate count.toNat node := by
  have hconst : ∀ cut, alternatingNode node node node cut = fun _ => node := by
    intro cut
    funext i
    simp [alternatingNode]
  simp [remoteNodes, hconst]

/-- The number of pages on another node than the worker one: none if that is the first node, and
all of them otherwise. -/
theorem countP_nodes {worker : ℕ} (hsmall : len.toNat / P.bytes < 2 ^ 31 / P.bytes)
    {call : MovePagesCall}
    (hcall : (movePagesRemote P malloc movePages 2 workers start len ratio).handed = some call) :
    call.nodes.countP (fun node => decide (node ≠ worker)) =
      if worker = 0 then 0 else len.toNat / P.bytes := by
  obtain ⟨-, rfl⟩ := movePagesRemote_handed_iff.mp hcall
  have hcount : len.toNat / P.bytes < 2 ^ 31 := hsmall.trans_le (Nat.div_le_self _ _)
  obtain ⟨hlocal, hremote⟩ := localNode_eq_remoteNode workers
  simp only [hlocal, hremote, remoteNodes_self, (pageCount_eq P len hcount).1, Int.toNat_natCast,
    List.countP_replicate]
  by_cases hworker : worker = 0
  · simp [hworker]
  · simp [hworker, Ne.symm hworker]

/-- The migration realises the requested share exactly when that is at most one page on the side of
the first node. -/
theorem movePagesRemote_share_iff (P : PageSize) (malloc : ℕ → Word → Bool)
    (movePages : MovePagesCall → Option MoveError) {workers : ℤ} {worker : ℕ}
    (hworker : workerNode workers = some worker) (start len : Word)
    (hsmall : len.toNat / P.bytes < 2 ^ 31 / P.bytes) {ratio : ℚ} (hratio : 0 ≤ ratio)
    (hratio' : ratio ≤ 100) {call : MovePagesCall}
    (hcall : (movePagesRemote P malloc movePages 2 workers start len ratio).handed = some call) :
    |((call.nodes.countP fun node => decide (node ≠ worker) : ℕ) : ℚ) -
        ratio * (len.toNat / P.bytes : ℕ) / 100| ≤ 1 ↔
      workers = 1 ∧ ratio * (len.toNat / P.bytes : ℕ) ≤ 100 ∨
        workers = 2 ∧ (100 - ratio) * (len.toNat / P.bytes : ℕ) ≤ 100 := by
  have hpages : (0 : ℚ) ≤ (len.toNat / P.bytes : ℕ) := Nat.cast_nonneg _
  have hbelow : 0 ≤ ratio * (len.toNat / P.bytes : ℕ) := mul_nonneg hratio hpages
  have habove : 0 ≤ (100 - ratio) * (len.toNat / P.bytes : ℕ) := mul_nonneg (by linarith) hpages
  rw [countP_nodes hsmall hcall]
  unfold workerNode at hworker
  split_ifs at hworker with hone htwo
  · obtain rfl := Option.some.inj hworker
    have hother : workers ≠ 2 := by omega
    rw [if_pos rfl, Nat.cast_zero, zero_sub, abs_neg, abs_of_nonneg (by positivity)]
    simp only [hone, true_and, div_le_one (show (0 : ℚ) < 100 by norm_num)]
    simp
  · obtain rfl := Option.some.inj hworker
    rw [if_neg one_ne_zero]
    have hrest : ((len.toNat / P.bytes : ℕ) : ℚ) - ratio * (len.toNat / P.bytes : ℕ) / 100 =
        (100 - ratio) * (len.toNat / P.bytes : ℕ) / 100 := by ring
    rw [hrest, abs_of_nonneg (by positivity), div_le_one (by norm_num)]
    simp [htwo]

end Table

/-- A hundred pages at a ratio of 99 percent: with two workers, all of them are placed on the first
node, one more than is asked for. -/
theorem movePagesRemote_share_hundred_pages :
    let P := PageSize.fourKiB
    ∃ call, (movePagesRemote P (fun _ _ => true) (fun _ => none) 2 2 0x7f0000000000 0x64000
        99).handed = some call ∧ call.nodes = List.replicate 100 0 ∧
      |((call.nodes.countP fun node => decide (node ≠ 1) : ℕ) : ℚ) -
          99 * ((0x64000 : Word).toNat / P.bytes : ℕ) / 100| ≤ 1 := by
  intro P
  obtain ⟨call, hcall⟩ : ∃ call, (movePagesRemote P (fun _ _ => true) (fun _ => none) 2 2
      0x7f0000000000 0x64000 99).handed = some call := ⟨_, rfl⟩
  have hnodes : call.nodes = List.replicate 100 0 := by
    obtain ⟨-, rfl⟩ := movePagesRemote_handed_iff.mp hcall
    have hcount : (pageCount P 0x64000).toInt.toNat = 100 := by decide
    exact (remoteNodes_self 0 2 _ 99).trans (by rw [hcount])
  exact ⟨call, hcall, hnodes, (movePagesRemote_share_iff P (fun _ _ => true) (fun _ => none) rfl
    0x7f0000000000 0x64000 (by decide) (by norm_num) (by norm_num) hcall).mpr
      (Or.inr ⟨rfl, by decide +kernel⟩)⟩

/-- Four pages at a ratio of one half: with one worker, none of them is placed elsewhere. -/
theorem movePagesRemote_share_four_pages :
    let P := PageSize.fourKiB
    let pages : List Word := [0x7f0000000000, 0x7f0000001000, 0x7f0000002000, 0x7f0000003000]
    (movePagesRemote P (fun _ _ => true) (fun _ => none) 2 1 0x7f0000000000 0x4000 50).handed =
        some ⟨4, pages, [0, 0, 0, 0]⟩ ∧
      ¬ |((([0, 0, 0, 0] : List ℕ).countP fun node => decide (node ≠ 0) : ℕ) : ℚ) -
          50 * (0x4000 / P.bytes : ℕ) / 100| ≤ 1 := by
  decide +kernel

end Bwap
