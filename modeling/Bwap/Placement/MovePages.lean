import Bwap.Placement.Weighted
import Mathlib.Data.List.Range
import Mathlib.Tactic.Linarith

/-!
# Migrating a segment page by page

`move_pages_remote` and `move_pages_initial` fill an array with the addresses of the pages
of a segment and one with the node of each page, and hand both to `move_pages`. Page count,
page number and page size are `int`s: their product is a 32-bit one, and its sign is extended
when it is added to the address of the segment.
-/

namespace Bwap

open Common

/-- Why `move_pages` reports failure. -/
inductive MoveError
  | noEntry
  | other
deriving DecidableEq, Repr

/-- What is handed to `move_pages`. -/
structure MovePagesCall where
  count : Word
  pages : List Word
  nodes : List ℕ
deriving DecidableEq

/-- Why a migration ends the process: it exits after a message, divides by zero, `node_ids.at`
throws, or a node is stored outside the array. -/
inductive MigrationStop
  | message (text : String)
  | dividedByZero
  | outOfRange
  | outOfBounds
deriving DecidableEq, Repr

/-- What a migration hands to `move_pages`, and how it ends the process. -/
structure Migration where
  handed : Option MovePagesCall
  stopped : Option MigrationStop
deriving DecidableEq

/-- `page_count`: the quotient of the length by the page size, converted to `int`. -/
def pageCount (P : PageSize) (len : Word) : BitVec 32 :=
  (len / BitVec.ofNat 64 P.bytes).setWidth 32

/-- `pages + i * pagesize`. -/
def pageAddress (P : PageSize) (start : Word) (i : ℕ) : Word :=
  start + (BitVec.ofNat 32 i * BitVec.ofNat 32 P.bytes).signExtend 64

/-- The array `addr` after the loops of both functions. -/
def pageAddresses (P : PageSize) (start : Word) (count : BitVec 32) : List Word :=
  (List.range count.toInt.toNat).map (pageAddress P start)

/-- The check after the three allocations, of addresses, status words and node numbers. -/
def allocates (malloc : ℕ → Word → Bool) (start : Word) (count : BitVec 32) : Bool :=
  decide (start ≠ 0) && malloc 0 (8 * count.signExtend 64) && malloc 1 (count.signExtend 64 * 8) &&
    malloc 2 (count.signExtend 64 * 8)

/-- The call of `move_pages`: an error other than `ENOENT` ends the process. -/
def handOver (movePages : MovePagesCall → Option MoveError) (call : MovePagesCall) : Migration :=
  { handed := some call
    stopped := if movePages call = some .other then some (.message "move_pages") else none }

/-! ## The remote share -/

section Remote

variable {α : Type*} (localNode remoteNode : α)

/-- The node of a page: below the cut-off the pages alternate, from there on all of them are on one
node. -/
def alternatingNode (rest : α) (interleavedPages : ℚ) (i : ℕ) : α :=
  if (i : ℚ) < interleavedPages then if i % 2 = 0 then localNode else remoteNode else rest

/-- The array `nodes` of `move_pages_remote`, for any two nodes. -/
def remoteNodes (maxNodes : ℕ) (count : ℤ) (remoteRatio : ℚ) : List α :=
  if remoteRatio ≤ 50 then
    (List.range count.toNat).map
      (alternatingNode localNode remoteNode localNode (remoteRatio / 100 * count * maxNodes))
  else
    (List.range count.toNat).map
      (alternatingNode localNode remoteNode remoteNode
        ((100 - remoteRatio) / 100 * count * maxNodes))

end Remote

/-- `remote_node`, for a number of workers. -/
def remoteNode (workers : ℤ) : ℕ := if workers = 2 then 0 else 0

/-- `local_node`, for a number of workers. -/
def localNode (workers : ℤ) : ℕ := if workers = 2 then 0 else 0

/-- `move_pages_remote`. -/
def movePagesRemote (P : PageSize) (malloc : ℕ → Word → Bool)
    (movePages : MovePagesCall → Option MoveError) (maxNodes : ℕ) (workers : ℤ) (start len : Word)
    (remoteRatio : ℚ) : Migration :=
  let count := pageCount P len
  if allocates malloc start count then
    handOver movePages
      { count := count.signExtend 64
        pages := pageAddresses P start count
        nodes := remoteNodes (localNode workers) (remoteNode workers) maxNodes count.toInt
          remoteRatio }
  else ⟨none, some (.message "Unable to allocate memory")⟩

/-! ## The initial weights -/

/-- The conversion of a `double` to `int`: truncation towards zero. -/
def truncToInt (x : ℚ) : ℤ := if 0 ≤ x then ⌊x⌋ else ⌈x⌉

/-- `nodes[j] = node_ids.at(j % a)`. -/
def assignPage (nodeIds : List ℕ) (a : ℤ) (nodes : List ℕ) (j : ℤ) :
    Except MigrationStop (List ℕ) :=
  let myNode := j.tmod a
  if a = 0 then .error .dividedByZero
  -- `at` takes an unsigned number, so that a negative one is out of range too
  else if myNode < 0 then .error .outOfRange
  else match nodeIds[myNode.toNat]? with
    | none => .error .outOfRange
    | some id =>
      if 0 ≤ j ∧ j < nodes.length then .ok (nodes.set j.toNat id) else .error .outOfBounds

/-- The values of a loop variable from a bound up to another one. -/
def intsBetween (lower upper : ℤ) : List ℤ :=
  (List.range (upper - lower).toNat).map fun i : ℕ => lower + i

/-- The loop over the nodes in `move_pages_initial`: `w` is the weight already allocated, `a` the
number of nodes that can still receive pages, `iK` the first page without a node. -/
def initialLoop (count : ℤ) :
    List Record → List ℕ → ℤ → ℚ → ℤ → List ℕ → Except MigrationStop (List ℕ)
  | [], _, _, _, _, nodes => .ok nodes
  | node :: rest, nodeIds, a, w, iK, nodes =>
    let b := node.weight - w
    let share := a * (b / 100) * count
    let rPages := count - iK
    let iP : ℚ := if share > rPages then rPages else share
    if iK = count then .ok nodes
    else do
      let upperBound := truncToInt (iK + iP)
      let nodes ← if iP ≠ 0 then (intsBetween iK upperBound).foldlM (assignPage nodeIds a) nodes
        else pure nodes
      initialLoop count rest nodeIds.tail (a - 1) node.weight upperBound nodes

/-- `move_pages_initial`, with `nodes_info` as its table. -/
def movePagesInitial (P : PageSize) (malloc : ℕ → Word → Bool)
    (movePages : MovePagesCall → Option MoveError) (nodesInfo : List Record) (start len : Word) :
    Migration :=
  let count := pageCount P len
  if allocates malloc start count then
    match initialLoop count.toInt nodesInfo (nodesInfo.map Record.id) nodesInfo.length 0 0
        (List.replicate count.toInt.toNat 0) with
    | .error stop => ⟨none, some stop⟩
    | .ok nodes => handOver movePages ⟨count.signExtend 64, pageAddresses P start count, nodes⟩
  else ⟨none, some (.message "Unable to allocate memory")⟩

/-! ## The pages handed over -/

/-- The pages handed over are those of the segment: one for each whole page, at the address of the
page as a number, and so distinct and inside the segment. -/
structure ExactPages (P : PageSize) (start len : Word) (call : MovePagesCall) : Prop where
  count : call.count.toNat = len.toNat / P.bytes
  entries : call.pages.map BitVec.toNat =
    (List.range (len.toNat / P.bytes)).map fun i => start.toNat + i * P.bytes
  distinct : call.pages.Nodup
  inside : ∀ page ∈ call.pages,
    start.toNat ≤ page.toNat ∧ page.toNat < start.toNat + len.toNat

/-- The number of pages and the offset of every page fit an `int`. -/
def FitsInt (P : PageSize) (len : Word) : Prop :=
  len.toNat / P.bytes < 2 ^ 31 ∧ len.toNat / P.bytes ≤ 2 ^ 31 / P.bytes

section Pages

variable (P : PageSize) (start len : Word)

/-- The page count keeps the low bits of the number of pages. -/
theorem pageCount_toNat : (pageCount P len).toNat = len.toNat / P.bytes % 2 ^ 32 := by
  have hbytes : P.bytes < 2 ^ 64 := P.bytes_lt.trans (by decide)
  rw [pageCount, BitVec.toNat_setWidth, BitVec.toNat_udiv, BitVec.toNat_ofNat,
    Nat.mod_eq_of_lt hbytes]

/-- A page count in the range of `int` is the number of pages. -/
theorem pageCount_eq (hcount : len.toNat / P.bytes < 2 ^ 31) :
    (pageCount P len).toInt = ((len.toNat / P.bytes : ℕ) : ℤ) ∧
      ((pageCount P len).signExtend 64).toNat = len.toNat / P.bytes := by
  have hlen := len.isLt
  have hle : len.toNat / P.bytes ≤ len.toNat := Nat.div_le_self _ _
  have hword : pageCount P len = BitVec.ofNat 32 (len.toNat / P.bytes) := by
    apply BitVec.eq_of_toNat_eq
    rw [pageCount_toNat, BitVec.toNat_ofNat]
  have htoNat : (pageCount P len).toNat = len.toNat / P.bytes := by
    rw [pageCount_toNat, Nat.mod_eq_of_lt (hcount.trans (by decide))]
  apply And.intro
  · rw [BitVec.toInt_eq_toNat_of_lt (by omega), htoNat]
  · rw [hword, signExtend_ofNat_of_lt hcount, BitVec.toNat_ofNat, Nat.mod_eq_of_lt (by omega)]

/-- The loop visits all pages only when their number is in the range of `int`. -/
theorem lt_of_pageCount (hcount : (pageCount P len).toInt.toNat = len.toNat / P.bytes) :
    len.toNat / P.bytes < 2 ^ 31 := by
  have hhigh : 2 * (pageCount P len).toInt < 2 ^ 32 := BitVec.two_mul_toInt_lt
  omega

/-- An offset in the range of `int` is added as a number. -/
theorem pageAddress_toNat {i : ℕ} (hoffset : i * P.bytes < 2 ^ 31)
    (hfit : start.toNat + i * P.bytes < 2 ^ 64) :
    (pageAddress P start i).toNat = start.toNat + i * P.bytes := by
  rw [pageAddress, ← BitVec.ofNat_mul, signExtend_ofNat_of_lt hoffset, BitVec.toNat_add,
    BitVec.toNat_ofNat, Nat.mod_eq_of_lt (show i * P.bytes < 2 ^ 64 by omega),
    Nat.mod_eq_of_lt hfit]

/-- The first offset beyond that range is subtracted. -/
theorem pageAddress_of_offset {i : ℕ} (hoffset : i * P.bytes = 2 ^ 31) :
    pageAddress P start i = start - BitVec.ofNat 64 (2 ^ 31) := by
  rw [pageAddress, ← BitVec.ofNat_mul, hoffset, signExtend_two_pow, BitVec.sub_eq_add_neg]

/-- The page size divides the range of `int`. -/
theorem bytes_dvd_two_pow : P.bytes ∣ 2 ^ 31 := by
  have hshift := P.shift_lt
  exact Nat.pow_dvd_pow 2 (by omega)

/-- The pages in the array, as numbers, when the page count and all offsets fit an `int`. -/
theorem pageAddresses_toNat (hfits : FitsInt P len) (htop : start.toNat + len.toNat ≤ 2 ^ 64) :
    (pageAddresses P start (pageCount P len)).map BitVec.toNat =
      (List.range (len.toNat / P.bytes)).map fun i => start.toNat + i * P.bytes := by
  rw [pageAddresses, (pageCount_eq P len hfits.1).1, Int.toNat_natCast, List.map_map]
  apply List.map_congr_left
  intro i hi
  have hbefore := List.mem_range.mp hi
  have hpos := P.bytes_pos
  have hnext : (i + 1) * P.bytes ≤ 2 ^ 31 := by
    rw [← Nat.div_mul_cancel (bytes_dvd_two_pow P)]
    have hcount := hfits.2
    exact Nat.mul_le_mul_right _ (by omega)
  have hlast : (i + 1) * P.bytes ≤ len.toNat :=
    (Nat.mul_le_mul_right _ hbefore).trans (Nat.div_mul_le_self _ _)
  rw [Nat.succ_mul] at hnext hlast
  exact pageAddress_toNat P start (by omega) (by omega)

/-- Addresses at distinct pages below the end of a segment are distinct and inside it. -/
theorem exactPages_of_entries {call : MovePagesCall} {P : PageSize} {start len : Word}
    (hcount : call.count.toNat = len.toNat / P.bytes)
    (hentries : call.pages.map BitVec.toNat =
      (List.range (len.toNat / P.bytes)).map fun i => start.toNat + i * P.bytes) :
    ExactPages P start len call where
  count := hcount
  entries := hentries
  distinct := by
    apply List.Nodup.of_map BitVec.toNat
    rw [hentries]
    refine List.nodup_range.map fun i j hij => ?_
    exact Nat.eq_of_mul_eq_mul_right P.bytes_pos (Nat.add_left_cancel hij)
  inside := by
    intro page hpage
    have hmem : page.toNat ∈ call.pages.map BitVec.toNat := List.mem_map_of_mem hpage
    rw [hentries] at hmem
    obtain ⟨i, hi, hentry⟩ := List.mem_map.mp hmem
    have hlast : (i + 1) * P.bytes ≤ len.toNat :=
      (Nat.mul_le_mul_right _ (List.mem_range.mp hi)).trans (Nat.div_mul_le_self _ _)
    have hpos := P.bytes_pos
    rw [Nat.succ_mul] at hlast
    change start.toNat + i * P.bytes = page.toNat at hentry
    omega

/-- The arrays of both functions hold exactly the pages of the segment when, and only when, the
page count and all offsets fit an `int`. -/
theorem exactPages_iff (htop : start.toNat + len.toNat ≤ 2 ^ 64) {call : MovePagesCall}
    (hcount : call.count = (pageCount P len).signExtend 64)
    (hpages : call.pages = pageAddresses P start (pageCount P len)) :
    ExactPages P start len call ↔ FitsInt P len := by
  apply Iff.intro
  · intro h
    have hentries := h.entries
    rw [hpages] at hentries
    have hlength : (pageCount P len).toInt.toNat = len.toNat / P.bytes := by
      simpa [pageAddresses] using congrArg List.length hentries
    refine ⟨lt_of_pageCount P len hlength, ?_⟩
    -- otherwise the page two gibibytes into the segment is in the array, at a wrong address
    by_contra hlong
    have hpage : 2 ^ 31 / P.bytes < len.toNat / P.bytes := Nat.lt_of_not_le hlong
    have hoffset : 2 ^ 31 / P.bytes * P.bytes = 2 ^ 31 :=
      Nat.div_mul_cancel (bytes_dvd_two_pow P)
    have hentry := congrArg (fun entries => entries[2 ^ 31 / P.bytes]?) hentries
    rw [pageAddresses, hlength] at hentry
    simp only [List.map_map, List.getElem?_map, List.getElem?_range hpage, Option.map_some,
      Function.comp_apply, Option.some.injEq, hoffset, pageAddress_of_offset P start hoffset]
      at hentry
    have hlast : (2 ^ 31 / P.bytes + 1) * P.bytes ≤ len.toNat :=
      (Nat.mul_le_mul_right _ hpage).trans (Nat.div_mul_le_self _ _)
    have hpos := P.bytes_pos
    have hstart := start.isLt
    have hhalf : (BitVec.ofNat 64 (2 ^ 31)).toNat = 2 ^ 31 := by decide
    rw [Nat.succ_mul, hoffset] at hlast
    rw [BitVec.toNat_sub, hhalf] at hentry
    omega
  · intro hfits
    apply exactPages_of_entries
    · rw [hcount]
      exact (pageCount_eq P len hfits.1).2
    · rw [hpages]
      exact pageAddresses_toNat P start len hfits htop

end Pages

section Handed

variable {P : PageSize} {malloc : ℕ → Word → Bool} {movePages : MovePagesCall → Option MoveError}
  {maxNodes : ℕ} {workers : ℤ} {nodesInfo : List Record} {start len : Word} {remoteRatio : ℚ}
  {call : MovePagesCall}

/-- What `move_pages_remote` hands over, once its allocations have succeeded. -/
theorem movePagesRemote_handed_iff :
    (movePagesRemote P malloc movePages maxNodes workers start len remoteRatio).handed = some call ↔
      allocates malloc start (pageCount P len) = true ∧ call =
        { count := (pageCount P len).signExtend 64
          pages := pageAddresses P start (pageCount P len)
          nodes := remoteNodes (localNode workers) (remoteNode workers) maxNodes
            (pageCount P len).toInt remoteRatio } := by
  by_cases hallocates : allocates malloc start (pageCount P len) = true
  · simp [movePagesRemote, handOver, hallocates, eq_comm]
  · simp [movePagesRemote, hallocates]

/-- What `move_pages_initial` hands over has the same pages, and the nodes that its loop assigns. -/
theorem movePagesInitial_handed
    (h : (movePagesInitial P malloc movePages nodesInfo start len).handed = some call) :
    call.count = (pageCount P len).signExtend 64 ∧
      call.pages = pageAddresses P start (pageCount P len) ∧
      initialLoop (pageCount P len).toInt nodesInfo (nodesInfo.map Record.id) nodesInfo.length 0 0
        (List.replicate (pageCount P len).toInt.toNat 0) = .ok call.nodes := by
  by_cases hallocates : allocates malloc start (pageCount P len) = true
  · simp only [movePagesInitial, if_pos hallocates] at h
    cases hloop : initialLoop (pageCount P len).toInt nodesInfo (nodesInfo.map Record.id)
      nodesInfo.length 0 0 (List.replicate (pageCount P len).toInt.toNat 0) with
    | error stop => simp [hloop] at h
    | ok nodes =>
      simp only [hloop, handOver, Option.some.injEq] at h
      subst h
      exact ⟨rfl, rfl, rfl⟩
  · simp [movePagesInitial, hallocates] at h

end Handed

/-- Both migrations hand over exactly the pages of a segment when, and only when, its page count
and the offsets of all its pages fit an `int`. -/
theorem movePages_exactPages_iff (P : PageSize) (malloc : ℕ → Word → Bool)
    (movePages : MovePagesCall → Option MoveError) (maxNodes : ℕ) (workers : ℤ)
    (nodesInfo : List Record) (remoteRatio : ℚ) (start len : Word)
    (htop : start.toNat + len.toNat ≤ 2 ^ 64) :
    (∀ call, (movePagesRemote P malloc movePages maxNodes workers start len remoteRatio).handed =
        some call → (ExactPages P start len call ↔ FitsInt P len)) ∧
      ∀ call, (movePagesInitial P malloc movePages nodesInfo start len).handed = some call →
        (ExactPages P start len call ↔ FitsInt P len) := by
  apply And.intro
  · intro call hcall
    obtain ⟨-, rfl⟩ := movePagesRemote_handed_iff.mp hcall
    exact exactPages_iff P start len htop rfl rfl
  · intro call hcall
    obtain ⟨hcount, hpages, -⟩ := movePagesInitial_handed hcall
    exact exactPages_iff P start len htop hcount hpages

/-- Both migrations hand over the pages of a segment of two pages. -/
theorem movePages_exactPages_two_pages :
    let P := PageSize.fourKiB
    let pages : List Word := [0x7f0000000000, 0x7f0000001000]
    (movePagesRemote P (fun _ _ => true) (fun _ => none) 2 1 0x7f0000000000 0x2000 50).handed =
        some ⟨2, pages, [0, 0]⟩ ∧
      (movePagesInitial P (fun _ _ => true) (fun _ => none) [⟨1, 50⟩, ⟨0, 50⟩] 0x7f0000000000
        0x2000).handed = some ⟨2, pages, [1, 0]⟩ ∧
      ExactPages P 0x7f0000000000 0x2000 ⟨2, pages, [0, 0]⟩ ∧
      ExactPages P 0x7f0000000000 0x2000 ⟨2, pages, [1, 0]⟩ := by
  intro P pages
  have hremote : (movePagesRemote P (fun _ _ => true) (fun _ => none) 2 1 0x7f0000000000 0x2000
      50).handed = some ⟨2, pages, [0, 0]⟩ := by decide +kernel
  have hinitial : (movePagesInitial P (fun _ _ => true) (fun _ => none) [⟨1, 50⟩, ⟨0, 50⟩]
      0x7f0000000000 0x2000).handed = some ⟨2, pages, [1, 0]⟩ := by decide +kernel
  have hexact := movePages_exactPages_iff P (fun _ _ => true) (fun _ => none) 2 1
    [⟨1, 50⟩, ⟨0, 50⟩] 50 0x7f0000000000 0x2000 (by decide)
  have hfits : FitsInt P 0x2000 := ⟨by decide, by decide⟩
  exact ⟨hremote, hinitial, (hexact.1 _ hremote).mpr hfits, (hexact.2 _ hinitial).mpr hfits⟩

/-- In a segment of two gibibytes and one page, the last page is handed over with an address two
gibibytes before the segment. -/
theorem movePages_two_gibibytes :
    let P := PageSize.fourKiB
    ∃ call, (movePagesRemote P (fun _ _ => true) (fun _ => none) 2 1 0x7f0000000000 0x80001000
        50).handed = some call ∧
      call.pages[0x80000]? = some 0x7eff80000000 ∧
      ¬ ExactPages P 0x7f0000000000 0x80001000 call := by
  intro P
  refine ⟨_, movePagesRemote_handed_iff.mpr ⟨by decide, rfl⟩, ?_, fun hexact => ?_⟩
  · have hcount : (pageCount P 0x80001000).toInt.toNat = 0x80001 := by decide
    simp only [pageAddresses, hcount]
    rw [List.getElem?_map, List.getElem?_range (by decide)]
    decide
  · have hfits := (exactPages_iff P _ _ (by decide) rfl rfl).mp hexact
    exact absurd hfits.2 (by decide)

end Bwap
