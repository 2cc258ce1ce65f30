import Bwap.Common.Fallible
import Bwap.Common.RoundRobin
import Bwap.Placement.MovePages
import Bwap.Placement.WeightedShares

/-!
# The nodes of the initial migration

`move_pages_initial` gives each page a node: for each node of the table, the pages of its slice
take turns over that node and all later ones, by their absolute index. The sizes of the slices
are truncated, and the pages left at the end keep the node 0 they were initialised with.
-/

namespace Bwap

open Common

/-- The pages of the slice of a node. -/
def pageDemand (records : List Record) (count i : ℕ) : ℕ := ⌊idealShare records count i⌋₊

/-- The nodes of the pages in one slice: those left take turns. -/
def sliceNodes (records : List Record) (count i : ℕ) : List ℕ :=
  takeTurns ((records.drop i).map Record.id) (filled count (pageDemand records count) i)
    (slice count (pageDemand records count) i)

/-- The array `nodes` after the loop. -/
def initialNodes (records : List Record) (count : ℕ) : List ℕ :=
  (List.range records.length).flatMap (sliceNodes records count) ++
    List.replicate (count - filled count (pageDemand records count) records.length) 0

/-! ## The loops -/

/-- The loop variable runs over natural numbers. -/
theorem intsBetween_natCast (lower count : ℕ) :
    intsBetween lower ((lower + count : ℕ) : ℤ) = (List.range' lower count).map Nat.cast := by
  have hcount : (((lower + count : ℕ) : ℤ) - lower).toNat = count := by omega
  rw [intsBetween, hcount, List.range'_eq_map_range, List.map_map]
  refine List.map_congr_left fun i _ => ?_
  rw [Function.comp_apply, Nat.cast_add]

/-- The next page without a node gets that of its turn. -/
theorem assignPage_append {nodeIds : List ℕ} (hpos : 0 < nodeIds.length) (assigned : List ℕ)
    (left : ℕ) :
    assignPage nodeIds nodeIds.length (assigned ++ List.replicate (left + 1) 0) assigned.length =
      .ok (assigned ++ takeTurns nodeIds assigned.length 1 ++ List.replicate left 0) := by
  have hlt : assigned.length % nodeIds.length < nodeIds.length := Nat.mod_lt _ hpos
  have hmod : ((assigned.length : ℤ).tmod nodeIds.length) =
      ((assigned.length % nodeIds.length : ℕ) : ℤ) := (Int.ofNat_tmod _ _).symm
  have hzero : (nodeIds.length : ℤ) ≠ 0 := by omega
  have hturn : takeTurns nodeIds assigned.length 1 = [nodeIds[assigned.length % nodeIds.length]] :=
    takeTurns_succ assigned.length 0 hlt
  have hinside : (0 : ℤ) ≤ assigned.length ∧
      (assigned.length : ℤ) < (assigned ++ List.replicate (left + 1) 0).length := by
    rw [List.length_append, List.length_replicate]
    omega
  rw [assignPage, if_neg hzero, hmod, if_neg (by omega), Int.toNat_natCast,
    List.getElem?_eq_getElem hlt, hturn]
  simp only [if_pos hinside, Int.toNat_natCast]
  rw [List.replicate_succ, List.set_append_right _ _ le_rfl]
  simp

/-- So do all pages of a slice. -/
theorem foldlM_assignPage {nodeIds : List ℕ} (hpos : 0 < nodeIds.length) (assigned : List ℕ)
    (count left : ℕ) :
    ((List.range' assigned.length count).map Nat.cast).foldlM (assignPage nodeIds nodeIds.length)
        (assigned ++ List.replicate (count + left) 0) =
      .ok (assigned ++ takeTurns nodeIds assigned.length count ++ List.replicate left 0) := by
  induction count generalizing assigned with
  | zero => simp
  | succ count ih =>
    have hlt : assigned.length % nodeIds.length < nodeIds.length := Nat.mod_lt _ hpos
    have hfirst := assignPage_append hpos assigned (count + left)
    have hrest := ih (assigned ++ takeTurns nodeIds assigned.length 1)
    rw [List.length_append, length_takeTurns hpos] at hrest
    rw [List.range'_succ, List.map_cons, List.foldlM_cons, Nat.succ_add, hfirst,
      takeTurns_succ _ count hlt]
    refine hrest.trans ?_
    rw [takeTurns_succ _ 0 hlt, takeTurns_zero, List.append_assoc assigned]
    rfl

/-- The end of a slice as the code computes it. -/
theorem truncToInt_add_min {before count : ℕ} (hbefore : before ≤ count) {share : ℚ}
    (hshare : 0 ≤ share) :
    truncToInt (((before : ℤ) : ℚ) + if share > ((count - before : ℤ) : ℚ) then
        ((count - before : ℤ) : ℚ) else share) =
      ((before + min ⌊share⌋₊ (count - before) : ℕ) : ℤ) := by
  have hleft : ((count - before : ℤ) : ℚ) = ((count - before : ℕ) : ℚ) := by
    rw [← Int.ofNat_sub hbefore, Int.cast_natCast]
  rw [hleft, Int.cast_natCast]
  split_ifs with hlarge
  · have hmin : min ⌊share⌋₊ (count - before) = count - before :=
      min_eq_right (Nat.le_floor hlarge.le)
    rw [hmin, ← Nat.cast_add, truncToInt, if_pos (Nat.cast_nonneg _), Int.floor_natCast]
  · have hmin : min ⌊share⌋₊ (count - before) = ⌊share⌋₊ :=
      min_eq_left (Nat.cast_le.mp ((Nat.floor_le hshare).trans (not_lt.mp hlarge)))
    rw [hmin, truncToInt, if_pos (add_nonneg (Nat.cast_nonneg _) hshare), Int.floor_natCast_add,
      Nat.cast_add, Int.natCast_floor_eq_floor hshare]

/-- One pass of the loop gives the pages of a slice their turns; an empty one is skipped. -/
theorem assignSlice_eq {nodeIds : List ℕ} (hpos : 0 < nodeIds.length) {assigned : List ℕ}
    {count : ℕ} (hassigned : assigned.length ≤ count) {share : ℚ} (hshare : 0 ≤ share) :
    let rPages : ℤ := count - assigned.length
    let iP : ℚ := if share > rPages then rPages else share
    let taken := min ⌊share⌋₊ (count - assigned.length)
    let nodes := assigned ++ List.replicate (count - assigned.length) 0
    ∀ next : List ℕ → Except MigrationStop (List ℕ),
      (if iP ≠ 0 then
        (intsBetween assigned.length (truncToInt ((assigned.length : ℤ) + iP))).foldlM
          (assignPage nodeIds nodeIds.length) nodes >>= next
      else pure nodes >>= next) =
        next (assigned ++ takeTurns nodeIds assigned.length taken ++
          List.replicate (count - (assigned.length + taken)) 0) := by
  intro rPages iP taken nodes next
  have hupper : truncToInt ((assigned.length : ℤ) + iP) = ((assigned.length + taken : ℕ) : ℤ) :=
    truncToInt_add_min hassigned hshare
  by_cases hpart : iP = 0
  · -- nothing is assigned, and the slice is empty
    rw [hpart, add_zero, truncToInt, if_pos (by positivity), Int.floor_intCast] at hupper
    have hempty : taken = 0 := by omega
    rw [if_neg (not_not.mpr hpart), hempty, takeTurns_zero, List.append_nil]
    rfl
  · have hsplit : count - assigned.length = taken + (count - (assigned.length + taken)) := by
      omega
    have hturns := foldlM_assignPage hpos assigned taken (count - (assigned.length + taken))
    rw [← hsplit] at hturns
    rw [if_pos hpart, hupper, intsBetween_natCast, hturns]
    rfl

/-- Once all pages have a node, the later slices are empty. -/
theorem sliceNodes_of_full {records : List Record} {count i j : ℕ} (hij : i ≤ j)
    (hfull : filled count (pageDemand records count) i = count) :
    sliceNodes records count j = [] := by
  have hmono := filled_mono count (pageDemand records count) hij
  have hempty : slice count (pageDemand records count) j = 0 := by
    rw [slice]
    omega
  rw [sliceNodes, hempty, takeTurns_zero]

/-- Then no page is added. -/
theorem flatMap_sliceNodes_of_full {records : List Record} {count i : ℕ}
    (hfull : filled count (pageDemand records count) i = count) (n : ℕ) :
    (List.range' i n).flatMap (sliceNodes records count) = [] :=
  List.flatMap_eq_nil_iff.mpr fun _ hj => sliceNodes_of_full (List.mem_range'_1.mp hj).1 hfull

/-- A slice of a node of the table has all its pages. -/
theorem length_sliceNodes {records : List Record} {count i : ℕ} (hi : i < records.length) :
    (sliceNodes records count i).length = slice count (pageDemand records count) i := by
  refine length_takeTurns ?_ _ _
  rw [List.length_map, List.length_drop]
  omega

/-- The loop from any node on gives the pages of its slices their nodes. -/
theorem initialLoop_eq {records : List Record} {count : ℕ}
    (hnonneg : ∀ i, 0 ≤ idealShare records count i) (rest : List Record) (i : ℕ)
    (hrest : records.drop i = rest) (assigned : List ℕ)
    (hassigned : assigned.length = filled count (pageDemand records count) i) :
    initialLoop count rest (rest.map Record.id) (records.length - i : ℤ) (weightBefore records i)
        assigned.length (assigned ++ List.replicate (count - assigned.length) 0) =
      .ok (assigned ++ (List.range' i rest.length).flatMap (sliceNodes records count) ++
        List.replicate (count - filled count (pageDemand records count) (i + rest.length)) 0) := by
  induction rest generalizing i assigned with
  | nil =>
    rw [hassigned]
    simp [initialLoop]
  | cons node rest ih =>
    obtain ⟨hnode, hnext⟩ := split_of_drop hrest
    have hi : i < records.length := (List.getElem?_eq_some_iff.mp hnode).1
    have hfilled := filled_le count (pageDemand records count) i
    have hshare : ((records.length - i : ℤ) : ℚ) *
        ((node.weight - weightBefore records i) / 100) * (count : ℤ) =
          idealShare records count i := by
      rw [idealShare, if_pos hi, weightBefore_succ hnode]
      push_cast
      rfl
    rw [initialLoop]
    simp only [hshare]
    by_cases hdone : (assigned.length : ℤ) = count
    · -- all pages have a node, so every later slice is empty
      have hfull : filled count (pageDemand records count) i = count := by omega
      have hlast := filled_mono count (pageDemand records count)
        (show i ≤ i + (node :: rest).length by omega)
      rw [if_pos hdone, flatMap_sliceNodes_of_full hfull]
      have hleft : count - filled count (pageDemand records count) (i + (node :: rest).length) =
          count - assigned.length := by omega
      rw [hleft, List.append_nil]
    · have hids : ((node :: rest).map Record.id).length = records.length - i := by
        rw [List.length_map, ← hrest, List.length_drop]
      have hidsInt : (((node :: rest).map Record.id).length : ℤ) = records.length - i := by omega
      have hpos : 0 < ((node :: rest).map Record.id).length := by omega
      have hcount : assigned.length ≤ count := by omega
      have hslice : min ⌊idealShare records count i⌋₊ (count - assigned.length) =
          slice count (pageDemand records count) i := by
        rw [slice, hassigned]
        rfl
      have hturns : sliceNodes records count i = takeTurns ((node :: rest).map Record.id)
          assigned.length (slice count (pageDemand records count) i) := by
        rw [sliceNodes, hrest, hassigned]
      have hlength : (assigned ++ sliceNodes records count i).length =
          assigned.length + slice count (pageDemand records count) i := by
        rw [List.length_append, length_sliceNodes hi]
      have hupper := truncToInt_add_min hcount (hnonneg i)
      have hpages := assignSlice_eq hpos hcount (hnonneg i)
      rw [hslice, ← hlength] at hupper
      dsimp only at hpages
      rw [hslice, ← hturns, ← hlength, hidsInt] at hpages
      have hleft : (records.length : ℤ) - i - 1 = records.length - (i + 1 : ℕ) := by
        push_cast
        ring
      have hsucc := ih (i + 1) hnext (assigned ++ sliceNodes records count i)
        (by rw [hlength, hassigned, filled_succ])
      rw [weightBefore_succ hnode, ← hleft] at hsucc
      have hslices : assigned ++ (List.range' i (node :: rest).length).flatMap
          (sliceNodes records count) = assigned ++ sliceNodes records count i ++
            (List.range' (i + 1) rest.length).flatMap (sliceNodes records count) := by
        rw [List.length_cons, List.range'_succ, List.flatMap_cons, List.append_assoc]
      have hlast : i + (node :: rest).length = i + 1 + rest.length := by
        rw [List.length_cons]
        omega
      rw [if_neg hdone, hpages, hupper, hslices, hlast, ← hsucc]
      rfl

/-- From the start it computes the whole array. -/
theorem initialLoop_all {records : List Record} {count : ℕ}
    (hnonneg : ∀ i, 0 ≤ idealShare records count i) :
    initialLoop count records (records.map Record.id) records.length 0 0
      (List.replicate count 0) = .ok (initialNodes records count) := by
  have hloop := initialLoop_eq hnonneg records 0 rfl [] rfl
  simpa [initialNodes, weightBefore, List.range_eq_range'] using hloop

/-! ## What each node gets -/

section Counts

variable {records : List Record}
  (hids : (records.map Record.id).Perm (List.range records.length))

/-- The nodes of a slice are those of the table from its own node on. -/
theorem mem_sliceNodes {count i id : ℕ} (hid : id ∈ sliceNodes records count i) :
    ∃ k, ∃ hk : k < records.length, i ≤ k ∧ records[k].id = id := by
  obtain ⟨node, hnode, rfl⟩ := List.mem_map.mp (mem_of_mem_takeTurns hid)
  obtain ⟨j, hj, rfl⟩ := List.getElem_of_mem hnode
  rw [List.length_drop] at hj
  exact ⟨i + j, by omega, by omega, by rw [List.getElem_drop]⟩

/-- The array has an entry for each page. -/
theorem length_initialNodes (records : List Record) (count : ℕ) :
    (initialNodes records count).length = count := by
  have hslices : ((List.range records.length).map fun i =>
      (sliceNodes records count i).length).sum =
        filled count (pageDemand records count) records.length := by
    have hlengths : (List.range records.length).map (fun i =>
        (sliceNodes records count i).length) =
          (List.range records.length).map (slice count (pageDemand records count)) :=
      List.map_congr_left fun i hi => length_sliceNodes (List.mem_range.mp hi)
    rw [hlengths, ← sum_slice]
    rfl
  have hfilled := filled_le count (pageDemand records count) records.length
  rw [initialNodes, List.length_append, List.length_flatMap, List.length_replicate, hslices]
  omega

include hids in
/-- A node after the one of a slice gets its even share of it, up to less than a page. -/
theorem abs_count_sliceNodes_sub_lt (count : ℕ) {i k : ℕ} (hik : i ≤ k) (hk : k < records.length) :
    |(((sliceNodes records count i).count records[k].id : ℕ) : ℚ) -
      1 / ((records.length : ℚ) - i) * slice count (pageDemand records count) i| < 1 := by
  have hnodup : ((records.drop i).map Record.id).Nodup :=
    (ids_nodup hids).sublist ((List.drop_sublist i _).map _)
  have hposition : k - i < ((records.drop i).map Record.id).length := by
    rw [List.length_map, List.length_drop]
    omega
  have hentry : ((records.drop i).map Record.id)[k - i] = records[k].id := by
    have hsum : i + (k - i) = k := by omega
    simp [hsum]
  have hturns := abs_count_takeTurns_sub_lt (K := ℚ) hnodup hposition
    (filled count (pageDemand records count) i) (slice count (pageDemand records count) i)
  rw [hentry, List.length_map, List.length_drop, Nat.cast_sub (by omega)] at hturns
  rw [one_div_mul_eq_div]
  exact hturns

include hids in
/-- A node before it gets nothing. -/
theorem count_sliceNodes_of_lt (count : ℕ) {i k : ℕ} (hki : k < i) (hk : k < records.length) :
    (sliceNodes records count i).count records[k].id = 0 := by
  refine List.count_eq_zero.mpr fun hmem => ?_
  obtain ⟨j, hj, hij, hid⟩ := mem_sliceNodes hmem
  have hsame := eq_of_id_eq hids hk hid
  omega

end Counts

namespace WeightTable

variable {table : WeightTable}

/-- On an ascending table no slice is clamped: its pages are its share but for less than one. -/
theorem slice_pages_bounds (hsorted : table.Ascending) (count : ℕ) {i : ℕ}
    (hi : i < table.records.length) :
    idealShare table.records count i - 1 ≤
        (slice count (pageDemand table.records count) i : ℚ) ∧
      (slice count (pageDemand table.records count) i : ℚ) ≤ idealShare table.records count i := by
  have hslice : slice count (pageDemand table.records count) i =
      ⌊idealShare table.records count i⌋₊ :=
    slice_floor_eq _ (idealShare_nonneg hsorted count) (sum_idealShare_le hsorted count hi)
  have hfloor := Nat.lt_floor_add_one (idealShare table.records count i)
  rw [hslice]
  exact ⟨by linarith, Nat.floor_le (idealShare_nonneg hsorted count i)⟩

/-- Less than a page for each node is left at the end. -/
theorem pages_left_le (hsorted : table.Ascending) (count : ℕ) :
    (count : ℚ) - table.records.length ≤
      filled count (pageDemand table.records count) table.records.length := by
  have hsum := Finset.sum_le_sum fun i (hi : i ∈ Finset.range table.records.length) =>
    (slice_pages_bounds hsorted count (Finset.mem_range.mp hi)).1
  rw [Finset.sum_sub_distrib, table.sum_idealShare_eq, Finset.sum_const, Finset.card_range,
    nsmul_eq_mul, mul_one] at hsum
  rw [← sum_slice, Nat.cast_sum]
  exact hsum

/-- Each node gets its weighted share of the pages, up to three for each node. -/
theorem abs_count_initialNodes_sub_lt (hsorted : table.Ascending) (count : ℕ) {k : ℕ}
    (hk : k < table.records.length) :
    |(((initialNodes table.records count).count table.records[k].id : ℕ) : ℚ) -
      table.records[k].weight * count / 100| < 3 * table.records.length := by
  let pages : ℕ → ℕ := slice count (pageDemand table.records count)
  let part : ℕ → ℚ := fun i => 1 / ((table.records.length : ℚ) - i)
  let turns : ℕ → ℕ := fun i => (sliceNodes table.records count i).count table.records[k].id
  let left := count - filled count (pageDemand table.records count) table.records.length
  have hturns : ∑ i ∈ Finset.range table.records.length, turns i =
      ∑ i ∈ Finset.range (k + 1), turns i := by
    refine (Finset.sum_subset (Finset.range_mono hk) fun i _ hi => ?_).symm
    have hki : k < i := by simpa [Nat.lt_succ_iff] using hi
    exact count_sliceNodes_of_lt table.ids count hki hk
  have hcount : ∃ last ≤ left, (initialNodes table.records count).count table.records[k].id =
      ∑ i ∈ Finset.range (k + 1), turns i + last := by
    refine ⟨(List.replicate left 0).count table.records[k].id, ?_, ?_⟩
    · exact List.count_le_length.trans_eq List.length_replicate
    · rw [initialNodes, List.count_append, List.count_flatMap, ← hturns]
      rfl
  have hleft : (left : ℚ) ≤ table.records.length := by
    have hfilled := filled_le count (pageDemand table.records count) table.records.length
    have hlost := pages_left_le hsorted count
    rw [Nat.cast_sub hfilled]
    linarith
  have heven : |((∑ i ∈ Finset.range (k + 1), turns i : ℕ) : ℚ) -
      ∑ i ∈ Finset.range (k + 1), part i * pages i| < k + 1 := by
    have hterms := Finset.sum_lt_sum_of_nonempty (Finset.nonempty_range_iff.mpr k.succ_ne_zero)
      fun i (hi : i ∈ Finset.range (k + 1)) => abs_count_sliceNodes_sub_lt table.ids count
        (Nat.lt_succ_iff.mp (Finset.mem_range.mp hi)) hk
    rw [Finset.sum_const, Finset.card_range, nsmul_eq_mul, mul_one, Nat.cast_succ] at hterms
    rw [Nat.cast_sum, ← Finset.sum_sub_distrib]
    exact (Finset.abs_sum_le_sum_abs _ _).trans_lt hterms
  have habove : ∑ i ∈ Finset.range (k + 1), part i * (pages i : ℚ) ≤ _ :=
    sum_parts_le count hk le_rfl fun i hi => by
      rw [add_zero]
      exact (slice_pages_bounds hsorted count (by omega)).2
  have hbelow : _ ≤ ∑ i ∈ Finset.range (k + 1), part i * (pages i : ℚ) :=
    le_sum_parts count hk zero_le_one fun i hi =>
      (slice_pages_bounds hsorted count (by omega)).1
  obtain ⟨last, hlast, htotal⟩ := hcount
  have hlast' : (last : ℚ) ≤ left := Nat.cast_le.mpr hlast
  have hlast0 : (0 : ℚ) ≤ last := Nat.cast_nonneg last
  have hk' : (k : ℚ) + 1 ≤ table.records.length := by exact_mod_cast hk
  obtain ⟨heven, heven'⟩ := abs_lt.mp heven
  rw [htotal, Nat.cast_add, abs_lt]
  constructor <;> linarith

/-- A table has at least one node. -/
theorem length_pos (table : WeightTable) : 0 < table.records.length := by
  refine List.length_pos_iff.mpr fun hnil => ?_
  have htotal := table.total
  rw [hnil] at htotal
  norm_num at htotal

/-- Every page gets a node of the table. -/
theorem mem_initialNodes (count : ℕ) {id : ℕ} (hid : id ∈ initialNodes table.records count) :
    id ∈ table.records.map Record.id := by
  rw [initialNodes, List.mem_append] at hid
  rcases hid with hslice | hlast
  · obtain ⟨i, -, hmem⟩ := List.mem_flatMap.mp hslice
    obtain ⟨k, hk, -, rfl⟩ := mem_sliceNodes hmem
    exact List.mem_map_of_mem (List.getElem_mem hk)
  · rw [List.eq_of_mem_replicate hlast, table.ids.mem_iff]
    exact List.mem_range.mpr table.length_pos

/-- On an ascending table and a page count that an `int` holds, the loop gives every page a node of
the table without an error, and each node its weighted share of the pages; what ends the
process is a failed allocation or `move_pages`. -/
theorem movePagesInitial_nodes (P : PageSize) (hsorted : table.Ascending) (start len : Word)
    {count : ℕ} (hcount : (pageCount P len).toInt = count) :
    ∃ nodes : List ℕ,
      (∀ malloc movePages, movePagesInitial P malloc movePages table.records start len =
        if allocates malloc start (pageCount P len) then
          handOver movePages ⟨(pageCount P len).signExtend 64,
            pageAddresses P start (pageCount P len), nodes⟩
        else ⟨none, some (.message "Unable to allocate memory")⟩) ∧
      nodes.length = count ∧ (∀ id ∈ nodes, id ∈ table.records.map Record.id) ∧
      ∀ k (hk : k < table.records.length),
        |((nodes.count table.records[k].id : ℕ) : ℚ) - table.records[k].weight * count / 100| <
          3 * table.records.length := by
  have hloop := initialLoop_all (idealShare_nonneg hsorted count)
  refine ⟨initialNodes table.records count, fun malloc movePages => ?_,
    length_initialNodes table.records count, fun id hid => mem_initialNodes count hid,
    fun k hk => abs_count_initialNodes_sub_lt hsorted count hk⟩
  simp only [movePagesInitial, hcount, Int.toNat_natCast, hloop]

/-- Ten pages with the two-node table: the loop leaves none without a node. -/
theorem movePagesInitial_nodes_two_nodes :
    ∃ nodes : List ℕ,
      (∀ malloc movePages, movePagesInitial .fourKiB malloc movePages twoNodeTable.records
          0x7f0000000000 0xa000 =
        if allocates malloc 0x7f0000000000 (pageCount .fourKiB 0xa000) then
          handOver movePages ⟨(pageCount .fourKiB 0xa000).signExtend 64,
            pageAddresses .fourKiB 0x7f0000000000 (pageCount .fourKiB 0xa000), nodes⟩
        else ⟨none, some (.message "Unable to allocate memory")⟩) ∧
      nodes.length = 10 ∧ (∀ id ∈ nodes, id ∈ twoNodeTable.records.map Record.id) ∧
      ∀ k (hk : k < twoNodeTable.records.length),
        |((nodes.count twoNodeTable.records[k].id : ℕ) : ℚ) -
          twoNodeTable.records[k].weight * (10 : ℕ) / 100| < 3 * twoNodeTable.records.length :=
  movePagesInitial_nodes .fourKiB twoNodeTable_ascending 0x7f0000000000 0xa000 (by decide)

end WeightTable

end Bwap
