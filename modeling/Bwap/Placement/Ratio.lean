import Bwap.Placement.Mbind
import Mathlib.Tactic.Linarith
import Mathlib.Tactic.FieldSimp

/-!
# Splitting a segment by a ratio

`place_pages` keeps a first part of a segment as it is, interleaved over all nodes, and
moves the rest to the worker nodes. The two lengths are computed before anything is
checked; the checks after them accept a ratio exactly when it is at least the share of one
node and at most one, and then the lengths add up to the segment.
-/

namespace Bwap

open Common

/-- What a call of `place_pages` comes to: the `mbind` calls it makes, and the message of the
check it dies at. -/
structure SplitPlacement where
  issued : List MbindCall
  died : Option String
deriving DecidableEq

/-- The ratios and lengths that `place_pages` computes before it checks them. -/
structure Split where
  localRatio : ℚ
  interleaveRatio : ℚ
  interleaveLen : Word
  localLen : Word
deriving DecidableEq

/-- The split of a segment for the ratio `r`; `nodes` is `numa_num_configured_nodes()`. On a single
node the code divides by zero in floating point, where the quotient here is zero: what is said
about the split is for two nodes or more. -/
def split (P : PageSize) (nodes : ℕ) (len : Word) (r : ℚ) : Split :=
  let localRatio := r - (1 - r) / (nodes - 1)
  let interleaveRatio := 1 - localRatio
  let interleaveLen := truncToSize (interleaveRatio * len.toNat) &&& P.mask
  { localRatio := localRatio
    interleaveRatio := interleaveRatio
    interleaveLen := interleaveLen
    localLen := (len - interleaveLen) &&& P.mask }

/-- The first of the checks that fires, in the order in which they are made. -/
def Split.firstFailure (P : PageSize) (len : Word) (r : ℚ) (s : Split) : Option String :=
  if r < 0 ∨ r > 1 then some "specified ratio must be between 0 and 1!"
  else if s.localRatio < 0 ∨ s.localRatio > 1 then some "bad local_ratio calculation"
  else if s.interleaveRatio < 0 ∨ s.interleaveRatio > 1 then
    some "bad interleave_ratio calculation"
  else if s.localLen.toNat % P.bytes ≠ 0 then
    some "local length must be multiple of the page size"
  else if s.interleaveLen.toNat % P.bytes ≠ 0 then
    some "interleave length must be multiple of the page size"
  else if s.localLen + s.interleaveLen ≠ len &&& P.mask then
    some "local and interleave lengths should total the original length"
  else none

/-- The node mask built for a number of workers; a bit beyond the last node is not set. -/
def workerMask (maxNodes : ℕ) (workers : ℤ) : Option (Finset ℕ) :=
  if workers = 1 then some (({0} : Finset ℕ).filter (· < maxNodes))
  else if workers = 2 then some (({0, 1} : Finset ℕ).filter (· < maxNodes))
  else if workers = 3 then some (({1, 2, 3} : Finset ℕ).filter (· < maxNodes))
  else if workers = 4 then some (({0, 1, 2, 3} : Finset ℕ).filter (· < maxNodes))
  else none

/-- `place_pages` on an address range: `workers` is `OPT_NUM_WORKERS_VALUE`. -/
def placePages (P : PageSize) (mbind : MbindCall → Bool) (nodes maxNodes : ℕ) (workers : ℤ)
    (addr len : Word) (r : ℚ) : SplitPlacement :=
  let s := split P nodes len r
  match s.firstFailure P len r with
  | some message => ⟨[], some message⟩
  | none =>
    -- the length is unsigned, so that only zero is left to return on
    if s.localLen = 0 then ⟨[], none⟩
    else match workerMask maxNodes workers with
      | none => ⟨[], none⟩
      | some nodeSet =>
        let call : MbindCall := ⟨addr + s.interleaveLen, s.localLen, .interleave, nodeSet⟩
        ⟨[call], if mbind call then none else some "mbind interleave failed"⟩

/-! ## The checks -/

/-- What the checks of `place_pages` ask of a ratio and its split. -/
structure Split.Valid (P : PageSize) (len : Word) (r : ℚ) (s : Split) : Prop where
  ratio : 0 ≤ r ∧ r ≤ 1
  localRatio : 0 ≤ s.localRatio ∧ s.localRatio ≤ 1
  interleaveRatio : 0 ≤ s.interleaveRatio ∧ s.interleaveRatio ≤ 1
  localLen : P.bytes ∣ s.localLen.toNat
  interleaveLen : P.bytes ∣ s.interleaveLen.toNat
  total : s.localLen + s.interleaveLen = len &&& P.mask

/-- No check fires exactly on a valid split. -/
theorem Split.firstFailure_eq_none_iff (P : PageSize) (len : Word) (r : ℚ) (s : Split) :
    s.firstFailure P len r = none ↔ s.Valid P len r := by
  apply Iff.intro
  · intro h
    unfold firstFailure at h
    split_ifs at h with hratio hlocal hinterleave hlocalLen hinterleaveLen htotal
    push Not at *
    exact ⟨hratio, hlocal, hinterleave, Nat.dvd_of_mod_eq_zero hlocalLen,
      Nat.dvd_of_mod_eq_zero hinterleaveLen, htotal⟩
  · intro h
    unfold firstFailure
    rw [if_neg (by push Not; exact h.ratio), if_neg (by push Not; exact h.localRatio),
      if_neg (by push Not; exact h.interleaveRatio),
      if_neg (not_not.mpr (Nat.mod_eq_zero_of_dvd h.localLen)),
      if_neg (not_not.mpr (Nat.mod_eq_zero_of_dvd h.interleaveLen)), if_neg (not_not.mpr h.total)]

section Split

variable (P : PageSize) {nodes : ℕ} (hnodes : 2 ≤ nodes) {len : Word} {r : ℚ}

include hnodes in
/-- The local ratio is the excess of the ratio over the share of one node, scaled to one. -/
theorem split_localRatio (len : Word) (r : ℚ) :
    (split P nodes len r).localRatio = (nodes * r - 1) / (nodes - 1) := by
  have hpos : (0 : ℚ) < nodes - 1 := by
    have htwo : (2 : ℚ) ≤ nodes := by exact_mod_cast hnodes
    linarith
  change r - (1 - r) / (nodes - 1) = (nodes * r - 1) / (nodes - 1)
  field_simp
  ring

/-- The interleaved ratio is the rest. -/
theorem split_interleaveRatio (nodes : ℕ) (len : Word) (r : ℚ) :
    (split P nodes len r).interleaveRatio = 1 - (split P nodes len r).localRatio := rfl

include hnodes in
/-- The local ratio is a ratio exactly when the requested one is between the share of one node
and one. -/
theorem split_localRatio_mem_iff (len : Word) (r : ℚ) :
    0 ≤ (split P nodes len r).localRatio ∧ (split P nodes len r).localRatio ≤ 1 ↔
      1 / nodes ≤ r ∧ r ≤ 1 := by
  have htwo : (2 : ℚ) ≤ nodes := by exact_mod_cast hnodes
  have hpos : (0 : ℚ) < nodes - 1 := by linarith
  have hcount : (0 : ℚ) < nodes := by linarith
  rw [split_localRatio P hnodes, le_div_iff₀ hpos, zero_mul, div_le_one hpos,
    div_le_iff₀ hcount]
  apply Iff.intro
  · intro h
    exact ⟨by linarith [h.1], le_of_mul_le_mul_left (by linarith [h.2]) hcount⟩
  · intro h
    have hscaled := mul_le_mul_of_nonneg_left h.2 hcount.le
    exact ⟨by linarith [h.1], by linarith⟩

include hnodes in
/-- The interleaved share of a segment is at most all of it. -/
theorem split_share_le (len : Word) (hr : 1 / nodes ≤ r ∧ r ≤ 1) :
    0 ≤ (split P nodes len r).interleaveRatio * len.toNat ∧
      ⌊(split P nodes len r).interleaveRatio * len.toNat⌋₊ ≤ len.toNat := by
  have hlocal := (split_localRatio_mem_iff P hnodes len r).mpr hr
  have hratio := split_interleaveRatio P nodes len r
  have hlen : (0 : ℚ) ≤ len.toNat := Nat.cast_nonneg _
  exact ⟨mul_nonneg (by linarith) hlen,
    Nat.floor_le_of_le (mul_le_of_le_one_left hlen (by linarith))⟩

include hnodes in
/-- Before the last mask, the interleaved length is a share of the segment. -/
theorem split_interleaveLen (len : Word) (hr : 1 / nodes ≤ r ∧ r ≤ 1) :
    (split P nodes len r).interleaveLen.toNat =
      ⌊(split P nodes len r).interleaveRatio * len.toNat⌋₊ / P.bytes * P.bytes := by
  obtain ⟨hnonneg, hfloor⟩ := split_share_le P hnodes len hr
  have hlt := len.isLt
  have hmask := P.alignDown_toNat (truncToSize ((split P nodes len r).interleaveRatio * len.toNat))
  rw [truncToSize_toNat hnonneg (by omega)] at hmask
  exact hmask

include hnodes in
/-- A segment of whole pages is split into two lengths of whole pages that add up to it. -/
theorem split_lengths (hlen : P.bytes ∣ len.toNat) (hr : 1 / nodes ≤ r ∧ r ≤ 1) :
    P.bytes ∣ (split P nodes len r).interleaveLen.toNat ∧
      P.bytes ∣ (split P nodes len r).localLen.toNat ∧
      (split P nodes len r).interleaveLen.toNat + (split P nodes len r).localLen.toNat =
        len.toNat := by
  have hinterleave := split_interleaveLen P hnodes len hr
  have hpages : P.bytes ∣ (split P nodes len r).interleaveLen.toNat := P.dvd_alignDown _
  have hle : (split P nodes len r).interleaveLen.toNat ≤ len.toNat := by
    rw [hinterleave]
    exact (Nat.div_mul_le_self _ _).trans (split_share_le P hnodes len hr).2
  have hrest : (len - (split P nodes len r).interleaveLen).toNat =
      len.toNat - (split P nodes len r).interleaveLen.toNat :=
    BitVec.toNat_sub_of_le hle
  -- the rest is whole pages, so that the second mask leaves it as it is
  have hrestPages : P.bytes ∣ (len - (split P nodes len r).interleaveLen).toNat := by
    rw [hrest]
    exact Nat.dvd_sub hlen hpages
  have hlocalLen : (split P nodes len r).localLen.toNat =
      len.toNat - (split P nodes len r).interleaveLen.toNat := by
    rw [← hrest, ← Nat.div_mul_cancel hrestPages]
    exact P.alignDown_toNat _
  refine ⟨hpages, ?_, ?_⟩
  · rw [hlocalLen]
    exact Nat.dvd_sub hlen hpages
  · rw [hlocalLen]
    omega

include hnodes in
/-- The checks accept a ratio exactly between the share of one node and one. -/
theorem split_valid_iff (hlen : P.bytes ∣ len.toNat) :
    (split P nodes len r).Valid P len r ↔ 1 / nodes ≤ r ∧ r ≤ 1 := by
  apply Iff.intro
  · intro h
    exact (split_localRatio_mem_iff P hnodes len r).mp h.localRatio
  · intro hr
    have hlocal := (split_localRatio_mem_iff P hnodes len r).mpr hr
    have hratio := split_interleaveRatio P nodes len r
    obtain ⟨hinterleavePages, hlocalPages, htotal⟩ := split_lengths P hnodes hlen hr
    have hshare : (0 : ℚ) ≤ 1 / nodes := div_nonneg zero_le_one (Nat.cast_nonneg _)
    refine ⟨⟨hshare.trans hr.1, hr.2⟩, hlocal, ⟨by linarith, by linarith⟩, hlocalPages,
      hinterleavePages, ?_⟩
    apply BitVec.eq_of_toNat_eq
    have hmask : (len &&& P.mask).toNat = len.toNat / P.bytes * P.bytes := P.alignDown_toNat len
    have hlt := len.isLt
    rw [hmask, Nat.div_mul_cancel hlen, BitVec.toNat_add, Nat.mod_eq_of_lt (by omega)]
    omega

end Split

/-! ## The placement of a segment -/

/-- A mask is built for one to four workers. -/
theorem workerMask_isSome_iff (maxNodes : ℕ) (workers : ℤ) :
    (workerMask maxNodes workers).isSome = true ↔ 1 ≤ workers ∧ workers ≤ 4 := by
  unfold workerMask
  split_ifs with h₁ h₂ h₃ h₄ <;> simp <;> omega

/-- A segment is split: both lengths are whole pages and add up to it, the second one is moved
to the worker nodes, and the first one is the requested part but for less than a page. -/
structure SplitPlacement.Splits (P : PageSize) (mbind : MbindCall → Bool) (maxNodes : ℕ)
    (workers : ℤ) (addr len : Word) (s : Split) (placement : SplitPlacement) : Prop where
  total : s.interleaveLen.toNat + s.localLen.toNat = len.toNat
  interleavePages : P.bytes ∣ s.interleaveLen.toNat
  localPages : P.bytes ∣ s.localLen.toNat
  interleaved : |(s.interleaveLen.toNat : ℚ) - (1 - s.localRatio) * len.toNat| < P.bytes
  issues : placement.issued ≠ [] ↔ 0 < s.localLen ∧ 1 ≤ workers ∧ workers ≤ 4
  single : ∀ call ∈ placement.issued, placement.issued = [call] ∧
    call.start = addr + s.interleaveLen ∧ call.start + call.len = addr + len ∧
      call.policy = .interleave ∧ workerMask maxNodes workers = some call.nodes
  refused : placement.died.isSome = true ↔ ∃ call ∈ placement.issued, mbind call = false

section Placement

variable (P : PageSize) (mbind : MbindCall → Bool) {nodes : ℕ} (hnodes : 2 ≤ nodes)
  (maxNodes : ℕ) (workers : ℤ) (addr : Word) {len : Word} (hlen : P.bytes ∣ len.toNat) {r : ℚ}

/-- On a valid split the call moves the second part to the worker nodes, if there is one and a
mask for them. -/
theorem placePages_of_valid (hvalid : (split P nodes len r).Valid P len r) :
    placePages P mbind nodes maxNodes workers addr len r =
      if (split P nodes len r).localLen = 0 then ⟨[], none⟩
      else match workerMask maxNodes workers with
        | none => ⟨[], none⟩
        | some nodeSet =>
          let call : MbindCall := ⟨addr + (split P nodes len r).interleaveLen,
            (split P nodes len r).localLen, .interleave, nodeSet⟩
          ⟨[call], if mbind call then none else some "mbind interleave failed"⟩ := by
  have haccepted := ((split P nodes len r).firstFailure_eq_none_iff P len r).mpr hvalid
  simp only [placePages, haccepted]

/-- A ratio that is rejected stops the call before it issues anything. -/
theorem placePages_of_not_valid (hvalid : ¬ (split P nodes len r).Valid P len r) :
    (placePages P mbind nodes maxNodes workers addr len r).issued = [] ∧
      (placePages P mbind nodes maxNodes workers addr len r).died.isSome = true := by
  have hfires : (split P nodes len r).firstFailure P len r ≠ none := fun hnone =>
    hvalid (((split P nodes len r).firstFailure_eq_none_iff P len r).mp hnone)
  obtain ⟨message, hmessage⟩ := Option.ne_none_iff_exists'.mp hfires
  simp [placePages, hmessage]

include hnodes in
/-- The interleaved length is within a page of its share. -/
theorem abs_interleaveLen_sub_lt (len : Word) (hr : 1 / nodes ≤ r ∧ r ≤ 1) :
    |((split P nodes len r).interleaveLen.toNat : ℚ) -
      (1 - (split P nodes len r).localRatio) * len.toNat| < P.bytes := by
  obtain ⟨hnonneg, -⟩ := split_share_le P hnodes len hr
  rw [← split_interleaveRatio, split_interleaveLen P hnodes len hr, abs_sub_comm, abs_lt]
  have hbelow : ((⌊(split P nodes len r).interleaveRatio * len.toNat⌋₊ / P.bytes * P.bytes : ℕ) :
      ℚ) ≤ (split P nodes len r).interleaveRatio * len.toNat :=
    (Nat.cast_le.mpr (Nat.div_mul_le_self _ _)).trans (Nat.floor_le hnonneg)
  have habove := share_lt_roundDown_add P.bytes_pos
    ((split P nodes len r).interleaveRatio * len.toNat)
  have hpos : (0 : ℚ) < P.bytes := Nat.cast_pos.mpr P.bytes_pos
  exact ⟨by linarith, by linarith⟩

include hnodes hlen in
/-- An accepted ratio splits the segment. -/
theorem splits_of_accepted (hr : 1 / nodes ≤ r ∧ r ≤ 1) :
    (placePages P mbind nodes maxNodes workers addr len r).Splits P mbind maxNodes workers addr len
      (split P nodes len r) := by
  have hvalid := (split_valid_iff P hnodes hlen).mpr hr
  obtain ⟨hinterleavePages, hlocalPages, htotal⟩ := split_lengths P hnodes hlen hr
  have hstop : addr + (split P nodes len r).interleaveLen + (split P nodes len r).localLen =
      addr + len := by
    have hlt := len.isLt
    rw [BitVec.add_assoc]
    congr 1
    apply BitVec.eq_of_toNat_eq
    rw [BitVec.toNat_add, Nat.mod_eq_of_lt (by omega), htotal]
  have hnear := abs_interleaveLen_sub_lt P hnodes len hr
  have hplace := placePages_of_valid P mbind maxNodes workers addr hvalid
  have hmask := workerMask_isSome_iff maxNodes workers
  by_cases hempty : (split P nodes len r).localLen = 0
  · rw [if_pos hempty] at hplace
    rw [hplace]
    exact ⟨htotal, hinterleavePages, hlocalPages, hnear, by simp [hempty], by simp, by simp⟩
  · have hpos : 0 < (split P nodes len r).localLen := (BitVec.pos_iff_ne_zero _).mpr hempty
    rw [if_neg hempty] at hplace
    cases hworkers : workerMask maxNodes workers with
    | none =>
      rw [hworkers] at hplace hmask
      rw [hplace]
      refine ⟨htotal, hinterleavePages, hlocalPages, hnear, ?_, by simp, by simp⟩
      rw [and_iff_right hpos]
      simpa using hmask
    | some nodeSet =>
      rw [hworkers] at hplace hmask
      rw [hplace]
      refine ⟨htotal, hinterleavePages, hlocalPages, hnear, ?_, ?_, ?_⟩
      · rw [and_iff_right hpos]
        simpa using hmask
      · intro call hcall
        obtain rfl := List.mem_singleton.mp hcall
        exact ⟨rfl, rfl, hstop, rfl, hworkers⟩
      · simp

/-- A ratio between the share of one node and one passes every check and splits a segment of
whole pages; any other ratio stops the process before the segment is touched. -/
theorem placePages_splits (hnodes : 2 ≤ nodes) (hlen : P.bytes ∣ len.toNat) (r : ℚ) :
    (1 / nodes ≤ r ∧ r ≤ 1 →
      (split P nodes len r).firstFailure P len r = none ∧
        (placePages P mbind nodes maxNodes workers addr len r).Splits P mbind maxNodes workers addr
          len (split P nodes len r)) ∧
    (¬(1 / nodes ≤ r ∧ r ≤ 1) →
      (placePages P mbind nodes maxNodes workers addr len r).issued = [] ∧
        (placePages P mbind nodes maxNodes workers addr len r).died.isSome = true) := by
  have hvalid := split_valid_iff P hnodes hlen (r := r)
  apply And.intro
  · intro hr
    exact ⟨((split P nodes len r).firstFailure_eq_none_iff P len r).mpr (hvalid.mpr hr),
      splits_of_accepted P mbind hnodes maxNodes workers addr hlen hr⟩
  · intro hr
    exact placePages_of_not_valid P mbind maxNodes workers addr (mt hvalid.mp hr)

end Placement

/-- Four pages on two nodes at a ratio of three quarters: two of them go to the worker node. -/
theorem placePages_splits_three_quarters :
    let P := PageSize.fourKiB
    let placement := placePages P (fun _ => true) 2 2 1 0x7f0000000000 0x4000 (3 / 4)
    (split P 2 0x4000 (3 / 4)).firstFailure P 0x4000 (3 / 4) = none ∧
      placement.Splits P (fun _ => true) 2 1 0x7f0000000000 0x4000 (split P 2 0x4000 (3 / 4)) :=
  (placePages_splits .fourKiB (fun _ => true) 2 1 0x7f0000000000 (by decide) (by decide)
    (3 / 4)).1 (by norm_num)

end Bwap
