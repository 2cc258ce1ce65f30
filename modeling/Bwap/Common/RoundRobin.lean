import Mathlib.Algebra.BigOperators.Group.Finset.Basic
import Mathlib.Algebra.Order.Field.Basic
import Mathlib.Data.Int.CardIntervalMod
import Mathlib.Data.List.Range
import Mathlib.Data.Nat.Count
import Mathlib.Tactic.Linarith

/-!
# Taking turns

The indices of a range take turns over the entries of a list: an index gets the entry at its
remainder by the length, so that a range need not start with the first entry. Any range gives
each entry its even share, up to less than one.
-/

namespace Common

/-- The indices below a bound with a given remainder, counted by the bound. -/
theorem count_mod_bounds {a r : ℕ} (hr : r < a) (n : ℕ) :
    n ≤ a * n.count (fun j => j % a = r) + r ∧ a * n.count (fun j => j % a = r) + r < n + a := by
  have hpos : 0 < a := by omega
  have hcount : n.count (fun j => j % a = r) = n / a + if r < n % a then 1 else 0 := by
    have hmod := Nat.count_modEq_card (b := n) hpos r
    simpa only [Nat.ModEq, Nat.mod_eq_of_lt hr] using hmod
  have hsplit := Nat.div_add_mod n a
  have hless := Nat.mod_lt n hpos
  rw [hcount, Nat.mul_add]
  split_ifs with hlow
  · omega
  · omega

/-- One more index gives a remainder at most one occurrence over another one. -/
theorem count_mod_succ_le {n a b : ℕ} (ha : a < n) (hb : b < n) (hne : a ≠ b) (m : ℕ) :
    (m + 1).count (fun j => j % n = a) ≤ m.count (fun j => j % n = b) + 1 := by
  have hless {x y k : ℕ} (hx : n * x + a < k + n) (hy : k ≤ n * y + b) : x ≤ y + 1 := by
    have hlt : n * x < n * (y + 2) := by
      rw [Nat.mul_add]
      omega
    exact Nat.lt_succ_iff.mp (Nat.lt_of_mul_lt_mul_left hlt)
  by_cases hlast : m % n = a
  · have hsame : (m + 1).count (fun j => j % n = b) = m.count fun j => j % n = b := by
      rw [Nat.count_succ, if_neg (hlast ▸ hne), Nat.add_zero]
    rw [← hsame]
    exact hless (count_mod_bounds ha (m + 1)).2 (count_mod_bounds hb (m + 1)).1
  · rw [Nat.count_succ, if_neg hlast, Nat.add_zero]
    exact hless (count_mod_bounds ha m).2 (count_mod_bounds hb m).1

/-- What a remainder is dealt of the amounts of the first indices. -/
def dealt (n : ℕ) (amount : ℕ → ℕ) (r count : ℕ) : ℕ :=
  ∑ j ∈ Finset.range count, if j % n = r then amount j else 0

/-- One more index is dealt its amount. -/
theorem dealt_succ (n : ℕ) (amount : ℕ → ℕ) (r count : ℕ) :
    dealt n amount r (count + 1) =
      dealt n amount r count + if count % n = r then amount count else 0 :=
  Finset.sum_range_succ _ _

/-- Equal amounts are counted. -/
theorem dealt_eq_mul_count {n r m full : ℕ} {amount : ℕ → ℕ} (hfull : ∀ j < m, amount j = full) :
    dealt n amount r m = full * m.count fun j => j % n = r := by
  induction m with
  | zero => simp [dealt]
  | succ m ih =>
    rw [dealt_succ, ih fun j hj => hfull j (by omega), Nat.count_succ, hfull m (by omega),
      Nat.mul_add]
    split_ifs <;> simp

/-- No remainder is dealt more than one full amount over another one. -/
theorem dealt_le_dealt_add {n a b m full : ℕ} (ha : a < n) (hb : b < n) {amount : ℕ → ℕ}
    (hfull : ∀ j < m, amount j = full) (hlast : amount m ≤ full) :
    dealt n amount a (m + 1) ≤ dealt n amount b (m + 1) + full := by
  by_cases hne : a = b
  · rw [hne]
    exact Nat.le_add_right _ _
  · have hupper : dealt n amount a (m + 1) ≤ full * (m + 1).count fun j => j % n = a := by
      rw [dealt_succ, dealt_eq_mul_count hfull, Nat.count_succ, Nat.mul_add]
      split_ifs
      · simpa using hlast
      · simp
    have hlower : full * (m.count fun j => j % n = b) ≤ dealt n amount b (m + 1) := by
      rw [dealt_succ, dealt_eq_mul_count hfull]
      exact Nat.le_add_right _ _
    calc dealt n amount a (m + 1) ≤ full * (m + 1).count fun j => j % n = a := hupper
      _ ≤ full * ((m.count fun j => j % n = b) + 1) :=
        Nat.mul_le_mul_left _ (count_mod_succ_le ha hb hne m)
      _ = full * (m.count fun j => j % n = b) + full := Nat.mul_succ _ _
      _ ≤ dealt n amount b (m + 1) + full := Nat.add_le_add_right hlower _

variable {K : Type*} [Field K] [LinearOrder K] [IsStrictOrderedRing K]

/-- In any range of indices, a remainder occurs its even share of times, up to less than one. -/
theorem abs_countP_mod_sub_lt {a r : ℕ} (hr : r < a) (start count : ℕ) :
    |(((List.range' start count).countP fun j => j % a = r : ℕ) : K) - count / a| < 1 := by
  have hpos : (0 : K) < a := Nat.cast_pos.mpr (by omega)
  have hsplit : (start + count).count (fun j => j % a = r) =
      start.count (fun j => j % a = r) + (List.range' start count).countP fun j => j % a = r := by
    rw [Nat.count_add, List.range'_eq_map_range, List.countP_map]
    rfl
  obtain ⟨hlast, hlast'⟩ := count_mod_bounds hr (start + count)
  obtain ⟨hfirst, hfirst'⟩ := count_mod_bounds hr start
  rw [hsplit, Nat.mul_add] at hlast hlast'
  generalize (List.range' start count).countP (fun j => j % a = r) = turns at *
  have hbelow : (count : K) < a * turns + a := by exact_mod_cast (by omega : count < a * turns + a)
  have habove : (a : K) * turns < count + a := by exact_mod_cast (by omega : a * turns < count + a)
  have hdiff : (turns : K) - count / a = (a * turns - count) / a := by
    rw [sub_div, mul_div_cancel_left₀ _ hpos.ne']
  rw [hdiff, abs_lt, lt_div_iff₀ hpos, div_lt_iff₀ hpos]
  constructor <;> linarith

variable {α : Type*}

/-- The entries that a range of indices gets in turns. -/
def takeTurns (entries : List α) (start count : ℕ) : List α :=
  (List.range' start count).filterMap fun j => entries[j % entries.length]?

@[simp] theorem takeTurns_zero (entries : List α) (start : ℕ) : takeTurns entries start 0 = [] :=
  rfl

/-- The first index of a range gets its entry, the others take turns after it. -/
theorem takeTurns_succ {entries : List α} (start count : ℕ)
    (hlt : start % entries.length < entries.length) :
    takeTurns entries start (count + 1) =
      entries[start % entries.length] :: takeTurns entries (start + 1) count := by
  rw [takeTurns, List.range'_succ]
  exact List.filterMap_cons_some (List.getElem?_eq_getElem hlt)

/-- Every index gets an entry. -/
theorem length_takeTurns {entries : List α} (hpos : 0 < entries.length) (start count : ℕ) :
    (takeTurns entries start count).length = count := by
  induction count generalizing start with
  | zero => rfl
  | succ count ih =>
    rw [takeTurns_succ start count (Nat.mod_lt _ hpos), List.length_cons, ih]

/-- Only entries are given away. -/
theorem mem_of_mem_takeTurns {entries : List α} {start count : ℕ} {x : α}
    (hx : x ∈ takeTurns entries start count) : x ∈ entries := by
  obtain ⟨j, -, hj⟩ := List.mem_filterMap.mp hx
  exact List.mem_of_getElem? hj

/-- Each of several distinct entries is given away its even share of times, up to less than one. -/
theorem abs_count_takeTurns_sub_lt [DecidableEq α] {entries : List α} (hnodup : entries.Nodup)
    {k : ℕ} (hk : k < entries.length) (start count : ℕ) :
    |(((takeTurns entries start count).count entries[k] : ℕ) : K) - count / entries.length| <
      1 := by
  have hturns : (takeTurns entries start count).count entries[k] =
      (List.range' start count).countP fun j => j % entries.length = k := by
    rw [takeTurns, List.count, List.countP_filterMap]
    refine List.countP_congr fun j _ => ?_
    have hlt : j % entries.length < entries.length := Nat.mod_lt _ (by omega)
    simp [List.getElem?_eq_getElem hlt, hnodup.getElem_inj_iff]
  rw [hturns]
  exact abs_countP_mod_sub_lt hk start count

end Common
