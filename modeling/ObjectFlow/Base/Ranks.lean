import Mathlib.Algebra.Order.BigOperators.Group.Multiset
import Mathlib.Data.Rat.Floor
import Mathlib.Order.Bounds.Basic
import Mathlib.Order.Compare
import Mathlib.Tactic.Linarith

/-!
# Ranks

The least, the greatest and the nearest rank of numbers given in any order.
Each is said of the numbers as a multiset, where it is one; the walks that find
it go through a list and compare by a key.
-/

namespace Base

section Walks

variable {α β : Type*} [LinearOrder β]

/-- The first of the least, by an order. -/
def minBy (order : α → α → Ordering) : List α → Option α
  | [] => none
  | x :: rest => some (rest.foldl (fun best y => if order best y = .gt then y else best) x)

/-- The last of the greatest, by an order. -/
def maxBy (order : α → α → Ordering) : List α → Option α
  | [] => none
  | x :: rest => some (rest.foldl (fun best y => if order best y = .gt then best else y) x)

variable {order : α → α → Ordering} {key : α → β}

theorem order_gt (hkey : ∀ a b, order a b = compare (key a) (key b)) {a b : α} :
    order a b = .gt ↔ key b < key a := by
  rw [hkey, compare_gt_iff_gt]

/-- Picking one of two through a list, at each step one that is before both,
leaves one of the list before them all. -/
theorem foldl_pick (before : α → α → Prop) {pick : α → α → α}
    (hone : ∀ x y, pick x y = x ∨ pick x y = y) (hself : ∀ x, before x x)
    (htrans : ∀ x y z, before x y → before y z → before x z)
    (hleft : ∀ x y, before (pick x y) x) (hright : ∀ x y, before (pick x y) y) (rest : List α)
    (x : α) : rest.foldl pick x ∈ x :: rest ∧ ∀ y ∈ x :: rest, before (rest.foldl pick x) y := by
  induction rest generalizing x with
  | nil =>
      refine ⟨List.mem_cons_self, fun y hy => ?_⟩
      rw [List.mem_singleton.mp hy]
      exact hself x
  | cons z rest ih =>
      obtain ⟨hmem, hbefore⟩ := ih (pick x z)
      have hpick := hbefore _ List.mem_cons_self
      constructor
      · rcases List.mem_cons.mp hmem with heq | hmem
        · rcases hone x z with hx | hz
          · exact List.mem_cons.mpr (.inl (heq.trans hx))
          · exact List.mem_cons_of_mem _ (List.mem_cons.mpr (.inl (heq.trans hz)))
        · exact List.mem_cons_of_mem _ (List.mem_cons_of_mem _ hmem)
      · intro y hy
        rcases List.mem_cons.mp hy with rfl | hy
        · exact htrans _ _ _ hpick (hleft y z)
        · rcases List.mem_cons.mp hy with rfl | hy
          · exact htrans _ _ _ hpick (hright x y)
          · exact hbefore y (List.mem_cons_of_mem _ hy)

/-- **The least found** is one of the list, and none of it is less. -/
theorem minBy_least (hkey : ∀ a b, order a b = compare (key a) (key b)) {l : List α} {x : α}
    (h : minBy order l = some x) : x ∈ l ∧ ∀ y ∈ l, key x ≤ key y := by
  cases l with
  | nil => cases h
  | cons first rest =>
      obtain rfl := Option.some.inj h
      refine foldl_pick (fun a b => key a ≤ key b) (fun a b => ?_) (fun _ => le_rfl)
        (fun _ _ _ => le_trans) (fun a b => ?_) (fun a b => ?_) rest first
      · grind
      · split
        case isTrue hgt => exact ((order_gt hkey).mp hgt).le
        case isFalse => exact le_rfl
      · split
        case isTrue => exact le_rfl
        case isFalse hgt => exact not_lt.mp (mt (order_gt hkey).mpr hgt)

/-- **The greatest found** is one of the list, and none of it is greater. -/
theorem maxBy_greatest (hkey : ∀ a b, order a b = compare (key a) (key b)) {l : List α} {x : α}
    (h : maxBy order l = some x) : x ∈ l ∧ ∀ y ∈ l, key y ≤ key x := by
  cases l with
  | nil => cases h
  | cons first rest =>
      obtain rfl := Option.some.inj h
      refine foldl_pick (fun a b => key b ≤ key a) (fun a b => ?_) (fun _ => le_rfl)
        (fun _ _ _ hxy hyz => hyz.trans hxy) (fun a b => ?_) (fun a b => ?_) rest first
      · grind
      · split
        case isTrue => exact le_rfl
        case isFalse hgt => exact not_lt.mp (mt (order_gt hkey).mpr hgt)
      · split
        case isTrue hgt => exact ((order_gt hkey).mp hgt).le
        case isFalse => exact le_rfl

/-- A list sorted by an order is sorted by its key. -/
theorem sorted_by_key (hkey : ∀ a b, order a b = compare (key a) (key b)) (l : List α) :
    ((l.mergeSort fun a b => order a b ≠ .gt).map key).Pairwise (· ≤ ·) := by
  have hle (a b : α) : (decide (order a b ≠ .gt)) = true ↔ key a ≤ key b := by
    rw [decide_eq_true_iff, ne_eq, order_gt hkey, not_lt]
  rw [List.pairwise_map]
  refine (List.pairwise_mergeSort (fun a b c hab hbc => ?_) (fun a b => ?_) l).imp
    fun h => (hle _ _).mp h
  · exact (hle a c).mpr (((hle a b).mp hab).trans ((hle b c).mp hbc))
  · rw [Bool.or_eq_true]
    rcases le_total (key a) (key b) with hab | hba
    · exact .inl ((hle a b).mpr hab)
    · exact .inr ((hle b a).mpr hba)

/-- **The element at a place of a sorted list** is the least with so many at most
it. -/
theorem isLeast_of_sorted {l : List β} (hsorted : l.Pairwise (· ≤ ·)) {i : Nat}
    (hi : i < l.length) : IsLeast {x | x ∈ l ∧ i + 1 ≤ l.countP (· ≤ x)} l[i] := by
  have hle : ∀ j (hj : j < l.length) k (hk : k < l.length), j ≤ k → l[j] ≤ l[k] := by
    intro j hj k hk hjk
    rcases hjk.eq_or_lt with rfl | hjk
    · exact le_rfl
    · exact List.pairwise_iff_getElem.mp hsorted j k hj hk hjk
  constructor
  · refine ⟨List.getElem_mem hi, ?_⟩
    -- the first places hold elements at most the one at the last of them
    have htake : (l.take (i + 1)).countP (· ≤ l[i]) = i + 1 := by
      rw [List.countP_eq_length.mpr, List.length_take_of_le hi]
      intro x hx
      obtain ⟨j, hj, rfl⟩ := List.mem_iff_getElem.mp hx
      rw [List.length_take_of_le hi] at hj
      rw [List.getElem_take]
      exact decide_eq_true (hle j (by omega) i hi (by omega))
    have hsub := (List.take_sublist (i + 1) l).countP_le (p := (· ≤ l[i]))
    omega
  · intro y hy
    by_contra hlt
    have hlt := not_le.mp hlt
    -- nothing from the place on is at most a smaller one
    have hdrop : (l.drop i).countP (· ≤ y) = 0 := by
      rw [List.countP_eq_zero]
      intro x hx
      obtain ⟨j, hj, rfl⟩ := List.mem_iff_getElem.mp hx
      rw [List.length_drop] at hj
      rw [List.getElem_drop, decide_eq_true_iff, not_le]
      exact hlt.trans_le (hle i hi (i + j) (by omega) (by omega))
    have hsplit : l.countP (· ≤ y) = (l.take i).countP (· ≤ y) + (l.drop i).countP (· ≤ y) := by
      rw [← List.countP_append, List.take_append_drop]
    have htake := List.countP_le_length (p := (· ≤ y)) (l := l.take i)
    rw [List.length_take_of_le hi.le] at htake
    have := hy.2
    omega

end Walks

/-- The nearest rank: the least of the numbers with at least the share of them
at most it; a share past the whole is the whole. -/
def NearestRank (s : Multiset ℚ) (p x : ℚ) : Prop :=
  IsLeast {y | y ∈ s ∧ min p 1 * s.card ≤ s.countP (· ≤ y)} x

/-- **The nearest rank in a sorted list** is at the share of its length rounded
up, the first place at least and the last at most. -/
theorem nearestRank_of_sorted {l : List ℚ} (hsorted : l.Pairwise (· ≤ ·)) (p : ℚ) {i : Nat}
    (hi : i < l.length) (hrank : i = min (max ⌈p * l.length⌉ 1 - 1).toNat (l.length - 1)) :
    NearestRank (l : Multiset ℚ) p l[i] := by
  have hset : {y | y ∈ (l : Multiset ℚ) ∧
      min p 1 * (l : Multiset ℚ).card ≤ (l : Multiset ℚ).countP (· ≤ y)} =
        {y | y ∈ l ∧ i + 1 ≤ l.countP (· ≤ y)} := by
    ext y
    simp only [Set.mem_ofPred_eq, Multiset.mem_coe, Multiset.coe_card, Multiset.coe_countP]
    refine and_congr_right fun hy => ?_
    have hpos : 1 ≤ l.countP (· ≤ y) := List.countP_pos_iff.mpr ⟨y, hy, by simp⟩
    have hle := List.countP_le_length (p := (· ≤ y)) (l := l)
    generalize l.countP (· ≤ y) = c at hpos hle
    have hn : (0 : ℚ) ≤ (l.length : ℚ) := by positivity
    rw [min_mul_of_nonneg _ _ hn, one_mul, min_le_iff, Nat.cast_le,
      show (c : ℚ) = ((c : ℤ) : ℚ) from (Int.cast_natCast c).symm, ← Int.ceil_le]
    omega
  rw [NearestRank, hset]
  exact isLeast_of_sorted hsorted hi

end Base
