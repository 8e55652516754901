import Mathlib.Data.Finset.Card
import Mathlib.Order.Compare
import Mathlib.Order.Lattice

/-!
# Ranking by several measures

Some comparisons rank the elements of a finite list, in turn: the later ones break
the ties of the earlier.  Each need be a ranking only of the elements the list
holds.  Where together they tell any two of them apart, the list has each at a
place of its own, and sorting it puts each at its place.
-/

namespace Base

variable {α : Type*}

/-- A comparison that ranks the elements a condition holds of: it reads the other way
round as its reverse, and what does not come after goes on not to. -/
structure Ranking (cmp : α → α → Ordering) (P : α → Prop) : Prop where
  swap : ∀ a b, P a → P b → cmp b a = (cmp a b).swap
  trans : ∀ a b c, P a → P b → P c → cmp a b ≠ .gt → cmp b c ≠ .gt → cmp a c ≠ .gt

namespace Ranking

variable {cmp cmp' : α → α → Ordering} {P : α → Prop} {a b c : α}

/-- Comparing what a measure gives. -/
theorem of_key {κ : Type*} [LinearOrder κ] (key : α → κ)
    (h : ∀ a b, P a → P b → cmp a b = compare (key a) (key b)) : Ranking cmp P where
  swap a b ha hb := by
    rw [h a b ha hb, h b a hb ha]
    rcases lt_trichotomy (key a) (key b) with hab | hab | hab
    · rw [compare_lt_iff_lt.mpr hab, compare_gt_iff_gt.mpr hab]
      rfl
    · rw [hab, compare_eq_iff_eq.mpr rfl]
      rfl
    · rw [compare_gt_iff_gt.mpr hab, compare_lt_iff_lt.mpr hab]
      rfl
  trans a b c ha hb hc hab hbc := by
    rw [h a b ha hb, compare_le_iff_le] at hab
    rw [h b c hb hc, compare_le_iff_le] at hbc
    rw [h a c ha hc, compare_le_iff_le]
    exact hab.trans hbc

theorem mono {Q : α → Prop} (h : Ranking cmp P) (hsub : ∀ a, Q a → P a) : Ranking cmp Q where
  swap a b ha hb := h.swap a b (hsub a ha) (hsub b hb)
  trans a b c ha hb hc := h.trans a b c (hsub a ha) (hsub b hb) (hsub c hc)

theorem reverse (h : Ranking cmp P) : Ranking (fun a b => cmp b a) P where
  swap a b ha hb := h.swap b a hb ha
  trans a b c ha hb hc hab hbc := h.trans c b a hc hb ha hbc hab

theorem self (h : Ranking cmp P) (ha : P a) : cmp a a = .eq := by
  have hswap := h.swap a a ha ha
  cases hself : cmp a a with
  | eq => rfl
  | lt | gt =>
      rw [hself] at hswap
      cases hswap

/-- What comes before one that comes no later comes before. -/
theorem lt_of_lt_of_le (h : Ranking cmp P) (ha : P a) (hb : P b) (hc : P c)
    (hab : cmp a b = .lt) (hbc : cmp b c ≠ .gt) : cmp a c = .lt := by
  by_contra hac
  have hca : cmp c a ≠ .gt := by
    rw [h.swap a c ha hc]
    cases hcmp : cmp a c with
    | lt => exact absurd hcmp hac
    | eq | gt => simp
  refine h.trans b c a hb hc ha hbc hca ?_
  rw [h.swap a b ha hb, hab]
  rfl

theorem lt_of_le_of_lt (h : Ranking cmp P) (ha : P a) (hb : P b) (hc : P c)
    (hab : cmp a b ≠ .gt) (hbc : cmp b c = .lt) : cmp a c = .lt := by
  have hcb : cmp c b = .gt := by
    rw [h.swap b c hb hc, hbc]
    rfl
  by_contra hac
  have hca : cmp c a ≠ .gt := by
    rw [h.swap a c ha hc]
    cases hcmp : cmp a c with
    | lt => exact absurd hcmp hac
    | eq | gt => simp
  exact h.trans c a b hc ha hb hca hab hcb

/-- A second ranking breaks the ties of a first. -/
theorem breakTies (h : Ranking cmp P) (h' : Ranking cmp' P) :
    Ranking (fun a b => (cmp a b).then (cmp' a b)) P where
  swap a b ha hb := by
    rw [h.swap a b ha hb, h'.swap a b ha hb]
    cases cmp a b <;> rfl
  trans a b c ha hb hc hab hbc := by
    have first : cmp a b ≠ .gt := fun hgt => hab (by rw [hgt]; rfl)
    have second : cmp b c ≠ .gt := fun hgt => hbc (by rw [hgt]; rfl)
    cases hac : cmp a c with
    | lt => simp
    | gt => exact absurd hac (h.trans a b c ha hb hc first second)
    | eq =>
        -- where the ends tie, so does each step
        have hab' : cmp a b = .eq := by
          cases hcmp : cmp a b with
          | eq => rfl
          | gt => exact absurd hcmp first
          | lt => rw [h.lt_of_lt_of_le ha hb hc hcmp second] at hac; cases hac
        have hbc' : cmp b c = .eq := by
          cases hcmp : cmp b c with
          | eq => rfl
          | gt => exact absurd hcmp second
          | lt => rw [h.lt_of_le_of_lt ha hb hc first hcmp] at hac; cases hac
        rw [hab'] at hab
        rw [hbc'] at hbc
        exact h'.trans a b c ha hb hc hab hbc

/-- Several rankings, each breaking the ties of those before it. -/
theorem lexicographic {ranks : List (α → α → Ordering)} (hlast : Ranking cmp P)
    (h : ∀ r ∈ ranks, Ranking r P) :
    Ranking (fun a b => ranks.foldr (fun r o => (r a b).then o) (cmp a b)) P := by
  induction ranks with
  | nil => exact hlast
  | cons r rest ih =>
      exact (h r List.mem_cons_self).breakTies (ih fun s hs => h s (List.mem_cons_of_mem _ hs))

/-- **A ranking of a finite list is by a number**: where it tells any two of the
list's elements apart, each has a place, and comparing two is comparing their
places. -/
theorem exists_place {all : List α} (h : Ranking cmp (· ∈ all))
    (hapart : ∀ a ∈ all, ∀ b ∈ all, cmp a b = .eq → a = b) :
    ∃ place : α → ℕ, ∀ a ∈ all, ∀ b ∈ all, cmp a b = compare (place a) (place b) := by
  classical
  have hless : ∀ a ∈ all, ∀ b ∈ all, cmp a b = .lt →
      (all.toFinset.filter (cmp · a = .lt)).card < (all.toFinset.filter (cmp · b = .lt)).card := by
    intro a ha b hb hab
    refine Finset.card_lt_card (Finset.ssubset_iff_subset_ne.mpr ⟨fun c hc => ?_, fun heq => ?_⟩)
    · obtain ⟨hmem, hlt⟩ := Finset.mem_filter.mp hc
      refine Finset.mem_filter.mpr ⟨hmem, ?_⟩
      exact h.lt_of_lt_of_le (List.mem_toFinset.mp hmem) ha hb hlt (by rw [hab]; decide)
    · have hself : a ∈ all.toFinset.filter (cmp · a = .lt) :=
        heq ▸ Finset.mem_filter.mpr ⟨List.mem_toFinset.mpr ha, hab⟩
      have := (Finset.mem_filter.mp hself).2
      rw [h.self ha] at this
      cases this
  refine ⟨fun a => (all.toFinset.filter (cmp · a = .lt)).card, fun a ha b hb => ?_⟩
  cases hab : cmp a b with
  | lt => exact (compare_lt_iff_lt.mpr (hless a ha b hb hab)).symm
  | eq => rw [hapart a ha b hb hab, compare_eq_iff_eq.mpr rfl]
  | gt =>
      have hba : cmp b a = .lt := by
        rw [h.swap a b ha hb, hab]
        rfl
      exact (compare_gt_iff_gt.mpr (hless b hb a ha hba)).symm

end Ranking

/-- **Sorting by a ranking** puts each element at its place. -/
theorem sorted_by_place {cmp : α → α → Ordering} {place : α → ℕ} {l : List α}
    (h : ∀ a ∈ l, ∀ b ∈ l, cmp a b = compare (place a) (place b)) :
    (l.mergeSort fun a b => cmp a b != .gt).Pairwise fun a b => place a ≤ place b := by
  have hmap : (l.mergeSort fun a b => cmp a b != .gt).map place =
      (l.map place).mergeSort fun m n => decide (m ≤ n) := by
    refine List.map_mergeSort fun a ha b hb => ?_
    rw [h a ha b hb, Bool.eq_iff_iff, bne_iff_ne, compare_le_iff_le, decide_eq_true_eq]
  have hsorted : ((l.map place).mergeSort fun m n => decide (m ≤ n)).Pairwise (· ≤ ·) := by
    refine (List.pairwise_mergeSort (fun a b c hab hbc => ?_) (fun a b => ?_) _).imp
      fun hab => of_decide_eq_true hab
    · simp only [decide_eq_true_eq] at hab hbc ⊢
      omega
    · simp only [Bool.or_eq_true, decide_eq_true_eq]
      omega
  rw [← hmap] at hsorted
  exact List.pairwise_map.mp hsorted

end Base
