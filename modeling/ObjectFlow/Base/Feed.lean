import Mathlib.Data.List.Basic
import Mathlib.Data.List.Sort
import Mathlib.Order.Basic

/-!
# Feeds of a log that grows at its end

The entries of a log stand at increasing positions, and every entry appended
stands past those before it.  A reader asks for what it selects past a position
and is answered a page, which covers a *stretch* of positions: past the one
asked, up to the one to go on from.

What a reader has been given is what its stretches select.  The rules below are
the ones used afterwards: stretches that follow one another deliver in order
and each entry at most once, a stretch settled is not changed by the log's
growth, and a reader whose selection does not change is given what one stretch
over all of them selects.
-/

namespace Base

variable {ε : Type*} (position : ε → Int)

/-- The entries of a log past one position and at most at another that are
selected. -/
def between (selects : ε → Bool) (after upto : Int) (log : List ε) : List ε :=
  log.filter fun e => decide (after < position e) && decide (position e ≤ upto) && selects e

/-- The entries of a log past a position that are selected. -/
def past (selects : ε → Bool) (after : Int) (log : List ε) : List ε :=
  log.filter fun e => decide (after < position e) && selects e

/-- What a page covers: the positions past one and up to another, and what is
selected of them. -/
structure Stretch (ε : Type*) where
  after : Int
  upto : Int
  selects : ε → Bool

/-- What a stretch selects of a log. -/
def Stretch.rows (s : Stretch ε) (log : List ε) : List ε :=
  between position s.selects s.after s.upto log

/-- What several stretches select, one after another. -/
def delivered (stretches : List (Stretch ε)) (log : List ε) : List ε :=
  stretches.flatMap fun s => s.rows position log

/-- Stretches that follow one another from one position to another. -/
def Follow : Int → List (Stretch ε) → Int → Prop
  | start, [], finish => start = finish
  | start, s :: rest, finish => s.after = start ∧ start ≤ s.upto ∧ Follow s.upto rest finish

variable {position}

theorem mem_between {selects : ε → Bool} {after upto : Int} {log : List ε} {e : ε} :
    e ∈ between position selects after upto log ↔
      e ∈ log ∧ after < position e ∧ position e ≤ upto ∧ selects e = true := by
  simp [between, and_assoc]

theorem mem_past {selects : ε → Bool} {after : Int} {log : List ε} {e : ε} :
    e ∈ past position selects after log ↔
      e ∈ log ∧ after < position e ∧ selects e = true := by
  simp [past]

/-- Two stretches that meet are one. -/
theorem between_append {selects : ε → Bool} {a b c : Int} {log : List ε}
    (hsorted : log.Pairwise fun d e => position d < position e) (hab : a ≤ b) (hbc : b ≤ c) :
    between position selects a b log ++ between position selects b c log =
      between position selects a c log := by
  induction log with
  | nil => rfl
  | cons e rest ih =>
      have ih := ih hsorted.of_cons
      have hrest : ∀ d ∈ rest, position e < position d := fun d => List.rel_of_pairwise_cons hsorted
      by_cases hb : position e ≤ b
      · -- the first entry is of the first stretch, if of either
        have hout : ¬ b < position e := not_lt.mpr hb
        have hc : position e ≤ c := hb.trans hbc
        by_cases ha : a < position e
        · by_cases hs : selects e = true
          · simp [between, ha, hb, hout, hc, hs] at ih ⊢
            exact ih
          · simp [between, hs] at ih ⊢
            exact ih
        · simp [between, ha, hout] at ih ⊢
          exact ih
      · -- every entry is past the first stretch
        have hnone : between position selects a b (e :: rest) = [] := by
          rw [between, List.filter_eq_nil_iff]
          intro d hd
          have hpast : b < position d := by
            rcases List.mem_cons.mp hd with rfl | hd
            · omega
            · have := hrest d hd
              omega
          simp only [Bool.and_eq_true, decide_eq_true_eq, not_and]
          intro h
          omega
        rw [hnone, List.nil_append]
        refine List.filter_congr fun d hd => ?_
        have hpast : b < position d := by
          rcases List.mem_cons.mp hd with rfl | hd
          · omega
          · have := hrest d hd
            omega
        have ha : a < position d := by omega
        simp [hpast, ha]

/-- Nothing selected past a stretch's end leaves nothing to come. -/
theorem between_eq_past {selects : ε → Bool} {a b : Int} {log : List ε}
    (h : ∀ e ∈ log, selects e = true → position e ≤ b) :
    between position selects a b log = past position selects a log := by
  refine List.filter_congr fun e he => ?_
  cases hs : selects e with
  | false => simp
  | true => simp [h e he hs]

/-- What is appended past a stretch's end is not of it. -/
theorem between_log_append {selects : ε → Bool} {a b : Int} {log new : List ε}
    (hnew : ∀ e ∈ new, b < position e) :
    between position selects a b (log ++ new) = between position selects a b log := by
  have hnone : between position selects a b new = [] := by
    rw [between, List.filter_eq_nil_iff]
    intro e he
    have := hnew e he
    simp only [Bool.and_eq_true, decide_eq_true_eq, not_and]
    intro h
    omega
  rw [between, List.filter_append]
  show between position selects a b log ++ between position selects a b new = _
  rw [hnone, List.append_nil]

/-- The first entries of a log in order are those up to the last of them, and
the others are those past it. -/
theorem take_last {log : List ε} (hsorted : log.Pairwise fun d e => position d < position e)
    {n : Nat} {x : ε} (hx : (log.take n).getLast? = some x) :
    log.take n = log.filter (fun e => decide (position e ≤ position x)) ∧
      log.drop n = log.filter fun e => decide (position x < position e) := by
  obtain ⟨first, hfirst⟩ := List.getLast?_eq_some_iff.mp hx
  have happend := List.take_append_drop n log
  rw [← happend, List.pairwise_append] at hsorted
  obtain ⟨htake, -, hcross⟩ := hsorted
  have hle : ∀ e ∈ log.take n, position e ≤ position x := by
    rw [hfirst, List.pairwise_append] at htake
    intro e he
    rw [hfirst] at he
    rcases List.mem_append.mp he with he | he
    · exact le_of_lt (htake.2.2 e he x List.mem_cons_self)
    · exact le_of_eq (congrArg position (List.mem_singleton.mp he))
  have hlt : ∀ e ∈ log.drop n, position x < position e := fun e he =>
    hcross x (hfirst ▸ List.mem_append_right _ List.mem_cons_self) e he
  have hnone : (log.drop n).filter (fun e => decide (position e ≤ position x)) = [] := by
    rw [List.filter_eq_nil_iff]
    intro e he
    simpa using hlt e he
  have hnone' : (log.take n).filter (fun e => decide (position x < position e)) = [] := by
    rw [List.filter_eq_nil_iff]
    intro e he
    simpa using hle e he
  constructor
  · conv_rhs => rw [← happend, List.filter_append, hnone, List.append_nil]
    exact (List.filter_eq_self.mpr fun e he => by simpa using hle e he).symm
  · conv_rhs => rw [← happend, List.filter_append, hnone', List.nil_append]
    exact (List.filter_eq_self.mpr fun e he => by simpa using hlt e he).symm

theorem past_increasing {selects : ε → Bool} {a : Int} {log : List ε}
    (hsorted : log.Pairwise fun d e => position d < position e) :
    (past position selects a log).Pairwise fun d e => position d < position e :=
  hsorted.filter _

/-- A page of what is selected past a position is a stretch up to its last
entry. -/
theorem take_past {selects : ε → Bool} {a : Int} {log : List ε} {n : Nat} {x : ε}
    (hsorted : log.Pairwise fun d e => position d < position e)
    (hx : ((past position selects a log).take n).getLast? = some x) :
    (past position selects a log).take n = between position selects a (position x) log := by
  rw [(take_last (past_increasing hsorted) hx).1, past, List.filter_filter]
  refine List.filter_congr fun e _ => ?_
  rw [← Bool.and_assoc, Bool.and_comm (decide (position e ≤ position x))]

/-- What follows a page is what is selected past its last entry. -/
theorem drop_past {selects : ε → Bool} {a : Int} {log : List ε} {n : Nat} {x : ε}
    (hsorted : log.Pairwise fun d e => position d < position e)
    (hx : ((past position selects a log).take n).getLast? = some x) :
    (past position selects a log).drop n = past position selects (position x) log := by
  have hpast : a < position x := by
    have hmem := List.mem_of_mem_take (List.mem_of_getLast? hx)
    exact (mem_past.mp hmem).2.1
  rw [(take_last (past_increasing hsorted) hx).2, past, past, List.filter_filter]
  refine List.filter_congr fun e _ => ?_
  by_cases he : position x < position e
  · simp [he, hpast.trans he]
  · simp [he]

/-- An entry selected that a reader passes is one fewer to come. -/
theorem past_length_lt {selects : ε → Bool} {a b : Int} {log : List ε} {e : ε} (he : e ∈ log)
    (ha : a < position e) (hb : position e ≤ b) (hs : selects e = true) :
    (past position selects b log).length < (past position selects a log).length := by
  have hfilter : past position selects b log =
      (past position selects a log).filter fun d => decide (b < position d) := by
    rw [past, past, List.filter_filter]
    refine List.filter_congr fun d _ => ?_
    by_cases hd : b < position d
    · have : a < position d := by omega
      simp [hd, this]
    · simp [hd]
  rw [hfilter, List.length_filter_lt_length_iff_exists]
  refine ⟨e, mem_past.mpr ⟨he, ha, hs⟩, ?_⟩
  simpa using hb

/-! ### Stretches that follow one another -/

theorem Follow.le {start finish : Int} {stretches : List (Stretch ε)}
    (h : Follow start stretches finish) : start ≤ finish := by
  induction stretches generalizing start with
  | nil => exact le_of_eq h
  | cons s rest ih => exact h.2.1.trans (ih h.2.2)

theorem Follow.snoc {start middle : Int} {stretches : List (Stretch ε)} {s : Stretch ε}
    (h : Follow start stretches middle) (hafter : s.after = middle) (hupto : middle ≤ s.upto) :
    Follow start (stretches ++ [s]) s.upto := by
  induction stretches generalizing start with
  | nil =>
      cases h
      exact ⟨hafter, hupto, rfl⟩
  | cons t rest ih => exact ⟨h.1, h.2.1, ih h.2.2⟩

theorem Follow.split {start finish : Int} {before after : List (Stretch ε)}
    (h : Follow start (before ++ after) finish) :
    ∃ middle, Follow start before middle ∧ Follow middle after finish := by
  induction before generalizing start with
  | nil => exact ⟨start, rfl, h⟩
  | cons s rest ih =>
      obtain ⟨middle, hbefore, hafter⟩ := ih h.2.2
      exact ⟨middle, ⟨h.1, h.2.1, hbefore⟩, hafter⟩

/-- A position between the ends is of some stretch. -/
theorem Follow.covers {start finish : Int} {stretches : List (Stretch ε)}
    (h : Follow start stretches finish) {x : Int} (hstart : start < x) (hfinish : x ≤ finish) :
    ∃ s ∈ stretches, s.after < x ∧ x ≤ s.upto := by
  induction stretches generalizing start with
  | nil =>
      have : start = finish := h
      omega
  | cons s rest ih =>
      by_cases hx : x ≤ s.upto
      · exact ⟨s, List.mem_cons_self, by rw [h.1]; exact hstart, hx⟩
      · obtain ⟨t, ht, hcovers⟩ := ih h.2.2 (not_le.mp hx)
        exact ⟨t, List.mem_cons_of_mem _ ht, hcovers⟩

theorem Follow.mem_bounds {start finish : Int} {stretches : List (Stretch ε)}
    (h : Follow start stretches finish) {s : Stretch ε} (hs : s ∈ stretches) :
    start ≤ s.after ∧ s.upto ≤ finish := by
  induction stretches generalizing start with
  | nil => cases hs
  | cons t rest ih =>
      rcases List.mem_cons.mp hs with rfl | hs
      · exact ⟨le_of_eq h.1.symm, h.2.2.le⟩
      · have := ih h.2.2 hs
        have := h.2.1
        omega

theorem mem_delivered {stretches : List (Stretch ε)} {log : List ε} {e : ε} :
    e ∈ delivered position stretches log ↔
      e ∈ log ∧ ∃ s ∈ stretches, s.after < position e ∧ position e ≤ s.upto ∧
        s.selects e = true := by
  simp only [delivered, List.mem_flatMap, Stretch.rows, mem_between]
  constructor
  · rintro ⟨s, hs, he, h⟩
    exact ⟨he, s, hs, h⟩
  · rintro ⟨he, s, hs, h⟩
    exact ⟨s, hs, he, h⟩

/-- **Once and in order.**  What stretches that follow one another deliver of a
log in order is in order, and so holds each entry at most once. -/
theorem Follow.increasing {start finish : Int} {stretches : List (Stretch ε)} {log : List ε}
    (h : Follow start stretches finish)
    (hsorted : log.Pairwise fun d e => position d < position e) :
    (delivered position stretches log).Pairwise fun d e => position d < position e := by
  induction stretches generalizing start with
  | nil => exact List.Pairwise.nil
  | cons s rest ih =>
      have hrest := ih h.2.2
      rw [delivered, List.flatMap_cons, List.pairwise_append]
      refine ⟨hsorted.filter _, hrest, ?_⟩
      intro d hd e he
      obtain ⟨-, -, hupto, -⟩ := mem_between.mp hd
      obtain ⟨-, t, ht, hafter, -⟩ := mem_delivered.mp he
      have := (h.2.2.mem_bounds ht).1
      omega

/-- Stretches that all select alike deliver what one over all of them does. -/
theorem Follow.delivered_eq {start finish : Int} {stretches : List (Stretch ε)} {log : List ε}
    {selects : ε → Bool} (h : Follow start stretches finish)
    (hsorted : log.Pairwise fun d e => position d < position e)
    (hsame : ∀ s ∈ stretches, ∀ e ∈ log, s.selects e = selects e) :
    delivered position stretches log = between position selects start finish log := by
  induction stretches generalizing start with
  | nil =>
      have hnone : between position selects start finish log = [] := by
        rw [between, List.filter_eq_nil_iff]
        intro e _
        have : start = finish := h
        simp only [Bool.and_eq_true, decide_eq_true_eq, not_and]
        intro
        omega
      exact hnone.symm
  | cons s rest ih =>
      have hfirst : s.rows position log = between position selects start s.upto log := by
        rw [Stretch.rows, h.1]
        refine List.filter_congr fun e he => ?_
        rw [hsame s List.mem_cons_self e he]
      rw [delivered, List.flatMap_cons, hfirst]
      show _ ++ delivered position rest log = _
      rw [ih h.2.2 fun t ht => hsame t (List.mem_cons_of_mem _ ht)]
      exact between_append hsorted h.2.1 h.2.2.le

end Base
