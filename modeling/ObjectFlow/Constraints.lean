import Mathlib
import ObjectFlow.Base.Differences
import ObjectFlow.Base.Integer
import ObjectFlow.Base.Noted
import ObjectFlow.Expr

/-!
# Differences a condition bounds

The checker decides whether bounds on the differences of values have a solution.
Its numbers are fractions over 128-bit integers, whose arithmetic is not checked:
where one passes 128 bits nothing is said of what comes out.  Bounds on values
that are all whole are taken to the next whole number first.
-/

namespace ObjectFlow.Logic

open Base

/-- Why conditions are not decided. -/
inductive Undecided where
  /-- They expand to too many cases. -/
  | tooLarge
  /-- A number passes 128 bits. -/
  | overflow
deriving DecidableEq

abbrev Decided (α : Type) := Except Undecided α

/-- An integer of 128 bits. -/
def wide (n : Int) : Decided Int :=
  match fits128 n with
  | some n => .ok n
  | none => .error .overflow

/-! ### Fractions -/

namespace Fraction

/-- `n / d` in its lowest terms, by what divides both. -/
def lowest (n d : Int) : Decided ℚ := do
  let _ ← wide |n|
  let _ ← wide |d|
  return n / d

/-- `n / d` in its lowest terms, its denominator positive. -/
def new (n d : Int) : Decided ℚ :=
  if d < 0 then do lowest (← wide (-n)) (← wide (-d)) else lowest n d

def int (n : Int) : Decided ℚ := new n 1

def add (a b : ℚ) : Decided ℚ := do
  let n ← wide ((← wide (a.num * b.den)) + (← wide (b.num * a.den)))
  new n (← wide (a.den * b.den))

def neg (a : ℚ) : Decided ℚ := do
  let n ← wide (-a.num)
  return n / a.den

def sub (a b : ℚ) : Decided ℚ := do add a (← neg b)

def mul (a b : ℚ) : Decided ℚ := do new (← wide (a.num * b.num)) (← wide (a.den * b.den))

def floor (a : ℚ) : Int := a.num / a.den

def ceil (a : ℚ) : Decided Int := do wide (-((← wide (-a.num)) / a.den))

/-- By cross products. -/
def cmp (a b : ℚ) : Decided Ordering := do
  return compare (← wide (a.num * b.den)) (← wide (b.num * a.den))

end Fraction

/-! ### The solver -/

/-- A value a condition reads. -/
inductive Var where
  | zero
  | state
  | now
  /-- When the object entered a state. -/
  | entered (state : String)
  /-- A count over the object's own collection, by what it counts. -/
  | count (counted : String)
  | attr (name : String)
  | input (name : String)
deriving DecidableEq

/-- `u - v ≤ c`, strict where marked. -/
structure Difference where
  u : Var
  v : Var
  c : ℚ
  strict : Bool
deriving DecidableEq

/-- The least known bound on a difference of two values. -/
abbrev Cell := Option (ℚ × Bool)

/-- Whether a bound is less than what a cell holds. -/
def better (w : ℚ × Bool) : Cell → Decided Bool
  | none => .ok true
  | some b => do return (← Fraction.cmp w.1 b.1) = .lt || (w.1 = b.1 && w.2 && !b.2)

/-- A cell with a bound put in it where less. -/
def lessened (w : ℚ × Bool) (cell : Cell) : Decided Cell := do
  return if ← better w cell then some w else cell

/-- What a bound weighs: between whole values, the last whole number within it. -/
def weight (integer : Bool) (d : Difference) : Decided (ℚ × Bool) :=
  if !integer then .ok (d.c, d.strict)
  else if d.strict then do
    let n ← wide ((← Fraction.ceil d.c) - 1)
    return (← Fraction.int n, false)
  else do return (← Fraction.int (Fraction.floor d.c), false)

/-- Each row of the least bounds, by the values' places. -/
abbrev Dist := List (List Cell)

/-- The least bounds with one more. -/
def entering (integer : Bool) (nodes : List Var) (dist : Dist) (d : Difference) : Decided Dist := do
  let w ← weight integer d
  let i := nodes.idxOf d.v
  let j := nodes.idxOf d.u
  let row := dist.getD i []
  return dist.set i (row.set j (← lessened w (row.getD j none)))

/-- A row with the bounds put together with those of the row passed. -/
def passedRow (k : Nat) (rowK row : List Cell) : Decided (List Cell) :=
  match row.getD k none with
  | none => .ok row
  | some ik => (row.zip rowK).mapM fun cells =>
      match cells.2 with
      | none => .ok cells.1
      | some kj => do lessened (← Fraction.add ik.1 kj.1, ik.2 || kj.2) cells.1

def pass (dist : Dist) (k : Nat) : Decided Dist := dist.mapM (passedRow k (dist.getD k []))

/-- Each value bounded to itself alone. -/
def unbounded (size : Nat) : Dist :=
  (List.range size).map fun i =>
    (List.range size).map fun j => if i = j then some (0, false) else none

/-- The values bounds are on, each once. -/
def terms (bounds : List Difference) : List Var := (bounds.flatMap fun d => [d.u, d.v]).dedup

/-- Difference bounds have a solution: no value is bounded below itself. -/
def consistent (whole : Var → Bool) (bounds : List Difference) : Decided Bool :=
  if bounds.isEmpty then .ok true
  else do
    let nodes := terms bounds
    let integer := nodes.all fun n => n = .zero || whole n
    let dist ← bounds.foldlM (entering integer nodes) (unbounded nodes.length)
    let dist ← (List.range nodes.length).foldlM pass dist
    return (List.range nodes.length).all fun i =>
      ((dist.getD i []).getD i none).any fun w => 0 < w.1 || (w.1 = 0 && !w.2)

/-! ### The arithmetic, where it fits -/

variable {a b c : ℚ} {n m d : Int}

theorem wide_ok (h : wide n = .ok m) : m = n := by
  unfold wide at h
  split at h
  case h_1 k hk =>
    obtain ⟨rfl, -⟩ := fits128_eq_some.mp hk
    exact (Except.ok.inj h).symm
  case h_2 => cases h

namespace Fraction

theorem lowest_ok (h : lowest n d = .ok a) : a = n / d := by
  obtain ⟨-, -, h⟩ := ok_of_bind h
  obtain ⟨-, -, h⟩ := ok_of_bind h
  exact (Except.ok.inj h).symm

theorem new_ok (h : new n d = .ok a) : a = n / d := by
  unfold new at h
  split at h
  case isTrue =>
    obtain ⟨n', hn, h⟩ := ok_of_bind h
    obtain ⟨d', hd, h⟩ := ok_of_bind h
    rw [lowest_ok h, wide_ok hn, wide_ok hd, Int.cast_neg, Int.cast_neg, neg_div_neg_eq]
  case isFalse => exact lowest_ok h

theorem int_ok (h : int n = .ok a) : a = n := by rw [new_ok h, Int.cast_one, div_one]

theorem add_ok (h : add a b = .ok c) : c = a + b := by
  obtain ⟨x, hx, h⟩ := ok_of_bind h
  obtain ⟨y, hy, h⟩ := ok_of_bind h
  obtain ⟨n, hn, h⟩ := ok_of_bind h
  obtain ⟨d, hd, h⟩ := ok_of_bind h
  rw [new_ok h, wide_ok hn, wide_ok hd, wide_ok hx, wide_ok hy]
  have ha : (a.den : ℚ) ≠ 0 := Nat.cast_ne_zero.mpr a.den_nz
  have hb : (b.den : ℚ) ≠ 0 := Nat.cast_ne_zero.mpr b.den_nz
  push_cast
  rw [add_div, mul_div_mul_right _ _ hb, mul_comm (a.den : ℚ), mul_div_mul_right _ _ ha,
    Rat.num_div_den, Rat.num_div_den]

theorem neg_ok (h : neg a = .ok c) : c = -a := by
  obtain ⟨n, hn, h⟩ := ok_of_bind h
  obtain rfl := Except.ok.inj h
  rw [wide_ok hn, Int.cast_neg, neg_div, Rat.num_div_den]

theorem sub_ok (h : sub a b = .ok c) : c = a - b := by
  obtain ⟨m, hm, h⟩ := ok_of_bind h
  rw [add_ok h, neg_ok hm, sub_eq_add_neg]

theorem floor_eq (a : ℚ) : floor a = ⌊a⌋ := Rat.floor_def'.symm

theorem ceil_ok (h : ceil a = .ok n) : n = ⌈a⌉ := by
  obtain ⟨m, hm, h⟩ := ok_of_bind h
  rw [wide_ok h, wide_ok hm, ← neg_neg ⌈a⌉, ← Int.floor_neg, Rat.floor_def', Rat.neg_num,
    Rat.neg_den]

theorem cmp_ok {o : Ordering} (h : cmp a b = .ok o) : o = compare a b := by
  obtain ⟨x, hx, h⟩ := ok_of_bind h
  obtain ⟨y, hy, h⟩ := ok_of_bind h
  obtain rfl := Except.ok.inj h
  rw [wide_ok hx, wide_ok hy]
  rcases lt_trichotomy a b with hlt | rfl | hlt
  · rw [compare_lt_iff_lt.mpr hlt, compare_lt_iff_lt]
    exact (Rat.lt_iff a b).mp hlt
  · rw [compare_eq_iff_eq.mpr rfl, compare_eq_iff_eq.mpr rfl]
  · rw [compare_gt_iff_gt.mpr hlt, compare_gt_iff_gt]
    exact (Rat.lt_iff b a).mp hlt

end Fraction

/-! ### The least bounds -/

/-- What a cell bounds. -/
def Cell.bound : Cell → WithTop (Bound ℚ)
  | none => ⊤
  | some w => (⟨w.1, w.2⟩ : Bound ℚ)

/-- The bound of one place by another. -/
def Dist.entry (dist : Dist) (i j : Nat) : WithTop (Bound ℚ) :=
  Cell.bound ((dist.getD i []).getD j none)

theorem better_ok {w : ℚ × Bool} {cell : Cell} {r : Bool} (h : better w cell = .ok r) :
    r = true ↔ Cell.bound (some w) < Cell.bound cell := by
  cases cell with
  | none =>
      obtain rfl := Except.ok.inj h
      exact iff_of_true rfl (WithTop.coe_lt_top _)
  | some b =>
      obtain ⟨o, ho, h⟩ := ok_of_bind h
      obtain rfl := Except.ok.inj h
      rw [Fraction.cmp_ok ho]
      show _ ↔ ((⟨w.1, w.2⟩ : Bound ℚ) : WithTop (Bound ℚ)) < (⟨b.1, b.2⟩ : Bound ℚ)
      rw [WithTop.coe_lt_coe, ← not_le, Bound.le_iff]
      simp only [Bool.or_eq_true, Bool.and_eq_true, decide_eq_true_eq, Bool.not_eq_true',
        compare_lt_iff_lt]
      grind

/-- A cell lessened holds the less of the two. -/
theorem lessened_ok {w : ℚ × Bool} {cell c : Cell} (h : lessened w cell = .ok c) :
    Cell.bound c = min (Cell.bound cell) (Cell.bound (some w)) := by
  obtain ⟨r, hr, h⟩ := ok_of_bind h
  obtain rfl := Except.ok.inj h
  have hbetter := better_ok hr
  split
  case isTrue htrue => exact (min_eq_right (hbetter.mp htrue).le).symm
  case isFalse hfalse => exact (min_eq_left (not_lt.mp (mt hbetter.mpr hfalse))).symm

/-- Each of a list through a computation that may stop. -/
theorem mapM_ok {α β ε : Type} {f : α → Except ε β} {xs : List α} {ys : List β}
    (h : xs.mapM f = .ok ys) : List.Forall₂ (fun x y => f x = .ok y) xs ys := by
  induction xs generalizing ys with
  | nil =>
      obtain rfl := Except.ok.inj h
      exact .nil
  | cons x rest ih =>
      rw [List.mapM_cons] at h
      obtain ⟨y, hy, h⟩ := ok_of_bind h
      obtain ⟨zs, hzs, h⟩ := ok_of_bind h
      obtain rfl := Except.ok.inj h
      exact .cons hy (ih hzs)

/-- Rows of one length, as many of them. -/
def Dist.Square (size : Nat) (dist : Dist) : Prop :=
  dist.length = size ∧ ∀ i < size, (dist.getD i []).length = size

/-- Each of a list through a computation, by its place. -/
theorem mapM_getElem {α β ε : Type} {f : α → Except ε β} {xs : List α} {ys : List β}
    (h : xs.mapM f = .ok ys) :
    ys.length = xs.length ∧
      ∀ j (hj : j < xs.length) (hj' : j < ys.length), f xs[j] = .ok ys[j] := by
  obtain ⟨hlength, hget⟩ := List.forall₂_iff_get.mp (mapM_ok h)
  exact ⟨hlength.symm, fun j hj hj' => hget j hj hj'⟩

/-- What a row passed bounds. -/
theorem passedRow_ok {k : Nat} {rowK row row' : List Cell} (hlen : row.length = rowK.length)
    (h : passedRow k rowK row = .ok row') :
    row'.length = row.length ∧ ∀ j, Cell.bound (row'.getD j none) =
      min (Cell.bound (row.getD j none))
        (Cell.bound (row.getD k none) + Cell.bound (rowK.getD j none)) := by
  unfold passedRow at h
  split at h
  case h_1 hnone =>
    obtain rfl := Except.ok.inj h
    refine ⟨rfl, fun j => ?_⟩
    rw [hnone, Cell.bound, WithTop.top_add, min_eq_left le_top]
  case h_2 ik hik =>
    obtain ⟨hlength, hcells⟩ := mapM_getElem h
    rw [List.length_zip, ← hlen, min_self] at hlength
    refine ⟨hlength, fun j => ?_⟩
    rw [hik]
    by_cases hj : j < row.length
    · have hcell := hcells j (by rw [List.length_zip]; omega) (by omega)
      rw [List.getElem_zip] at hcell
      rw [List.getD_eq_getElem row' _ (by omega), List.getD_eq_getElem row _ hj,
        List.getD_eq_getElem rowK _ (by omega)]
      split at hcell
      case h_1 hnone =>
        have hkj : rowK[j] = none := hnone
        rw [← Except.ok.inj hcell, hkj]
        exact (min_eq_left le_top).symm
      case h_2 kj hkj =>
        obtain ⟨w, hw, hcell⟩ := ok_of_bind hcell
        have hkj' : rowK[j] = some kj := hkj
        rw [lessened_ok hcell, Fraction.add_ok hw, hkj']
        rfl
    · rw [List.getD_eq_default row' _ (by omega), List.getD_eq_default row _ (by omega),
        List.getD_eq_default rowK _ (by omega)]
      rfl

/-- **A pass** of the least bounds is one of the system they are. -/
theorem pass_ok {size k : Nat} {dist dist' : Dist} (hsquare : dist.Square size) (hk : k < size)
    (h : pass dist k = .ok dist') :
    dist'.Square size ∧ dist'.entry = relax dist.entry k := by
  obtain ⟨hlength, hrows⟩ := mapM_getElem h
  have hrow : ∀ i < size, (dist'.getD i []).length = size ∧ ∀ j, dist'.entry i j =
      min (dist.entry i j) (dist.entry i k + dist.entry k j) := by
    intro i hi
    have hpassed := hrows i (by rw [hsquare.1]; exact hi) (by rw [hlength, hsquare.1]; exact hi)
    rw [← List.getD_eq_getElem dist [], ← List.getD_eq_getElem dist' []] at hpassed
    obtain ⟨hlen, hbound⟩ :=
      passedRow_ok ((hsquare.2 i hi).trans (hsquare.2 k hk).symm) hpassed
    exact ⟨hlen.trans (hsquare.2 i hi), hbound⟩
  refine ⟨⟨hlength.trans hsquare.1, fun i hi => (hrow i hi).1⟩, funext fun i => funext fun j => ?_⟩
  by_cases hi : i < size
  · exact (hrow i hi).2 j
  · have hnone : ∀ d : Dist, d.length = size → ∀ m, d.entry i m = ⊤ := by
      intro d hd m
      unfold Dist.entry
      rw [List.getD_eq_default d _ (by omega)]
      rfl
    unfold relax
    rw [hnone dist' (hlength.trans hsquare.1), hnone dist hsquare.1, hnone dist hsquare.1,
      WithTop.top_add, min_self]

theorem passes_ok {size : Nat} {dist dist' : Dist} (ks : List Nat) (hks : ∀ k ∈ ks, k < size)
    (hsquare : dist.Square size) (h : ks.foldlM pass dist = .ok dist') :
    dist'.entry = relaxed dist.entry ks := by
  induction ks generalizing dist with
  | nil =>
      obtain rfl := Except.ok.inj h
      rfl
  | cons k rest ih =>
      rw [List.foldlM_cons] at h
      obtain ⟨dist₁, hpass, h⟩ := ok_of_bind h
      obtain ⟨hsquare₁, hentry⟩ := pass_ok hsquare (hks k List.mem_cons_self) hpass
      rw [ih (fun m hm => hks m (List.mem_cons_of_mem k hm)) hsquare₁ h, hentry]
      rfl

/-- What a bound weighs, as a bound. -/
def Difference.bound (integer : Bool) (d : Difference) : Bound ℚ :=
  if integer then ⟨if d.strict then ⌈d.c⌉ - 1 else ⌊d.c⌋, false⟩ else ⟨d.c, d.strict⟩

theorem weight_ok {integer : Bool} {d : Difference} {w : ℚ × Bool} (h : weight integer d = .ok w) :
    Cell.bound (some w) = (d.bound integer : Bound ℚ) := by
  unfold weight at h
  unfold Difference.bound
  cases integer with
  | false =>
      obtain rfl := Except.ok.inj h
      rfl
  | true =>
      rw [if_neg (by decide)] at h
      rw [if_pos rfl]
      split at h
      case isTrue hstrict =>
        obtain ⟨c, hc, h⟩ := ok_of_bind h
        obtain ⟨n, hn, h⟩ := ok_of_bind h
        obtain ⟨x, hx, h⟩ := ok_of_bind h
        obtain rfl := Except.ok.inj h
        rw [if_pos hstrict, Fraction.int_ok hx, wide_ok hn, Fraction.ceil_ok hc]
        push_cast
        rfl
      case isFalse hstrict =>
        obtain ⟨x, hx, h⟩ := ok_of_bind h
        obtain rfl := Except.ok.inj h
        rw [if_neg hstrict, Fraction.int_ok hx, Fraction.floor_eq]
        rfl

theorem entry_def (dist : Dist) (i j : Nat) :
    dist.entry i j = Cell.bound ((dist[i]?.getD [])[j]?.getD none) := by
  unfold Dist.entry
  rw [List.getD_eq_getElem?_getD, List.getD_eq_getElem?_getD]

theorem unbounded_square (size : Nat) : (unbounded size).Square size := by
  refine ⟨by simp [unbounded], fun i hi => ?_⟩
  rw [List.getD_eq_getElem _ _ (by simp [unbounded, hi])]
  simp [unbounded]

theorem unbounded_entry {size i j : Nat} (hi : i < size) (hj : j < size) :
    (unbounded size).entry i j = if i = j then ((0 : Bound ℚ) : WithTop (Bound ℚ)) else ⊤ := by
  rw [entry_def]
  unfold unbounded
  rw [List.getElem?_map, List.getElem?_range hi, Option.map_some, Option.getD_some,
    List.getElem?_map, List.getElem?_range hj, Option.map_some, Option.getD_some]
  split <;> rfl

theorem entry_lt {size i j : Nat} {dist : Dist} {b : Bound ℚ} (hsquare : dist.Square size)
    (h : dist.entry i j = b) : i < size ∧ j < size := by
  have hi : i < size := by
    by_contra hi
    unfold Dist.entry at h
    rw [List.getD_eq_default dist _ (by rw [hsquare.1]; omega)] at h
    cases h
  refine ⟨hi, ?_⟩
  by_contra hj
  unfold Dist.entry at h
  rw [List.getD_eq_default _ _ (by rw [hsquare.2 i hi]; omega)] at h
  cases h

/-- One more bound among the least. -/
theorem entering_ok {integer : Bool} {nodes : List Var} {dist dist' : Dist} {d : Difference}
    (hsquare : dist.Square nodes.length) (hu : d.u ∈ nodes) (hv : d.v ∈ nodes)
    (h : entering integer nodes dist d = .ok dist') :
    dist'.Square nodes.length ∧ ∀ i j, dist'.entry i j =
      if i = nodes.idxOf d.v ∧ j = nodes.idxOf d.u then
        min (dist.entry i j) (d.bound integer : Bound ℚ)
      else dist.entry i j := by
  obtain ⟨w, hw, h⟩ := ok_of_bind h
  obtain ⟨c, hc, h⟩ := ok_of_bind h
  obtain rfl := Except.ok.inj h
  have hi := List.idxOf_lt_length_of_mem hv
  have hj := List.idxOf_lt_length_of_mem hu
  have hbound := lessened_ok hc
  rw [weight_ok hw] at hbound
  generalize hplace : nodes.idxOf d.v = i₀ at *
  generalize hplace' : nodes.idxOf d.u = j₀ at *
  have hrow := hsquare.2 i₀ hi
  constructor
  · refine ⟨by rw [List.length_set, hsquare.1], fun i hi' => ?_⟩
    rw [List.getD_eq_getElem _ _ (by rw [List.length_set, hsquare.1]; exact hi'), List.getElem_set]
    split
    case isTrue => rw [List.length_set, hrow]
    case isFalse =>
      have hsame := hsquare.2 i hi'
      rwa [List.getD_eq_getElem _ _ (by rw [hsquare.1]; exact hi')] at hsame
  · intro i j
    rw [entry_def, entry_def, List.getElem?_set]
    rw [List.getD_eq_getElem?_getD] at hrow
    simp only [List.getD_eq_getElem?_getD] at hbound ⊢
    by_cases hplaced : i₀ = i
    · subst hplaced
      rw [if_pos rfl, if_pos (by rw [hsquare.1]; exact hi), Option.getD_some, List.getElem?_set]
      by_cases hcolumn : j₀ = j
      · subst hcolumn
        rw [if_pos rfl, if_pos (by rw [hrow]; exact hj), if_pos ⟨rfl, rfl⟩, Option.getD_some, hbound]
      · rw [if_neg hcolumn, if_neg fun h => hcolumn h.2.symm]
    · rw [if_neg hplaced, if_neg fun h => hplaced h.1.symm]

/-- The bounds entered, one after another. -/
theorem entered_ok {integer : Bool} {nodes : List Var} {Q : Bound ℚ → Prop}
    {dist dist' : Dist} {bounds : List Difference} (hsquare : dist.Square nodes.length)
    (hnodes : ∀ d ∈ bounds, d.u ∈ nodes ∧ d.v ∈ nodes)
    (hQ : ∀ i j (b : Bound ℚ), dist.entry i j = b → Q b)
    (hbounds : ∀ d ∈ bounds, Q (d.bound integer))
    (h : bounds.foldlM (entering integer nodes) dist = .ok dist') :
    dist'.Square nodes.length ∧ (∀ i j (b : Bound ℚ), dist'.entry i j = b → Q b) ∧
      (∀ i j, dist'.entry i j ≤ dist.entry i j) ∧
        ∀ σ : ℕ → ℚ, Solves dist'.entry σ ↔ Solves dist.entry σ ∧ ∀ d ∈ bounds,
        (d.bound integer).Holds (σ (nodes.idxOf d.u) - σ (nodes.idxOf d.v)) := by
  induction bounds generalizing dist with
  | nil =>
      obtain rfl := Except.ok.inj h
      exact ⟨hsquare, hQ, fun _ _ => le_rfl, fun σ => by simp⟩
  | cons d rest ih =>
      rw [List.foldlM_cons] at h
      obtain ⟨dist₁, hone, h⟩ := ok_of_bind h
      obtain ⟨hu, hv⟩ := hnodes d List.mem_cons_self
      obtain ⟨hsquare₁, hentry⟩ := entering_ok hsquare hu hv hone
      have hQ₁ : ∀ i j (b : Bound ℚ), dist₁.entry i j = b → Q b := by
        intro i j b hb
        rw [hentry] at hb
        split at hb
        case isTrue =>
          rcases min_choice (dist.entry i j) (d.bound integer) with hmin | hmin
          · exact hQ i j b (hmin ▸ hb)
          · rw [hmin] at hb
            exact WithTop.coe_inj.mp hb ▸ hbounds d List.mem_cons_self
        case isFalse => exact hQ i j b hb
      obtain ⟨hsquare', hQ', hle, hsolves⟩ := ih hsquare₁
        (fun e he => hnodes e (List.mem_cons_of_mem d he)) hQ₁
        (fun e he => hbounds e (List.mem_cons_of_mem d he)) h
      refine ⟨hsquare', hQ', fun i j => (hle i j).trans ?_, fun σ => ?_⟩
      · rw [hentry]
        split
        · exact min_le_left _ _
        · exact le_rfl
      rw [hsolves, solves_lessened ((hentry _ _).trans (if_pos ⟨rfl, rfl⟩))
        fun i j hplace => (hentry i j).trans (if_neg hplace), and_assoc, List.forall_mem_cons]

/-! ### What the solver decides -/

/-- What a bound says of values. -/
def Difference.Holds (d : Difference) (ρ : Var → ℚ) : Prop :=
  (⟨d.c, d.strict⟩ : Bound ℚ).Holds (ρ d.u - ρ d.v)

/-- Values that satisfy bounds, whole where known to be. -/
structure Satisfies (whole : Var → Bool) (bounds : List Difference) (ρ : Var → ℚ) : Prop where
  zero : ρ .zero = 0
  whole : ∀ v, whole v = true → ∃ n : ℤ, ρ v = n
  bounds : ∀ d ∈ bounds, d.Holds ρ

/-- Between whole values a bound says what the last whole number within it does. -/
theorem bound_whole {d : Difference} {ρ : Var → ℚ} {m n : ℤ} (hu : ρ d.u = m) (hv : ρ d.v = n) :
    (d.bound true).Holds (ρ d.u - ρ d.v) ↔ d.Holds ρ := by
  unfold Difference.Holds Difference.bound
  rw [if_pos rfl, hu, hv, ← Int.cast_sub]
  unfold Bound.Holds
  by_cases hstrict : d.strict = true
  · rw [if_neg Bool.false_ne_true, if_pos hstrict, if_pos hstrict, ← Int.lt_ceil, ← Int.cast_one,
      ← Int.cast_sub, Int.cast_le, Int.le_sub_one_iff]
  · rw [if_neg Bool.false_ne_true, if_neg hstrict, if_neg hstrict, Int.cast_le, Int.le_floor]

theorem mem_terms {bounds : List Difference} {d : Difference} (h : d ∈ bounds) :
    d.u ∈ terms bounds ∧ d.v ∈ terms bounds := by
  unfold terms
  simp only [List.mem_dedup, List.mem_flatMap]
  exact ⟨⟨d, h, by simp⟩, d, h, by simp⟩

theorem unbounded_zero {size i j : Nat} {b : Bound ℚ} (h : (unbounded size).entry i j = b) :
    i = j ∧ b = 0 := by
  obtain ⟨hi, hj⟩ := entry_lt (unbounded_square size) h
  rw [unbounded_entry hi hj] at h
  split at h
  case isTrue heq => exact ⟨heq, (WithTop.coe_inj.mp h).symm⟩
  case isFalse => cases h

/-- A value not bounded below itself. -/
theorem any_nonneg {cell : Cell} (h : Cell.bound cell ≤ 0) :
    (cell.any fun w => 0 < w.1 || (w.1 = 0 && !w.2)) = true ↔ 0 ≤ Cell.bound cell := by
  cases cell with
  | none => exact absurd (h.trans_lt (WithTop.coe_lt_top 0)) (lt_irrefl _)
  | some w =>
      show _ ↔ ((0 : Bound ℚ) : WithTop (Bound ℚ)) ≤ (⟨w.1, w.2⟩ : Bound ℚ)
      rw [WithTop.coe_le_coe, Bound.le_iff, Bound.zero_def]
      simp only [Option.any_some, Bool.or_eq_true, Bool.and_eq_true, decide_eq_true_eq,
        Bool.not_eq_true']
      grind

/-- The solver's passes decide whether values of one kind satisfy the bounds. -/
theorem passes_decide {integer : Bool} {bounds : List Difference} {P : ℚ → Prop}
    {Q : Bound ℚ → Prop} {dist dist' : Dist} (hchoice : Choice P Q) (hzero : Q 0)
    (hbounds : ∀ d ∈ bounds, Q (d.bound integer))
    (hentered : bounds.foldlM (entering integer (terms bounds)) (unbounded (terms bounds).length) =
      .ok dist)
    (hpassed : (List.range (terms bounds).length).foldlM pass dist = .ok dist') :
    ((List.range (terms bounds).length).all fun i =>
        ((dist'.getD i []).getD i none).any fun w => 0 < w.1 || (w.1 = 0 && !w.2)) = true ↔
      ∃ ρ : Var → ℚ, (∀ v, P (ρ v)) ∧ ∀ d ∈ bounds, (d.bound integer).Holds (ρ d.u - ρ d.v) := by
  obtain ⟨hsquare, hQ, hle, hsolves⟩ := entered_ok (unbounded_square _) (fun d => mem_terms)
    (fun i j b hb => (unbounded_zero hb).2 ▸ hzero) hbounds hentered
  have hentry := passes_ok _ (fun k hk => List.mem_range.mp hk) hsquare hpassed
  have hdiag : ∀ k ∈ List.range (terms bounds).length, dist'.entry k k ≤ 0 := by
    intro k hk
    rw [List.mem_range] at hk
    rw [hentry]
    refine ((relaxed_le _ _ k k).trans (hle k k)).trans ?_
    rw [unbounded_entry hk hk, if_pos rfl]
    exact le_rfl
  rw [List.all_eq_true]
  have hall : (∀ k ∈ List.range (terms bounds).length,
      (((dist'.getD k []).getD k none).any fun w => 0 < w.1 || (w.1 = 0 && !w.2)) = true) ↔
        ∀ k ∈ List.range (terms bounds).length,
          0 ≤ relaxed dist.entry (List.range (terms bounds).length) k k := by
    refine forall₂_congr fun k hk => ?_
    rw [any_nonneg (hdiag k hk), ← hentry]
    rfl
  rw [hall, relaxed_exact hchoice _ hQ fun i j b hb =>
    (entry_lt hsquare hb).imp List.mem_range.mpr List.mem_range.mpr]
  have hinit : ∀ σ : ℕ → ℚ, Solves (unbounded (terms bounds).length).entry σ := by
    intro σ i j b hb
    obtain ⟨rfl, rfl⟩ := unbounded_zero hb
    rw [sub_self]
    exact Bound.zero_le_iff.mp le_rfl
  constructor
  · intro hsolved
    obtain ⟨σ, hP, hσ⟩ := hsolved
    exact ⟨fun v => σ ((terms bounds).idxOf v), fun v => hP _, ((hsolves σ).mp hσ).2⟩
  · intro hsatisfied
    obtain ⟨ρ, hP, hρ⟩ := hsatisfied
    refine ⟨fun i => ρ ((terms bounds).getD i .zero), fun i => hP _, (hsolves _).mpr
      ⟨hinit _, fun d hd => ?_⟩⟩
    have hplace : ∀ v ∈ terms bounds, (terms bounds).getD ((terms bounds).idxOf v) .zero = v := by
      intro v hv
      rw [List.getD_eq_getElem _ _ (List.idxOf_lt_length_of_mem hv), List.getElem_idxOf]
    obtain ⟨hu, hv⟩ := mem_terms hd
    show (d.bound integer).Holds (ρ _ - ρ _)
    rw [hplace _ hu, hplace _ hv]
    exact hρ d hd

/-- Values on the terms of some bounds alone, taken from that of `zero`. -/
def restricted (nodes : List Var) (ρ : Var → ℚ) (v : Var) : ℚ :=
  if v ∈ nodes then ρ v - ρ .zero else 0

theorem restricted_zero (nodes : List Var) (ρ : Var → ℚ) : restricted nodes ρ .zero = 0 := by
  unfold restricted
  rw [sub_self, ite_self]

theorem restricted_sub {bounds : List Difference} {ρ : Var → ℚ} {d : Difference}
    (hd : d ∈ bounds) :
    restricted (terms bounds) ρ d.u - restricted (terms bounds) ρ d.v = ρ d.u - ρ d.v := by
  obtain ⟨hu, hv⟩ := mem_terms hd
  unfold restricted
  rw [if_pos hu, if_pos hv, sub_sub_sub_cancel_right]

/-- The terms of some bounds are all whole, or none of them is. -/
def Uniform (whole : Var → Bool) (bounds : List Difference) : Prop :=
  (∀ v ∈ terms bounds, v = .zero ∨ whole v = true) ∨ ∀ v ∈ terms bounds, whole v = false

/-- The whole numbers among the fractions. -/
def wholes : AddSubgroup ℚ := (Int.castAddHom ℚ).range

theorem mem_wholes {x : ℚ} : x ∈ wholes ↔ ∃ n : ℤ, (n : ℚ) = x := Iff.rfl

variable {whole : Var → Bool} {bounds : List Difference} {ρ : Var → ℚ}

theorem Satisfies.term_whole (h : Satisfies whole bounds ρ)
    (hterms : ∀ v ∈ terms bounds, v = .zero ∨ whole v = true) {v : Var} (hv : v ∈ terms bounds) :
    ∃ n : ℤ, ρ v = n := by
  rcases hterms v hv with rfl | hwhole
  · exact ⟨0, by rw [h.zero, Int.cast_zero]⟩
  · exact h.whole v hwhole

theorem whole_bounds (d : Difference) :
    (d.bound true).value ∈ wholes ∧ (d.bound true).strict = false := by
  unfold Difference.bound
  rw [if_pos rfl]
  refine ⟨mem_wholes.mpr ?_, rfl⟩
  split
  · exact ⟨⌈d.c⌉ - 1, by push_cast; rfl⟩
  · exact ⟨⌊d.c⌋, rfl⟩

/-- **The solver is sound, and exact on terms of one kind**: where it answers that
bounds have no solution there is none, and where the terms are all whole, or none
of them is, it answers so wherever there is none. -/
theorem consistent_sound {b : Bool} (h : consistent whole bounds = .ok b) :
    (b = false → ∀ ρ, ¬ Satisfies whole bounds ρ) ∧
      (Uniform whole bounds → b = true → ∃ ρ, Satisfies whole bounds ρ) := by
  unfold consistent at h
  split at h
  case isTrue hempty =>
    obtain rfl := Except.ok.inj h
    rw [List.isEmpty_iff] at hempty
    subst hempty
    refine ⟨fun h => (by cases h), fun _ _ => ⟨fun _ => 0, rfl, fun _ _ => ⟨0, rfl⟩, by simp⟩⟩
  case isFalse =>
    obtain ⟨dist, hentered, h⟩ := ok_of_bind h
    obtain ⟨dist', hpassed, h⟩ := ok_of_bind h
    obtain hb := Except.ok.inj h
    cases hinteger : (terms bounds).all fun n => n = .zero || whole n with
    | true =>
        rw [hinteger] at hentered
        have hterms : ∀ v ∈ terms bounds, v = .zero ∨ whole v = true := by
          simpa using hinteger
        have hdecide := passes_decide (choice_subgroup wholes) ⟨wholes.zero_mem, rfl⟩
          (fun d _ => whole_bounds d) hentered hpassed
        rw [hb] at hdecide
        constructor
        · intro hfalse ρ hρ
          have hb : b = true := hdecide.mpr ⟨fun v => if v ∈ terms bounds then ρ v else 0,
            fun v => ?_, fun d hd => ?_⟩
          · rw [hfalse] at hb
            cases hb
          · show (if v ∈ terms bounds then ρ v else 0) ∈ wholes
            split
            case isTrue hv =>
              obtain ⟨n, hn⟩ := hρ.term_whole hterms hv
              exact mem_wholes.mpr ⟨n, hn.symm⟩
            case isFalse => exact wholes.zero_mem
          · obtain ⟨hu, hv⟩ := mem_terms hd
            obtain ⟨m, hm⟩ := hρ.term_whole hterms hu
            obtain ⟨n, hn⟩ := hρ.term_whole hterms hv
            dsimp only
            rw [if_pos hu, if_pos hv]
            exact (bound_whole hm hn).mpr (hρ.bounds d hd)
        · intro _ htrue
          obtain ⟨ρ, hwhole, hρ⟩ := hdecide.mp htrue
          refine ⟨restricted (terms bounds) ρ, restricted_zero _ _, fun v _ => ?_, fun d hd => ?_⟩
          · unfold restricted
            split
            · obtain ⟨n, hn⟩ := mem_wholes.mp (wholes.sub_mem (hwhole v) (hwhole .zero))
              exact ⟨n, hn.symm⟩
            · exact ⟨0, Int.cast_zero.symm⟩
          · obtain ⟨m, hm⟩ := mem_wholes.mp (hwhole d.u)
            obtain ⟨n, hn⟩ := mem_wholes.mp (hwhole d.v)
            unfold Difference.Holds
            rw [restricted_sub hd]
            exact (bound_whole hm.symm hn.symm).mp (hρ d hd)
    | false =>
        rw [hinteger] at hentered
        have hdecide := passes_decide choice_dense trivial (fun _ _ => trivial) hentered hpassed
        rw [hb] at hdecide
        constructor
        · intro hfalse ρ hρ
          have hb : b = true := hdecide.mpr ⟨ρ, fun _ => trivial, fun d hd => hρ.bounds d hd⟩
          rw [hfalse] at hb
          cases hb
        · intro huniform htrue
          have hnone : ∀ v ∈ terms bounds, whole v = false := by
            refine huniform.resolve_left fun hterms => ?_
            rw [List.all_eq_false] at hinteger
            obtain ⟨v, hv, hnot⟩ := hinteger
            exact hnot (by simpa using hterms v hv)
          obtain ⟨ρ, -, hρ⟩ := hdecide.mp htrue
          refine ⟨restricted (terms bounds) ρ, restricted_zero _ _, fun v hwhole => ?_,
            fun d hd => ?_⟩
          · have hv : v ∉ terms bounds := by
              intro hv
              rw [hnone v hv] at hwhole
              cases hwhole
            unfold restricted
            rw [if_neg hv]
            exact ⟨0, Int.cast_zero.symm⟩
          · unfold Difference.Holds
            rw [restricted_sub hd]
            exact hρ d hd

end ObjectFlow.Logic
