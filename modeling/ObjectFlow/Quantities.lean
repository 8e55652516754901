import ObjectFlow.Base.HalfEven
import ObjectFlow.Equality
import ObjectFlow.Scope

/-!
# Quantities

The numbers an expression computes with: an integer or a decimal, an amount of
one currency, a duration.  A sum, a difference and a product of two are exact,
but an amount's and a duration's product, rounded once; a comparison is of the
numbers; and what passes a bound is refused, never wrapped.
-/

namespace ObjectFlow

open Base

/-- What a number is of. -/
inductive Quantity where
  | scalar
  | money (currency : String)
  | duration
deriving DecidableEq

/-- The places an amount, and a duration's seconds, are kept to. -/
def Quantity.places : Quantity → Nat
  | .money currency => (minorUnit currency).getD 2
  | _ => 0

/-- A value's number, and what it is of; an integer and a duration's seconds are
of 64 bits. -/
def Value.quantity? : Value → Option (Quantity × ℚ)
  | .int n => (fits64 n).map fun k : Int => (.scalar, (k : ℚ))
  | .decimal d => some (.scalar, d.exact)
  | .money currency amount => some (.money currency, amount.exact)
  | .duration s => (fits64 s).map fun k : Int => (.duration, (k : ℚ))
  | _ => none

/-- A number rounded half to even to so many places. -/
def Rounded (places : Nat) (x z : ℚ) : Prop :=
  ∃ n : ℤ, HalfEven (x * 10 ^ places) n ∧ z = n / 10 ^ places

/-! ### Decimals -/

theorem divHalfEven_rounds {a b q : Int} (h : divHalfEven a b = some q) :
    b ≠ 0 ∧ HalfEven ((a : ℚ) / b) q := by
  unfold divHalfEven at h
  split at h
  case isTrue => cases h
  case isFalse hb =>
    refine ⟨hb, ?_⟩
    have hround := halfEven_tdiv (a := a) hb
    obtain ⟨hq, h⟩ := fits128_bind h
    dsimp only at h
    split at h
    case isTrue hzero =>
      obtain rfl := Option.some.inj h
      have hpos := Int.natAbs_pos.mpr hb
      rw [hzero, Int.natAbs_zero, mul_zero, if_neg (by omega)] at hround
      exact hround
    case isFalse =>
      obtain ⟨-, h⟩ := fits128_bind h
      obtain ⟨-, h⟩ := fits128_bind h
      have haway : (b.natAbs < 2 * (a.tmod b).natAbs ∨
            2 * (a.tmod b).natAbs = b.natAbs ∧ (a.tdiv b).tmod 2 ≠ 0) ↔
          ((b.natAbs : Int) < (a.tmod b).natAbs * 2 ∨
            ((a.tmod b).natAbs : Int) * 2 = b.natAbs ∧ (a.tdiv b).tmod 2 ≠ 0) :=
        or_congr (by omega) (and_congr (by omega) Iff.rfl)
      split at h
      case isTrue hstay =>
        rw [if_neg (mt haway.mp hstay)] at hround
        exact Option.some.inj h ▸ hround
      case isFalse hstay =>
        rw [if_pos (haway.mpr (not_not.mp hstay))] at hround
        split at h
        case isTrue hsign =>
          rw [if_pos hsign] at hround
          exact (fits128_eq_some.mp h).1 ▸ hround
        case isFalse hsign =>
          rw [if_neg hsign] at hround
          exact (fits128_eq_some.mp h).1 ▸ hround

namespace Decimal

variable {a b d r : Decimal} {s : Nat}

theorem exact_of_units {n : Int} (hscale : d.scale = s) (h : d.exact * 10 ^ s = n) :
    d.units = n := by
  rw [exact, hscale, div_mul_cancel₀ _ (by positivity)] at h
  exact_mod_cast h

/-- A decimal given more places is the same number. -/
theorem rescale_exact (hle : d.scale ≤ s) (h : d.rescale s = some r) :
    r.scale = s ∧ r.exact = d.exact := by
  have hscale : r.scale = s := by
    unfold rescale at h
    split at h
    case isTrue heq =>
      obtain rfl := Option.some.inj h
      exact heq.symm
    case isFalse hne =>
      rw [if_pos (by omega)] at h
      obtain ⟨-, h⟩ := fits128_bind h
      obtain ⟨-, h⟩ := fits128_bind h
      exact (new_eq_some.mp h).2
  refine ⟨hscale, ?_⟩
  have hsplit : (10 : ℚ) ^ s = 10 ^ d.scale * 10 ^ (s - d.scale) := by
    rw [← pow_add, Nat.add_sub_cancel' hle]
  rw [exact, exact, hscale, rescale_up hle h, hsplit]
  push_cast
  rw [mul_div_mul_right _ _ (by positivity)]

/-- **Rescaling** is exact where places are added, and rounds half to even where
they are dropped. -/
theorem rescale_rounds (h : d.rescale s = some r) :
    r.scale = s ∧ HalfEven (d.exact * 10 ^ s) r.units := by
  by_cases hle : d.scale ≤ s
  · obtain ⟨hscale, hexact⟩ := rescale_exact hle h
    refine ⟨hscale, ?_⟩
    rw [← hexact, exact, hscale, div_mul_cancel₀ _ (by positivity)]
    exact halfEven_int r.units
  · unfold rescale at h
    rw [if_neg (by omega), if_neg (by omega)] at h
    obtain ⟨-, h⟩ := fits128_bind h
    obtain ⟨n, hn, h⟩ := Option.bind_eq_some_iff.mp h
    obtain ⟨hunits, hscale⟩ := new_eq_some.mp h
    obtain ⟨-, hround⟩ := divHalfEven_rounds hn
    refine ⟨hscale, ?_⟩
    have hsplit : (10 : ℚ) ^ d.scale = 10 ^ (d.scale - s) * 10 ^ s := by
      rw [← pow_add, Nat.sub_add_cancel (by omega)]
    rw [exact, hsplit, div_mul_eq_mul_div, mul_div_mul_right _ _ (by positivity), hunits]
    push_cast at hround
    exact hround

theorem aligned_exact {x y : Int} (h : a.aligned b = some (x, y, s)) :
    a.exact = x / 10 ^ s ∧ b.exact = y / 10 ^ s := by
  obtain ⟨ra, hra, h⟩ := Option.bind_eq_some_iff.mp h
  obtain ⟨rb, hrb, h⟩ := Option.bind_eq_some_iff.mp h
  cases h
  obtain ⟨hscalea, ha⟩ := rescale_exact (le_max_left ..) hra
  obtain ⟨hscaleb, hb⟩ := rescale_exact (le_max_right ..) hrb
  rw [← ha, ← hb, exact, exact, hscalea, hscaleb]
  exact ⟨rfl, rfl⟩

/-- **A sum of decimals is exact.** -/
theorem checkedAdd_exact (h : a.checkedAdd b = some r) : r.exact = a.exact + b.exact := by
  obtain ⟨⟨x, y, s⟩, halign, h⟩ := Option.bind_eq_some_iff.mp h
  obtain ⟨-, h⟩ := fits128_bind h
  obtain ⟨hunits, hscale⟩ := new_eq_some.mp h
  obtain ⟨ha, hb⟩ := aligned_exact halign
  rw [exact, hunits, hscale, ha, hb, ← add_div]
  push_cast
  rfl

theorem checkedSub_exact (h : a.checkedSub b = some r) : r.exact = a.exact - b.exact := by
  obtain ⟨⟨x, y, s⟩, halign, h⟩ := Option.bind_eq_some_iff.mp h
  obtain ⟨-, h⟩ := fits128_bind h
  obtain ⟨hunits, hscale⟩ := new_eq_some.mp h
  obtain ⟨ha, hb⟩ := aligned_exact halign
  rw [exact, hunits, hscale, ha, hb, ← sub_div]
  push_cast
  rfl

/-- **A product of decimals is exact.** -/
theorem checkedMul_exact (h : a.checkedMul b = some r) : r.exact = a.exact * b.exact := by
  obtain ⟨-, h⟩ := fits128_bind h
  split at h
  case isFalse => cases h
  case isTrue =>
    obtain ⟨hunits, hscale⟩ := new_eq_some.mp h
    rw [exact, hunits, hscale, exact, exact, div_mul_div_comm, pow_add]
    push_cast
    rfl

/-- **A quotient of decimals** is rounded once. -/
theorem checkedDiv_rounds (h : a.checkedDiv b s = some r) :
    b.exact ≠ 0 ∧ r.scale = s ∧ HalfEven (a.exact / b.exact * 10 ^ s) r.units := by
  unfold checkedDiv at h
  split at h
  case isTrue => cases h
  case isFalse hzero =>
    have hb : (b.units : ℚ) ≠ 0 := Int.cast_ne_zero.mpr hzero
    refine ⟨div_ne_zero hb (by positivity), ?_⟩
    obtain ⟨⟨num, den⟩, hparts, h⟩ := Option.bind_eq_some_iff.mp h
    obtain ⟨n, hn, h⟩ := Option.bind_eq_some_iff.mp h
    obtain ⟨hunits, hscale⟩ := new_eq_some.mp h
    obtain ⟨-, hround⟩ := divHalfEven_rounds hn
    refine ⟨hscale, ?_⟩
    -- the two parts are one ratio whichever of them the power of ten went into
    have hratio : a.exact / b.exact * 10 ^ s = num / den := by
      rw [exact, exact, div_div_div_eq, div_mul_eq_mul_div]
      split at hparts
      case isTrue hle =>
        obtain ⟨-, hparts⟩ := fits128_bind hparts
        obtain ⟨-, hparts⟩ := fits128_bind hparts
        cases hparts
        have hsplit : (10 : ℚ) ^ s * 10 ^ b.scale = 10 ^ a.scale * 10 ^ (s + b.scale - a.scale) := by
          rw [← pow_add, ← pow_add, Nat.add_sub_cancel' hle]
        rw [mul_assoc, mul_comm (10 ^ b.scale) (10 ^ s), hsplit, mul_left_comm,
          mul_div_mul_left _ _ (by positivity)]
        push_cast
        rfl
      case isFalse hlt =>
        obtain ⟨-, hparts⟩ := fits128_bind hparts
        obtain ⟨-, hparts⟩ := fits128_bind hparts
        cases hparts
        have hsplit : (10 : ℚ) ^ a.scale =
            10 ^ s * 10 ^ b.scale * 10 ^ (a.scale - (s + b.scale)) := by
          rw [← pow_add, ← pow_add, Nat.add_sub_cancel' (by omega)]
        have hnum : (a.units : ℚ) * 10 ^ b.scale * 10 ^ s =
            10 ^ s * 10 ^ b.scale * a.units := by ring
        have hden : (10 : ℚ) ^ s * 10 ^ b.scale * 10 ^ (a.scale - (s + b.scale)) * b.units =
            10 ^ s * 10 ^ b.scale * (b.units * 10 ^ (a.scale - (s + b.scale))) := by ring
        rw [hsplit, hnum, hden, mul_div_mul_left _ _ (by positivity)]
        push_cast
        rfl
    rw [hratio, hunits]
    exact hround

theorem fromInt_exact {n : Int} (h : fromInt n = some d) : d.exact = n := by
  obtain ⟨hunits, hscale⟩ := new_eq_some.mp h
  rw [exact, hunits, hscale, pow_zero, div_one]

/-- A decimal read as an integer is that integer. -/
theorem toInt_exact {n : Int} (h : d.toInt = some n) : d.exact = n := by
  obtain ⟨whole, hwhole, h⟩ := Option.bind_eq_some_iff.mp h
  obtain ⟨back, hback, h⟩ := Option.bind_eq_some_iff.mp h
  have hscale := (rescale_rounds hwhole).1
  have hexact := (rescale_exact (by omega) hback).2
  split at h
  case isFalse => cases h
  case isTrue hequal =>
    obtain ⟨rfl, -⟩ := fits64_eq_some.mp h
    rw [← (equal_exact back d).mp hequal, hexact, exact, hscale, pow_zero, div_one]

theorem toInt_fits {n : Int} (h : d.toInt = some n) : i64Min ≤ n ∧ n ≤ i64Max := by
  obtain ⟨whole, -, h⟩ := Option.bind_eq_some_iff.mp h
  obtain ⟨back, -, h⟩ := Option.bind_eq_some_iff.mp h
  split at h
  case isFalse => cases h
  case isTrue =>
    obtain ⟨rfl, hfits⟩ := fits64_eq_some.mp h
    exact hfits

theorem rounded (hscale : r.scale = s) {x : ℚ} (h : HalfEven (x * 10 ^ s) r.units) :
    Rounded s x r.exact :=
  ⟨r.units, h, by rw [exact, hscale]⟩

end Decimal

/-! ### Operators over quantities -/

/-- What a comparison of two numbers answers. -/
def compared (op : BinOp) (x y : ℚ) : Bool :=
  match op with
  | .eq => x = y
  | .ne => x ≠ y
  | .lt => x < y
  | .le => x ≤ y
  | .gt => y < x
  | _ => y ≤ x

variable {a b v : Value} {p q : Quantity} {x y : ℚ}

theorem quantity_present (h : a.quantity? = some (p, x)) : a.isAbsent = false := by
  cases a with
  | absent => cases h
  | _ => rfl

theorem quantity_int {n : Int} (h : (Value.int n).quantity? = some (p, x)) :
    p = .scalar ∧ x = n ∧ i64Min ≤ n ∧ n ≤ i64Max := by
  obtain ⟨k, hk, hpair⟩ := Option.map_eq_some_iff.mp h
  obtain ⟨rfl, hfits⟩ := fits64_eq_some.mp hk
  cases hpair
  exact ⟨rfl, rfl, hfits⟩

theorem quantity_duration {n : Int} (h : (Value.duration n).quantity? = some (p, x)) :
    p = .duration ∧ x = n ∧ i64Min ≤ n ∧ n ≤ i64Max := by
  obtain ⟨k, hk, hpair⟩ := Option.map_eq_some_iff.mp h
  obtain ⟨rfl, hfits⟩ := fits64_eq_some.mp hk
  cases hpair
  exact ⟨rfl, rfl, hfits⟩

/-- A number of 64 bits is a decimal of no places. -/
theorem fromInt_some {n : Int} (h : i64Min ≤ n ∧ n ≤ i64Max) :
    ∃ k, Decimal.fromInt n = some k := by
  have hbounds : (i128Min ≤ n ∧ n ≤ i128Max) ∧ 0 ≤ MAX_SCALE := by
    unfold i64Min i64Max at h
    unfold i128Min i128Max
    omega
  exact ⟨_, dif_pos hbounds⟩

/-- A scalar's decimal. -/
theorem scalar_number (h : a.quantity? = some (.scalar, x)) :
    ∃ k, a.number = some k ∧ k.exact = x := by
  cases a with
  | int n =>
      obtain ⟨-, rfl, hfits⟩ := quantity_int h
      obtain ⟨k, hk⟩ := fromInt_some hfits
      exact ⟨k, hk, Decimal.fromInt_exact hk⟩
  | decimal d =>
      cases h
      exact ⟨d, rfl, rfl⟩
  | money => cases h
  | duration n => cases (quantity_duration h).1
  | _ => cases h

/-! ### What an operator leaves -/

/-- A value an operator left: absent past a bound, or of the number asked. -/
def Left? (v : Value) (P : Quantity → ℚ → Prop) : Prop :=
  v = .absent ∨ ∃ r z, v.quantity? = some (r, z) ∧ P r z

theorem left_int (n : Int) {P : Quantity → ℚ → Prop} (h : P .scalar n) :
    Left? (unknownIfNone ((fits64 n).map .int)) P := by
  cases hn : fits64 n with
  | none => exact .inl rfl
  | some k =>
      obtain ⟨rfl, -⟩ := fits64_eq_some.mp hn
      exact .inr ⟨.scalar, n, by show (fits64 n).map _ = _; rw [hn]; rfl, h⟩

theorem left_duration (n : Int) {P : Quantity → ℚ → Prop} (h : P .duration n) :
    Left? (unknownIfNone ((fits64 n).map .duration)) P := by
  cases hn : fits64 n with
  | none => exact .inl rfl
  | some k =>
      obtain ⟨rfl, -⟩ := fits64_eq_some.mp hn
      exact .inr ⟨.duration, n, by show (fits64 n).map _ = _; rw [hn]; rfl, h⟩

theorem left_decimal {o : Option Decimal} {P : Quantity → ℚ → Prop}
    (h : ∀ d, o = some d → P .scalar d.exact) : Left? (unknownIfNone (o.map .decimal)) P := by
  cases o with
  | none => exact .inl rfl
  | some d => exact .inr ⟨.scalar, d.exact, rfl, h d rfl⟩

theorem left_money {c : String} {o : Option Decimal} {P : Quantity → ℚ → Prop}
    (h : ∀ d, o = some d → P (.money c) d.exact) :
    Left? (unknownIfNone (o.map (Value.money c))) P := by
  cases o with
  | none => exact .inl rfl
  | some d => exact .inr ⟨.money c, d.exact, rfl, h d rfl⟩

/-- **An amount's product** with a number is rounded once, to its minor unit. -/
theorem left_scaledMoney (c : String) (amount k : Decimal) {P : Quantity → ℚ → Prop}
    (h : ∀ z, Rounded ((minorUnit c).getD 2) (amount.exact * k.exact) z → P (.money c) z) :
    Left? (scaledMoney .mul c amount k) P := by
  refine left_money fun d hd => h _ ?_
  obtain ⟨m, hm, hd⟩ := Option.bind_eq_some_iff.mp hd
  obtain ⟨hscale, hround⟩ := Decimal.rescale_rounds hd
  rw [Decimal.checkedMul_exact hm] at hround
  exact Decimal.rounded hscale hround

theorem left_scaledMoney_div (c : String) (amount k : Decimal) {P : Quantity → ℚ → Prop}
    (h : ∀ z, Rounded ((minorUnit c).getD 2) (amount.exact / k.exact) z → P (.money c) z) :
    Left? (scaledMoney .div c amount k) P := by
  refine left_money fun d hd => h _ ?_
  obtain ⟨-, hscale, hround⟩ := Decimal.checkedDiv_rounds hd
  exact Decimal.rounded hscale hround

/-- A decimal of no places as a duration's seconds. -/
theorem left_seconds {o : Option Decimal} {P : Quantity → ℚ → Prop}
    (h : ∀ d, o = some d → P .duration d.exact) :
    Left? (unknownIfNone ((o.bind Decimal.toInt).map .duration)) P := by
  cases o with
  | none => exact .inl rfl
  | some d =>
      cases hn : d.toInt with
      | none =>
          refine .inl ?_
          rw [Option.bind_some, hn]
          rfl
      | some n =>
          have hexact := Decimal.toInt_exact hn
          have hfits := Decimal.toInt_fits hn
          rw [Option.bind_some, hn]
          refine .inr ⟨.duration, n, ?_, hexact ▸ h d rfl⟩
          show (fits64 n).map _ = _
          rw [fits64_eq_some.mpr ⟨rfl, hfits⟩]
          rfl

/-- **A duration's product** with a number is rounded once, to whole seconds. -/
theorem left_scaledDuration {s : Int} (hs : i64Min ≤ s ∧ s ≤ i64Max) (k : Decimal)
    {P : Quantity → ℚ → Prop} (h : ∀ z, Rounded 0 (s * k.exact) z → P .duration z) :
    Left? (scaledDuration .mul s k) P := by
  obtain ⟨d, hd⟩ := fromInt_some hs
  unfold scaledDuration
  rw [hd]
  refine left_seconds fun r hr => h _ ?_
  have hproduct : (d.checkedMul k).bind (·.rescale 0) = some r := hr
  obtain ⟨m, hm, hrescaled⟩ := Option.bind_eq_some_iff.mp hproduct
  obtain ⟨hscale, hround⟩ := Decimal.rescale_rounds hrescaled
  rw [Decimal.checkedMul_exact hm, Decimal.fromInt_exact hd] at hround
  exact Decimal.rounded hscale hround

theorem left_scaledDuration_div {s : Int} (hs : i64Min ≤ s ∧ s ≤ i64Max) (k : Decimal)
    {P : Quantity → ℚ → Prop} (h : ∀ z, Rounded 0 (s / k.exact) z → P .duration z) :
    Left? (scaledDuration .div s k) P := by
  obtain ⟨d, hd⟩ := fromInt_some hs
  unfold scaledDuration
  rw [hd]
  refine left_seconds fun r hr => h _ ?_
  obtain ⟨-, hscale, hround⟩ := Decimal.checkedDiv_rounds hr
  rw [Decimal.fromInt_exact hd] at hround
  exact Decimal.rounded hscale hround

/-! ### Sums, differences and products -/

/-- Two scalars that are not both integers compute as decimals. -/
theorem scalars_arithmetic {k l : Decimal} (ha : a.number = some k) (hb : b.number = some l)
    (hnot : ∀ m n, a = .int m → b ≠ .int n) :
    arithmetic .add a b = .ok (unknownIfNone ((k.checkedAdd l).map .decimal)) ∧
      arithmetic .sub a b = .ok (unknownIfNone ((k.checkedSub l).map .decimal)) ∧
        arithmetic .mul a b = .ok (unknownIfNone ((k.checkedMul l).map .decimal)) := by
  cases a with
  | int m =>
      cases b with
      | int n => exact absurd rfl (hnot m n rfl)
      | decimal d => simp only [arithmetic, ha, hb, and_self]
      | _ => cases hb
  | decimal e =>
      cases b with
      | int n => simp only [arithmetic, ha, hb, and_self]
      | decimal d => simp only [arithmetic, ha, hb, and_self]
      | _ => cases hb
  | _ => cases ha

/-- Two integers compute as integers. -/
theorem integers_or (ha : a.quantity? = some (.scalar, x)) (hb : b.quantity? = some (.scalar, y)) :
    (∃ m n : Int, a = .int m ∧ b = .int n ∧ x = m ∧ y = n) ∨
      ∃ k l, a.number = some k ∧ b.number = some l ∧ k.exact = x ∧ l.exact = y ∧
        ∀ m n, a = .int m → b ≠ .int n := by
  obtain ⟨k, hk, hx⟩ := scalar_number ha
  obtain ⟨l, hl, hy⟩ := scalar_number hb
  cases a with
  | int m =>
      cases b with
      | int n =>
          exact .inl ⟨m, n, rfl, rfl, (quantity_int ha).2.1, (quantity_int hb).2.1⟩
      | _ => exact .inr ⟨k, l, hk, hl, hx, hy, fun _ _ _ h => by cases h⟩
  | _ => exact .inr ⟨k, l, hk, hl, hx, hy, fun _ _ h => by cases h⟩

theorem add_scalars (ha : a.quantity? = some (.scalar, x)) (hb : b.quantity? = some (.scalar, y)) :
    ∃ v, arithmetic .add a b = .ok v ∧ Left? v fun r z => r = .scalar ∧ z = x + y := by
  rcases integers_or ha hb with ⟨m, n, rfl, rfl, rfl, rfl⟩ | ⟨k, l, hk, hl, rfl, rfl, hnot⟩
  · exact ⟨_, rfl, left_int _ ⟨rfl, Int.cast_add m n⟩⟩
  · exact ⟨_, (scalars_arithmetic hk hl hnot).1,
      left_decimal fun _ hd => ⟨rfl, Decimal.checkedAdd_exact hd⟩⟩

theorem sub_scalars (ha : a.quantity? = some (.scalar, x)) (hb : b.quantity? = some (.scalar, y)) :
    ∃ v, arithmetic .sub a b = .ok v ∧ Left? v fun r z => r = .scalar ∧ z = x - y := by
  rcases integers_or ha hb with ⟨m, n, rfl, rfl, rfl, rfl⟩ | ⟨k, l, hk, hl, rfl, rfl, hnot⟩
  · exact ⟨_, rfl, left_int _ ⟨rfl, Int.cast_sub m n⟩⟩
  · exact ⟨_, (scalars_arithmetic hk hl hnot).2.1,
      left_decimal fun _ hd => ⟨rfl, Decimal.checkedSub_exact hd⟩⟩

theorem mul_scalars (ha : a.quantity? = some (.scalar, x)) (hb : b.quantity? = some (.scalar, y)) :
    ∃ v, arithmetic .mul a b = .ok v ∧ Left? v fun r z => r = .scalar ∧ z = x * y := by
  rcases integers_or ha hb with ⟨m, n, rfl, rfl, rfl, rfl⟩ | ⟨k, l, hk, hl, rfl, rfl, hnot⟩
  · exact ⟨_, rfl, left_int _ ⟨rfl, Int.cast_mul m n⟩⟩
  · exact ⟨_, (scalars_arithmetic hk hl hnot).2.2,
      left_decimal fun _ hd => ⟨rfl, Decimal.checkedMul_exact hd⟩⟩

/-- The values of each quantity. -/
theorem quantity_cases (h : a.quantity? = some (p, x)) :
    p = .scalar ∨ (∃ c d, a = .money c d ∧ p = .money c ∧ x = d.exact) ∨
      ∃ n : Int, a = .duration n ∧ p = .duration ∧ x = n ∧ i64Min ≤ n ∧ n ≤ i64Max := by
  cases a with
  | int n => exact .inl (quantity_int h).1
  | decimal d =>
      cases h
      exact .inl rfl
  | money c d =>
      cases h
      exact .inr (.inl ⟨c, d, rfl, rfl, rfl⟩)
  | duration n => exact .inr (.inr ⟨n, rfl, quantity_duration h⟩)
  | _ => cases h

theorem scalar_form (h : a.quantity? = some (.scalar, x)) :
    (∃ n, a = .int n) ∨ ∃ d, a = .decimal d := by
  cases a with
  | int n => exact .inl ⟨n, rfl⟩
  | decimal d => exact .inr ⟨d, rfl⟩
  | money => cases h
  | duration n => cases (quantity_duration h).1
  | _ => cases h

/-- A sum or a difference is of two of one kind. -/
theorem arithmetic_mixed {op : BinOp} (hop : op = .add ∨ op = .sub)
    (ha : a.quantity? = some (p, x)) (hb : b.quantity? = some (q, y)) (hne : p ≠ q) :
    arithmetic op a b = .error (notTaken op a b) := by
  rcases quantity_cases ha with rfl | ⟨c, d, rfl, rfl, rfl⟩ | ⟨m, rfl, rfl, rfl, -⟩
  · obtain ⟨k, hk, -⟩ := scalar_number ha
    rcases quantity_cases hb with rfl | ⟨c, e, rfl, rfl, rfl⟩ | ⟨n, rfl, rfl, rfl, -⟩
    · exact absurd rfl hne
    · have hnone : (Value.money c e).number = none := rfl
      rcases scalar_form ha with ⟨m, rfl⟩ | ⟨d, rfl⟩ <;> rcases hop with rfl | rfl <;>
        simp only [arithmetic, hk, hnone]
    · have hnone : (Value.duration n).number = none := rfl
      rcases scalar_form ha with ⟨m, rfl⟩ | ⟨d, rfl⟩ <;> rcases hop with rfl | rfl <;>
        simp only [arithmetic, hk, hnone]
  · rcases quantity_cases hb with rfl | ⟨c', e, rfl, rfl, rfl⟩ | ⟨n, rfl, rfl, rfl, -⟩
    · obtain ⟨l, hl, -⟩ := scalar_number hb
      have hnone : (Value.money c d).number = none := rfl
      rcases scalar_form hb with ⟨m, rfl⟩ | ⟨e, rfl⟩ <;> rcases hop with rfl | rfl <;>
        simp only [arithmetic, hl, hnone]
    · have hcurrency : c ≠ c' := fun h => hne (congrArg Quantity.money h)
      rcases hop with rfl | rfl
      · exact if_neg hcurrency
      · exact if_neg hcurrency
    · rcases hop with rfl | rfl
      · rfl
      · rfl
  · rcases quantity_cases hb with rfl | ⟨c', e, rfl, rfl, rfl⟩ | ⟨n, rfl, rfl, rfl, -⟩
    · obtain ⟨l, hl, -⟩ := scalar_number hb
      have hnone : (Value.duration m).number = none := rfl
      rcases scalar_form hb with ⟨n, rfl⟩ | ⟨e, rfl⟩ <;> rcases hop with rfl | rfl <;>
        simp only [arithmetic, hl, hnone]
    · rcases hop with rfl | rfl
      · rfl
      · rfl
    · exact absurd rfl hne

/-- **A sum and a difference** are exact, or of two kinds. -/
theorem sum_exact {op : BinOp} (hop : op = .add ∨ op = .sub) (ha : a.quantity? = some (p, x))
    (hb : b.quantity? = some (q, y)) :
    (p ≠ q ∧ ∃ w, arithmetic op a b = .error w) ∨
      ∃ v, arithmetic op a b = .ok v ∧
        Left? v fun r z => r = p ∧ z = if op = .add then x + y else x - y := by
  by_cases hpq : p = q
  · subst hpq
    right
    rcases quantity_cases ha with rfl | ⟨c, d, rfl, rfl, rfl⟩ | ⟨m, rfl, rfl, rfl, -⟩
    · rcases hop with rfl | rfl
      · exact add_scalars ha hb
      · exact sub_scalars ha hb
    · rcases quantity_cases hb with h | ⟨c', e, rfl, hc, rfl⟩ | ⟨n, -, h, -⟩
      · cases h
      · cases hc
        rcases hop with rfl | rfl
        · exact ⟨_, if_pos rfl, left_money fun _ hd => ⟨rfl, Decimal.checkedAdd_exact hd⟩⟩
        · exact ⟨_, if_pos rfl, left_money fun _ hd => ⟨rfl, Decimal.checkedSub_exact hd⟩⟩
      · cases h
    · rcases quantity_cases hb with h | ⟨c', e, -, h, -⟩ | ⟨n, rfl, -, rfl, -⟩
      · cases h
      · cases h
      · rcases hop with rfl | rfl
        · exact ⟨_, rfl, left_duration _ ⟨rfl, Int.cast_add m n⟩⟩
        · exact ⟨_, rfl, left_duration _ ⟨rfl, Int.cast_sub m n⟩⟩
  · exact .inl ⟨hpq, _, arithmetic_mixed hop ha hb hpq⟩

/-- What a product is: of two scalars exact, else rounded once to what an amount
or a duration keeps. -/
def Product (p q : Quantity) (x y : ℚ) (r : Quantity) (z : ℚ) : Prop :=
  if p = .scalar ∧ q = .scalar then r = .scalar ∧ z = x * y
  else (r = p ∨ r = q) ∧ r ≠ .scalar ∧ Rounded r.places (x * y) z

theorem Product.scaled {r : Quantity} {z : ℚ} (hne : r ≠ .scalar) (hr : r = p ∨ r = q)
    (h : Rounded r.places (x * y) z) : Product p q x y r z := by
  unfold Product
  rw [if_neg]
  · exact ⟨hr, hne, h⟩
  · intro hboth
    rcases hr with rfl | rfl
    · exact hne hboth.1
    · exact hne hboth.2

/-- **A product** is exact, an amount's and a duration's rounded once, or of two
that are no number. -/
theorem product_exact (ha : a.quantity? = some (p, x)) (hb : b.quantity? = some (q, y)) :
    (p ≠ .scalar ∧ q ≠ .scalar ∧ ∃ w, arithmetic .mul a b = .error w) ∨
      ∃ v, arithmetic .mul a b = .ok v ∧ Left? v (Product p q x y) := by
  rcases quantity_cases ha with rfl | ⟨c, d, rfl, rfl, rfl⟩ | ⟨m, rfl, rfl, rfl, hm⟩
  · right
    obtain ⟨k, hk, rfl⟩ := scalar_number ha
    rcases quantity_cases hb with rfl | ⟨c, e, rfl, rfl, rfl⟩ | ⟨n, rfl, rfl, rfl, hn⟩
    · obtain ⟨v, hv, hleft⟩ := mul_scalars ha hb
      refine ⟨v, hv, ?_⟩
      rwa [show Product .scalar .scalar k.exact y = fun r z => r = .scalar ∧ z = k.exact * y from
        funext fun r => funext fun z => if_pos ⟨rfl, rfl⟩]
    · have hnone : (Value.money c e).number = none := rfl
      refine ⟨scaledMoney .mul c e k, ?_, left_scaledMoney c e k fun z hz => ?_⟩
      · rcases scalar_form ha with ⟨m, rfl⟩ | ⟨d, rfl⟩ <;> simp only [arithmetic, hk, hnone]
      · rw [mul_comm] at hz
        exact Product.scaled (by simp) (.inr rfl) hz
    · have hnone : (Value.duration n).number = none := rfl
      refine ⟨scaledDuration .mul n k, ?_, left_scaledDuration hn k fun z hz => ?_⟩
      · rcases scalar_form ha with ⟨m, rfl⟩ | ⟨d, rfl⟩ <;> simp only [arithmetic, hk, hnone]
      · rw [mul_comm] at hz
        exact Product.scaled (by simp) (.inr rfl) hz
  · rcases quantity_cases hb with rfl | ⟨c', e, rfl, rfl, rfl⟩ | ⟨n, rfl, rfl, rfl, -⟩
    · right
      obtain ⟨l, hl, rfl⟩ := scalar_number hb
      have hnone : (Value.money c d).number = none := rfl
      refine ⟨scaledMoney .mul c d l, ?_, left_scaledMoney c d l fun z hz =>
        Product.scaled (by simp) (.inl rfl) hz⟩
      rcases scalar_form hb with ⟨m, rfl⟩ | ⟨e, rfl⟩ <;> simp only [arithmetic, hl, hnone]
    · exact .inl ⟨by simp, by simp, _, rfl⟩
    · exact .inl ⟨by simp, by simp, _, rfl⟩
  · rcases quantity_cases hb with rfl | ⟨c', e, rfl, rfl, rfl⟩ | ⟨n, rfl, rfl, rfl, -⟩
    · right
      obtain ⟨l, hl, rfl⟩ := scalar_number hb
      have hnone : (Value.duration m).number = none := rfl
      refine ⟨scaledDuration .mul m l, ?_, left_scaledDuration hm l fun z hz =>
        Product.scaled (by simp) (.inl rfl) hz⟩
      rcases scalar_form hb with ⟨n, rfl⟩ | ⟨e, rfl⟩ <;> simp only [arithmetic, hl, hnone]
    · exact .inl ⟨by simp, by simp, _, rfl⟩
    · exact .inl ⟨by simp, by simp, _, rfl⟩

/-! ### What an evaluation answers -/

/-- The zero a sum of nothing is has its number in what it meets. -/
theorem zeroAs_zero (ha : (Value.int 0).quantity? = some (p, x))
    (hb : b.quantity? = some (q, y)) : (zeroAs (.int 0) b).quantity? = some (q, x) := by
  obtain ⟨hp, rfl, -⟩ := quantity_int ha
  rcases quantity_cases hb with rfl | ⟨c, d, rfl, rfl, rfl⟩ | ⟨n, rfl, rfl, rfl, -⟩
  · subst hp
    rcases scalar_form hb with ⟨n, rfl⟩ | ⟨d, rfl⟩
    · exact ha
    · exact ha
  · have hzero : (i128Min ≤ 0 ∧ 0 ≤ i128Max) ∧ d.scale ≤ MAX_SCALE := ⟨by decide, d.places⟩
    have hnew : Decimal.new 0 d.scale =
        some { units := 0, scale := d.scale, bounded := hzero.1, places := hzero.2 } :=
      dif_pos hzero
    have hread : zeroAs (.int 0) (.money c d) = .money c
        { units := 0, scale := d.scale, bounded := hzero.1, places := hzero.2 } := by
      simp only [zeroAs, hnew]
    rw [hread]
    simp [Value.quantity?, Decimal.exact]
  · rfl

theorem zeroAs_other (h : a ≠ .int 0) : zeroAs a b = a := by
  unfold zeroAs
  split
  case h_1 => exact absurd rfl h
  case h_2 => exact absurd rfl h
  case h_3 => rfl

/-- What a zero is read as is of either kind. -/
theorem zeroAs_quantity (ha : a.quantity? = some (p, x)) (hb : b.quantity? = some (q, y)) :
    ∃ r, (zeroAs a b).quantity? = some (r, x) ∧ (r = p ∨ r = q) ∧ (p = q → r = p) := by
  by_cases hzero : a = .int 0
  · subst hzero
    exact ⟨q, zeroAs_zero ha hb, .inr rfl, Eq.symm⟩
  · rw [zeroAs_other hzero]
    exact ⟨p, ha, .inl rfl, fun _ => rfl⟩

/-- Two of one kind, or one of them the zero of a sum of nothing. -/
def Comparable (a b : Value) (p q : Quantity) : Prop := p = q ∨ a = .int 0 ∨ b = .int 0

/-- Two that compare are read as of one kind. -/
theorem zeroAs_alike (ha : a.quantity? = some (p, x)) (hb : b.quantity? = some (q, y))
    (h : Comparable a b p q) : ∃ r, (zeroAs a b).quantity? = some (r, x) ∧
      (zeroAs b a).quantity? = some (r, y) := by
  by_cases hzeroa : a = .int 0
  · subst hzeroa
    refine ⟨q, zeroAs_zero ha hb, ?_⟩
    by_cases hzerob : b = .int 0
    · subst hzerob
      rw [show p = q from (quantity_int ha).1.trans (quantity_int hb).1.symm] at ha
      exact zeroAs_zero hb ha
    · rw [zeroAs_other hzerob]
      exact hb
  · rw [zeroAs_other hzeroa]
    refine ⟨p, ha, ?_⟩
    rcases h with rfl | h | rfl
    · by_cases hzerob : b = .int 0
      · subst hzerob
        exact zeroAs_zero hb ha
      · rw [zeroAs_other hzerob]
        exact hb
    · exact absurd h hzeroa
    · exact zeroAs_zero hb ha

theorem compare_cast (m n : Int) : compare m n = compare (m : ℚ) (n : ℚ) :=
  compare_alike Int.cast_lt.symm Int.cast_lt.symm

/-- **Values of one kind compare as their numbers.** -/
theorem compare_quantity (ha : a.quantity? = some (p, x)) (hb : b.quantity? = some (p, y)) :
    a.compare? b = some (compare x y) := by
  rcases quantity_cases ha with rfl | ⟨c, d, rfl, rfl, rfl⟩ | ⟨m, rfl, rfl, rfl, -⟩
  · obtain ⟨k, hk, rfl⟩ := scalar_number ha
    obtain ⟨l, hl, rfl⟩ := scalar_number hb
    rw [← Decimal.cmp_exact]
    rcases scalar_form ha with ⟨m, rfl⟩ | ⟨d, rfl⟩ <;>
      rcases scalar_form hb with ⟨n, rfl⟩ | ⟨e, rfl⟩ <;> simp only [Value.compare?, hk, hl]
  · rcases quantity_cases hb with h | ⟨c', e, rfl, hc, rfl⟩ | ⟨n, -, h, -⟩
    · cases h
    · cases hc
      rw [← Decimal.cmp_exact]
      exact if_pos rfl
    · cases h
  · rcases quantity_cases hb with h | ⟨c', e, -, h, -⟩ | ⟨n, rfl, -, rfl, -⟩
    · cases h
    · cases h
    · exact congrArg some (compare_cast m n)

section Evaluation

variable (ev : Evaluator) {op : BinOp}

/-- What an operator answers of two present values, where it leaves one. -/
theorem combined_left (hb : a.isAbsent = false ∧ b.isAbsent = false) {P : Quantity → ℚ → Prop}
    (hop : op ≠ .div) (hcombine : combine op a b = .ok v) (hleft : Left? v P) :
    (ev.combined op a b).outcome = .error (.outOfRange (ev.this.getD "")) ∨
      ∃ r z, (ev.combined op a b).outcome = .ok v ∧ v.quantity? = some (r, z) ∧ P r z := by
  unfold Evaluator.combined
  rw [hcombine]
  dsimp only
  rw [hb.1, hb.2]
  rcases hleft with rfl | ⟨r, z, hquantity, hP⟩
  · left
    have hdiv : (decide (op = .div) && b.isZero) = false := by
      rw [decide_eq_false hop]
      rfl
    rw [hdiv]
    rfl
  · right
    rw [quantity_present hquantity]
    exact ⟨r, z, rfl, hquantity, hP⟩

theorem combined_error {w : String} (hcombine : combine op a b = .error w) :
    (ev.combined op a b).outcome = .error (.unsupported w) := by
  unfold Evaluator.combined
  rw [hcombine]
  rfl

theorem present_both (ha : a.quantity? = some (p, x)) (hb : b.quantity? = some (q, y)) :
    (a.isAbsent || b.isAbsent) = false := by
  rw [quantity_present ha, quantity_present hb]
  rfl

theorem answers_bool {c d : Bool} (h : c = d) :
    (.ok (.bool c) : Except String Value) = .ok (.bool d) := by
  rw [h]

/-- **A comparison** of numbers of one kind is of their numbers. -/
theorem combined_compares (ha : a.quantity? = some (p, x)) (hb : b.quantity? = some (q, y))
    (h : Comparable a b p q) (hop : op ∈ [BinOp.eq, .ne, .lt, .le, .gt, .ge]) :
    (ev.combined op a b).outcome = .ok (.bool (compared op x y)) := by
  obtain ⟨r, hza, hzb⟩ := zeroAs_alike ha hb h
  have hcompare := compare_quantity hza hzb
  have hequal := Value.compare?_equals hcompare
  rw [compare_eq_iff_eq] at hequal
  have hpresent := present_both hza hzb
  have hcombine : combine op a b = .ok (.bool (compared op x y)) := by
    simp only [List.mem_cons, List.not_mem_nil, or_false] at hop
    rcases hop with rfl | rfl | rfl | rfl | rfl | rfl
    all_goals
      unfold combine comparison
      rw [if_neg (by decide)]
      dsimp only
      rw [hpresent, if_neg Bool.false_ne_true]
    · exact answers_bool (Bool.eq_iff_iff.mpr (hequal.symm.trans decide_eq_true_iff.symm))
    · refine answers_bool ?_
      have hne : (zeroAs a b).equals (zeroAs b a) = decide (x = y) :=
        Bool.eq_iff_iff.mpr (hequal.symm.trans decide_eq_true_iff.symm)
      rw [hne]
      exact decide_not.symm
    · rw [hcompare]
      exact answers_bool (decide_eq_decide.mpr compare_lt_iff_lt)
    · rw [hcompare]
      exact answers_bool (decide_eq_decide.mpr (compare_gt_iff_gt.not.trans not_lt))
    · rw [hcompare]
      exact answers_bool (decide_eq_decide.mpr compare_gt_iff_gt)
    · rw [hcompare]
      exact answers_bool (decide_eq_decide.mpr (compare_lt_iff_lt.not.trans not_lt))
  unfold Evaluator.combined
  rw [hcombine]
  rfl

/-- **A sum and a difference** are exact, or refused: past the range, or of two
kinds. -/
theorem combined_sum (hop : op = .add ∨ op = .sub) (ha : a.quantity? = some (p, x))
    (hb : b.quantity? = some (q, y)) :
    (p ≠ q ∧ ∃ w, (ev.combined op a b).outcome = .error (.unsupported w)) ∨
      (ev.combined op a b).outcome = .error (.outOfRange (ev.this.getD "")) ∨
        ∃ v r z, (ev.combined op a b).outcome = .ok v ∧ v.quantity? = some (r, z) ∧
          (r = p ∨ r = q) ∧ z = if op = .add then x + y else x - y := by
  obtain ⟨r, hza, hr, hrp⟩ := zeroAs_quantity ha hb
  obtain ⟨s, hzb, hs, hsq⟩ := zeroAs_quantity hb ha
  have hcombine : combine op a b = arithmetic op (zeroAs a b) (zeroAs b a) := by
    have hpresent := present_both hza hzb
    rcases hop with rfl | rfl
    all_goals
      unfold combine
      rw [if_neg (by decide)]
      dsimp only
      rw [hpresent]
      rfl
  rcases sum_exact hop hza hzb with ⟨hne, w, hw⟩ | ⟨v, hv, hleft⟩
  · refine .inl ⟨fun heq => hne ?_, w, combined_error ev (hcombine.trans hw)⟩
    rw [hrp heq, hsq heq.symm, heq]
  · right
    rcases combined_left ev ⟨quantity_present ha, quantity_present hb⟩
        (by rcases hop with rfl | rfl <;> decide) (hcombine.trans hv) hleft with
      hpast | ⟨t, z, hok, hquantity, ht, hz⟩
    · exact .inl hpast
    · exact .inr ⟨v, t, z, hok, hquantity, ht ▸ hr, hz⟩

/-- **A product** is exact, an amount's and a duration's rounded once, or
refused: past the range, or of two that are no number. -/
theorem combined_product (ha : a.quantity? = some (p, x)) (hb : b.quantity? = some (q, y)) :
    (p ≠ .scalar ∧ q ≠ .scalar ∧
        ∃ w, (ev.combined .mul a b).outcome = .error (.unsupported w)) ∨
      (ev.combined .mul a b).outcome = .error (.outOfRange (ev.this.getD "")) ∨
        ∃ v r z, (ev.combined .mul a b).outcome = .ok v ∧ v.quantity? = some (r, z) ∧
          Product p q x y r z := by
  have hcombine : combine .mul a b = arithmetic .mul a b := by
    have hpresent := present_both ha hb
    unfold combine
    rw [if_pos (by decide)]
    dsimp only
    rw [hpresent]
    rfl
  rcases product_exact ha hb with ⟨hp, hq, w, hw⟩ | ⟨v, hv, hleft⟩
  · exact .inl ⟨hp, hq, w, combined_error ev (hcombine.trans hw)⟩
  · right
    rcases combined_left ev ⟨quantity_present ha, quantity_present hb⟩ (by decide)
        (hcombine.trans hv) hleft with hpast | ⟨r, z, hok, hquantity, hproduct⟩
    · exact .inl hpast
    · exact .inr ⟨v, r, z, hok, hquantity, hproduct⟩

/-! ### Quotients -/

/-- What a division of two numbers leaves: of two integers the quotient toward
zero; of two amounts of a currency or two durations, a decimal of six places; of
another dividend and a number, what it keeps; rounded once. -/
inductive Divided (a b : Value) (p q : Quantity) (x y : ℚ) (places : Nat) : Value → Prop
  | integers (m n : Int) : a = .int m → b = .int n → i64Min ≤ m.tdiv n → m.tdiv n ≤ i64Max →
      Divided a b p q x y places (.int (m.tdiv n))
  | scalar (d : Decimal) : p = .scalar → (∀ m n, a = .int m → b ≠ .int n) → d.scale = places →
      HalfEven (x / y * 10 ^ d.scale) d.units → Divided a b p q x y places (.decimal d)
  | alike (d : Decimal) : p = q → p ≠ .scalar → d.scale = 6 →
      HalfEven (x / y * 10 ^ d.scale) d.units → Divided a b p q x y places (.decimal d)
  | money (c : String) (d : Decimal) : p = .money c → q = .scalar →
      d.scale = (minorUnit c).getD 2 → HalfEven (x / y * 10 ^ d.scale) d.units →
        Divided a b p q x y places (.money c d)
  | duration (n : Int) : p = .duration → q = .scalar → i64Min ≤ n → n ≤ i64Max →
      HalfEven (x / y) n → Divided a b p q x y places (.duration n)

/-- A value there is, of those an operator may leave. -/
theorem unknownIfNone_some {o : Option Value} (h : unknownIfNone o = v) (hne : v ≠ .absent) :
    o = some v := by
  cases o with
  | none => exact absurd h.symm hne
  | some w => exact congrArg some h

variable {places : Nat}

theorem divided_scalars (ha : a.quantity? = some (.scalar, x)) (hb : b.quantity? = some (.scalar, y))
    (hplaces : ∀ d, a = .decimal d → d.scale = places) (h : arithmetic .div a b = .ok v)
    (hne : v ≠ .absent) : y ≠ 0 ∧ Divided a b .scalar .scalar x y places v := by
  rcases scalar_form ha with ⟨m, rfl⟩ | ⟨d, rfl⟩
  · rcases scalar_form hb with ⟨n, rfl⟩ | ⟨e, rfl⟩
    · obtain ⟨-, rfl, -⟩ := quantity_int hb
      simp only [arithmetic] at h
      split at h
      case isTrue => exact absurd (Except.ok.inj h).symm hne
      case isFalse hzero =>
        refine ⟨Int.cast_ne_zero.mpr hzero, ?_⟩
        obtain ⟨k, hk, hv⟩ := Option.map_eq_some_iff.mp
          (unknownIfNone_some (Except.ok.inj h) hne)
        obtain ⟨rfl, hfits⟩ := fits64_eq_some.mp hk
        exact hv ▸ .integers m n rfl rfl hfits.1 hfits.2
    · simp only [arithmetic] at h
      split at h
      case isTrue => exact absurd (Except.ok.inj h).symm hne
      case isFalse => cases h
  · obtain ⟨l, hl, rfl⟩ := scalar_number hb
    have hd : (Value.decimal d).number = some d := rfl
    have hdiv : (if l.isZero = true then (.ok .absent : Except String Value)
        else .ok (unknownIfNone ((d.checkedDiv l d.scale).map .decimal))) = .ok v := by
      rcases scalar_form hb with ⟨n, rfl⟩ | ⟨e, rfl⟩ <;>
        · simp only [arithmetic, hd, hl] at h
          exact h
    split at hdiv
    case isTrue => exact absurd (Except.ok.inj hdiv).symm hne
    case isFalse =>
      obtain ⟨r, hr, hv⟩ := Option.map_eq_some_iff.mp
        (unknownIfNone_some (Except.ok.inj hdiv) hne)
      obtain ⟨hy, hscale, hround⟩ := Decimal.checkedDiv_rounds hr
      cases ha
      refine ⟨hy, hv ▸ .scalar r rfl (fun _ _ h => by cases h) (hscale.trans (hplaces d rfl)) ?_⟩
      rw [hscale]
      exact hround

/-- **A quotient** present is of its numbers, rounded once. -/
theorem arithmetic_divided (ha : a.quantity? = some (p, x)) (hb : b.quantity? = some (q, y))
    (hplaces : ∀ d, a = .decimal d → d.scale = places) (h : arithmetic .div a b = .ok v)
    (hne : v ≠ .absent) : y ≠ 0 ∧ Divided a b p q x y places v := by
  rcases quantity_cases ha with rfl | ⟨c, d, rfl, rfl, rfl⟩ | ⟨m, rfl, rfl, rfl, hm⟩
  · obtain ⟨k, hk, -⟩ := scalar_number ha
    rcases quantity_cases hb with rfl | ⟨c, e, rfl, rfl, rfl⟩ | ⟨n, rfl, rfl, rfl, -⟩
    · exact divided_scalars ha hb hplaces h hne
    · have hnone : (Value.money c e).number = none := rfl
      rcases scalar_form ha with ⟨m, rfl⟩ | ⟨d, rfl⟩ <;>
        simp only [arithmetic, hk, hnone, reduceCtorEq] at h
    · have hnone : (Value.duration n).number = none := rfl
      rcases scalar_form ha with ⟨m, rfl⟩ | ⟨d, rfl⟩ <;>
        simp only [arithmetic, hk, hnone, reduceCtorEq] at h
  · rcases quantity_cases hb with rfl | ⟨c', e, rfl, rfl, rfl⟩ | ⟨n, rfl, rfl, rfl, -⟩
    · obtain ⟨l, hl, rfl⟩ := scalar_number hb
      have hnone : (Value.money c d).number = none := rfl
      have hdiv : scaledMoney .div c d l = v := by
        rcases scalar_form hb with ⟨n, rfl⟩ | ⟨e, rfl⟩ <;>
          · simp only [arithmetic, hl, hnone] at h
            exact Except.ok.inj h
      obtain ⟨r, hr, hv⟩ := Option.map_eq_some_iff.mp (unknownIfNone_some hdiv hne)
      obtain ⟨hy, hscale, hround⟩ := Decimal.checkedDiv_rounds hr
      refine ⟨hy, hv ▸ .money c r rfl rfl hscale ?_⟩
      rw [hscale]
      exact hround
    · simp only [arithmetic] at h
      split at h
      case isFalse => cases h
      case isTrue hc =>
        obtain ⟨r, hr, hv⟩ := Option.map_eq_some_iff.mp
          (unknownIfNone_some (Except.ok.inj h) hne)
        obtain ⟨hy, hscale, hround⟩ := Decimal.checkedDiv_rounds hr
        refine ⟨hy, hv ▸ .alike r (congrArg Quantity.money hc) (by simp) hscale ?_⟩
        rw [hscale]
        exact hround
    · simp only [arithmetic, Value.number, reduceCtorEq] at h
  · rcases quantity_cases hb with rfl | ⟨c', e, rfl, rfl, rfl⟩ | ⟨n, rfl, rfl, rfl, hn⟩
    · obtain ⟨l, hl, rfl⟩ := scalar_number hb
      obtain ⟨k, hk⟩ := fromInt_some hm
      have hnone : (Value.duration m).number = none := rfl
      have hdiv : unknownIfNone (((k.checkedDiv l 0).bind Decimal.toInt).map .duration) = v := by
        rcases scalar_form hb with ⟨n, rfl⟩ | ⟨e, rfl⟩ <;>
          · simp only [arithmetic, hl, hnone] at h
            unfold scaledDuration at h
            rw [hk] at h
            exact Except.ok.inj h
      obtain ⟨n, hn, hv⟩ := Option.map_eq_some_iff.mp (unknownIfNone_some hdiv hne)
      obtain ⟨r, hr, hn⟩ := Option.bind_eq_some_iff.mp hn
      obtain ⟨hy, hscale, hround⟩ := Decimal.checkedDiv_rounds hr
      have hfits := Decimal.toInt_fits hn
      have hunits := Decimal.exact_of_units hscale
        (by rw [Decimal.toInt_exact hn, pow_zero, mul_one] : r.exact * 10 ^ 0 = n)
      refine ⟨hy, hv ▸ .duration n rfl rfl hfits.1 hfits.2 ?_⟩
      rw [Decimal.fromInt_exact hk, pow_zero, mul_one, hunits] at hround
      exact hround
    · simp only [arithmetic, Value.number, reduceCtorEq] at h
    · obtain ⟨k, hk⟩ := fromInt_some hm
      obtain ⟨l, hl⟩ := fromInt_some hn
      simp only [arithmetic, hk, hl] at h
      have hratio : ((k.checkedDiv l 6).bind fun r => some (Value.decimal r)) = some v :=
        unknownIfNone_some (Except.ok.inj h) hne
      obtain ⟨r, hr, hv⟩ := Option.bind_eq_some_iff.mp hratio
      obtain ⟨hy, hscale, hround⟩ := Decimal.checkedDiv_rounds hr
      rw [Decimal.fromInt_exact hk, Decimal.fromInt_exact hl] at hround
      rw [Decimal.fromInt_exact hl] at hy
      obtain rfl := Option.some.inj hv
      refine ⟨hy, .alike r rfl (by simp) hscale ?_⟩
      rw [hscale]
      exact hround

end Evaluation

end ObjectFlow
