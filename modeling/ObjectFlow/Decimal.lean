import Mathlib.Tactic.Linarith
import Mathlib.Tactic.Positivity
import Mathlib.Tactic.Ring
import Mathlib.Tactic.Set
import Mathlib.Data.Int.Order.Units
import ObjectFlow.Base.Integer

/-!
# Decimals

A decimal is a signed 128-bit count of units and the places it keeps.  Its
arithmetic is checked: a result past 128 bits or past 38 places is none, never
a wrapped one.  Two decimals are equal when their numbers are, whatever their
places.
-/

namespace ObjectFlow

open Base

/-- Unicode's `White_Space` characters. -/
def isWhiteSpace (c : Char) : Bool :=
  let n := c.toNat
  (9 ≤ n ∧ n ≤ 13) ∨ n ∈ [0x20, 0x85, 0xA0, 0x1680, 0x2028, 0x2029, 0x202F, 0x205F, 0x3000] ∨
    (0x2000 ≤ n ∧ n ≤ 0x200A)

/-- A text without the white space around it. -/
def trim (text : String) : String :=
  String.ofList
    ((text.toList.dropWhile isWhiteSpace).reverse.dropWhile isWhiteSpace).reverse

/-- The most places a decimal keeps. -/
def MAX_SCALE : Nat := 38

/-- `units / 10 ^ scale`, exact. -/
structure Decimal where
  units : Int
  scale : Nat
  bounded : i128Min ≤ units ∧ units ≤ i128Max := by decide
  places : scale ≤ MAX_SCALE := by decide
deriving DecidableEq

/-- Two places are within a decimal's. -/
theorem Decimal.two_places : 2 ≤ MAX_SCALE := by decide

/-- A power of ten that fits. -/
def pow10 (n : Nat) : Option Int := fits128 (10 ^ n)

/-- `a / b` rounded half to even; none for a zero divisor. -/
def divHalfEven (a b : Int) : Option Int :=
  if b = 0 then none
  else do
    let q ← fits128 (a.tdiv b)
    let r := a.tmod b
    if r = 0 then some q
    else
      let twice ← fits128 (r.natAbs * 2)
      let denom ← fits128 b.natAbs
      let away := denom < twice ∨ (twice = denom ∧ q.tmod 2 ≠ 0)
      if ¬ away then some q
      else if (a < 0) ≠ (b < 0) then fits128 (q - 1)
      else fits128 (q + 1)

namespace Decimal

/-- A decimal of the units and places given. -/
def new (units : Int) (scale : Nat) : Option Decimal :=
  if h : (i128Min ≤ units ∧ units ≤ i128Max) ∧ scale ≤ MAX_SCALE then
    some { units, scale, bounded := h.1, places := h.2 }
  else none

/-- An integer, with no places; every one of 64 bits has one. -/
def fromInt (n : Int) : Option Decimal := new n 0

/-- The same number at other places, rounded half to even where places are
dropped. -/
def rescale (d : Decimal) (scale : Nat) : Option Decimal :=
  if scale = d.scale then some d
  else if d.scale < scale then do
    let f ← pow10 (scale - d.scale)
    new (← fits128 (d.units * f)) scale
  else do
    let f ← pow10 (d.scale - scale)
    new (← divHalfEven d.units f) scale

/-- Both at the larger of their scales. -/
def aligned (a b : Decimal) : Option (Int × Int × Nat) := do
  let scale := max a.scale b.scale
  let x ← a.rescale scale
  let y ← b.rescale scale
  return (x.units, y.units, scale)

def checkedAdd (a b : Decimal) : Option Decimal := do
  let (x, y, s) ← a.aligned b
  new (← fits128 (x + y)) s

def checkedSub (a b : Decimal) : Option Decimal := do
  let (x, y, s) ← a.aligned b
  new (← fits128 (x - y)) s

/-- The exact product, its places the sum of the places. -/
def checkedMul (a b : Decimal) : Option Decimal := do
  let units ← fits128 (a.units * b.units)
  if a.scale + b.scale ≤ 255 then new units (a.scale + b.scale) else none

/-- The quotient at `scale` places, rounded half to even; none for a zero
divisor. -/
def checkedDiv (a b : Decimal) (scale : Nat) : Option Decimal := do
  if b.units = 0 then none
  else
    -- at `scale` places the quotient is a * 10 ^ (scale + sb - sa) / b
    let (num, den) ←
      (if a.scale ≤ scale + b.scale then do
        let f ← pow10 (scale + b.scale - a.scale)
        return (← fits128 (a.units * f), b.units)
      else do
        let f ← pow10 (a.scale - (scale + b.scale))
        return (a.units, ← fits128 (b.units * f)) : Option (Int × Int))
    new (← divHalfEven num den) scale

def checkedNeg (d : Decimal) : Option Decimal := do
  new (← fits128 (-d.units)) d.scale

def isZero (d : Decimal) : Bool := d.units = 0

/-- Which of two decimals is larger, exact at any two scales: aligned where
both fit, else by sign, then whole part, then fraction. -/
def cmp (a b : Decimal) : Ordering :=
  match a.aligned b with
  | some (x, y, _) => compare x y
  | none =>
      let sign := compare a.units.sign b.units.sign
      match pow10 a.scale, pow10 b.scale with
      | some pa, some pb =>
          if sign ≠ .eq then sign
          else
            let whole := compare (a.units.tdiv pa) (b.units.tdiv pb)
            if whole ≠ .eq then whole
            else
              -- each fraction is below one, so at the larger scale it fits
              let scale := max a.scale b.scale
              let fraction := fun (d : Decimal) (p : Int) =>
                (pow10 (scale - d.scale)).bind fun f => fits128 (d.units.tmod p * f)
              match fraction a pa, fraction b pb with
              | some x, some y => compare x y
              | _, _ => sign
      | _, _ => sign

/-- Equality as numbers. -/
def equal (a b : Decimal) : Bool := a.cmp b = .eq

/-- The number as a 64-bit integer, where it is whole and fits. -/
def toInt (d : Decimal) : Option Int := do
  let whole ← d.rescale 0
  let back ← whole.rescale d.scale
  if back.equal d then fits64 whole.units else none

/-- The digits of a number's text, none where a character is no digit. -/
def digits (text : List Char) : Option Int :=
  text.foldlM (fun n c => if c.isDigit then some (n * 10 + (c.toNat - 48 : Nat)) else none) 0

/-- A decimal written as `-12.50`, keeping the places it is written with. -/
def parse (text : String) : Option Decimal :=
  let text := (trim text).toList
  let (negative, body) := match text with
    | '-' :: rest => (true, rest)
    | _ => (false, text)
  let whole := body.takeWhile (· ≠ '.')
  let fraction := (body.dropWhile (· ≠ '.')).drop 1
  if whole.isEmpty ∨ (body.contains '.' ∧ fraction.isEmpty) then none
  else do
    let units ← (digits (whole ++ fraction)).bind fits128
    new (if negative then -units else units) fraction.length

/-- What `new` answers is what it was given. -/
theorem new_eq_some {units : Int} {scale : Nat} {d : Decimal} :
    new units scale = some d ↔ d.units = units ∧ d.scale = scale := by
  unfold new
  constructor
  · intro h
    split at h
    case isTrue =>
      obtain rfl := Option.some.inj h
      exact ⟨rfl, rfl⟩
    case isFalse => cases h
  · rintro ⟨rfl, rfl⟩
    rw [dif_pos ⟨d.bounded, d.places⟩]

/-- A decimal at more places holds the same number. -/
theorem rescale_up {d r : Decimal} {scale : Nat} (hle : d.scale ≤ scale)
    (h : d.rescale scale = some r) : r.units = d.units * 10 ^ (scale - d.scale) := by
  unfold rescale at h
  split at h
  case isTrue heq =>
    obtain rfl := Option.some.inj h
    simp [heq]
  case isFalse hne =>
    rw [if_pos (by omega)] at h
    simp only [pow10, bind, Option.bind_eq_some_iff, fits128_eq_some] at h
    obtain ⟨f, ⟨hf, _⟩, u, ⟨hu, _⟩, hnew⟩ := h
    rw [(new_eq_some.mp hnew).1, ← hu, ← hf]

theorem aligned_eq_some {a b : Decimal} {x y : Int} {s : Nat} (h : a.aligned b = some (x, y, s)) :
    x = a.units * 10 ^ (max a.scale b.scale - a.scale) ∧
      y = b.units * 10 ^ (max a.scale b.scale - b.scale) := by
  simp only [aligned, bind, Option.bind_eq_some_iff] at h
  obtain ⟨ra, hra, rb, hrb, heq⟩ := h
  cases heq
  exact ⟨rescale_up (le_max_left ..) hra, rescale_up (le_max_right ..) hrb⟩

/-- The powers of ten of the places a decimal keeps all fit. -/
theorem pow10_of_le {n : Nat} (h : n ≤ MAX_SCALE) : pow10 n = some (10 ^ n) := by
  have hpow : (10 : Int) ^ n ≤ 10 ^ MAX_SCALE := pow_le_pow_right₀ (by decide) h
  have hmax : (10 : Int) ^ MAX_SCALE ≤ i128Max := by decide
  have hpos : (0 : Int) < 10 ^ n := by positivity
  have hmin : i128Min ≤ 0 := by decide
  exact fits128_eq_some.mpr ⟨rfl, by omega, by omega⟩

/-- Both numbers as counts of the larger scale's unit. -/
theorem common_units (a b : Decimal) :
    a.units * 10 ^ (max a.scale b.scale - a.scale) =
        b.units * 10 ^ (max a.scale b.scale - b.scale) ↔
      a.units * 10 ^ b.scale = b.units * 10 ^ a.scale := by
  rcases le_total a.scale b.scale with h | h
  · rw [max_eq_right h, Nat.sub_self, pow_zero, mul_one]
    have hsplit : (10 : Int) ^ b.scale = 10 ^ (b.scale - a.scale) * 10 ^ a.scale := by
      rw [← pow_add, Nat.sub_add_cancel h]
    rw [hsplit, ← mul_assoc, mul_left_inj' (by positivity)]
  · rw [max_eq_left h, Nat.sub_self, pow_zero, mul_one]
    have hsplit : (10 : Int) ^ a.scale = 10 ^ (a.scale - b.scale) * 10 ^ b.scale := by
      rw [← pow_add, Nat.sub_add_cancel h]
    rw [hsplit, ← mul_assoc, mul_left_inj' (by positivity)]

/-- A decimal's fraction, as a count of a smaller unit, fits. -/
theorem fraction_fits (d : Decimal) {scale : Nat} (hle : d.scale ≤ scale)
    (hscale : scale ≤ MAX_SCALE) :
    fits128 (d.units.tmod (10 ^ d.scale) * 10 ^ (scale - d.scale)) =
      some (d.units.tmod (10 ^ d.scale) * 10 ^ (scale - d.scale)) := by
  have hpos : (0 : Int) < 10 ^ d.scale := by positivity
  have hhigh := Int.tmod_lt_of_pos d.units hpos
  have hlow := Int.lt_tmod_of_pos d.units hpos
  have hunit : (0 : Int) < 10 ^ (scale - d.scale) := by positivity
  have hsplit : (10 : Int) ^ scale = 10 ^ d.scale * 10 ^ (scale - d.scale) := by
    rw [← pow_add, Nat.add_sub_cancel' hle]
  have hpow : (10 : Int) ^ scale ≤ 10 ^ MAX_SCALE := pow_le_pow_right₀ (by decide) hscale
  have hmax : (10 : Int) ^ MAX_SCALE ≤ i128Max := by decide
  have hmin : i128Min ≤ -(10 : Int) ^ MAX_SCALE := by decide
  refine fits128_eq_some.mpr ⟨rfl, ?_, ?_⟩
  · nlinarith
  · nlinarith

/-- **Equality is of numbers.**  Two decimals compare equal where their counts
agree at a common scale, whether or not both fit there. -/
theorem cmp_eq_iff (a b : Decimal) :
    a.cmp b = .eq ↔ a.units * 10 ^ b.scale = b.units * 10 ^ a.scale := by
  rw [← common_units]
  unfold cmp
  split
  case h_1 x y s h =>
    obtain ⟨rfl, rfl⟩ := aligned_eq_some h
    rw [compare_eq_iff_eq]
  case h_2 h =>
    have hscale : max a.scale b.scale ≤ MAX_SCALE := max_le a.places b.places
    simp only [pow10_of_le a.places, pow10_of_le b.places,
      pow10_of_le (le_trans (Nat.sub_le ..) hscale), Option.bind_some,
      fraction_fits a (le_max_left ..) hscale, fraction_fits b (le_max_right ..) hscale]
    set ka : Int := 10 ^ (max a.scale b.scale - a.scale)
    set kb : Int := 10 ^ (max a.scale b.scale - b.scale)
    have hka : 0 < ka := by positivity
    have hkb : 0 < kb := by positivity
    have hwhole : (10 : Int) ^ a.scale * ka = 10 ^ b.scale * kb := by
      simp only [ka, kb, ← pow_add]
      rw [Nat.add_sub_cancel' (le_max_left ..), Nat.add_sub_cancel' (le_max_right ..)]
    constructor
    · intro heq
      split at heq
      case isTrue hsign => exact absurd heq hsign
      case isFalse hsign =>
        split at heq
        case isTrue hne => exact absurd heq hne
        case isFalse hne =>
          have hdiv : a.units.tdiv (10 ^ a.scale) = b.units.tdiv (10 ^ b.scale) :=
            compare_eq_iff_eq.mp (not_not.mp hne)
          have hmod := compare_eq_iff_eq.mp heq
          calc a.units * ka
              = a.units.tdiv (10 ^ a.scale) * (10 ^ a.scale * ka) +
                  a.units.tmod (10 ^ a.scale) * ka := by
                conv_lhs => rw [← Int.mul_tdiv_add_tmod a.units (10 ^ a.scale)]
                ring
            _ = b.units.tdiv (10 ^ b.scale) * (10 ^ b.scale * kb) +
                  b.units.tmod (10 ^ b.scale) * kb := by rw [hdiv, hwhole, hmod]
            _ = b.units * kb := by
                conv_rhs => rw [← Int.mul_tdiv_add_tmod b.units (10 ^ b.scale)]
                ring
    · intro heq
      have hsign : a.units.sign = b.units.sign := by
        have h' := congrArg Int.sign heq
        rwa [Int.sign_mul, Int.sign_mul, Int.sign_eq_one_of_pos hka,
          Int.sign_eq_one_of_pos hkb, mul_one, mul_one] at h'
      have hdiv : a.units.tdiv (10 ^ a.scale) = b.units.tdiv (10 ^ b.scale) := by
        rw [← Int.mul_tdiv_mul_of_pos_left _ _ hka, heq, hwhole,
          Int.mul_tdiv_mul_of_pos_left _ _ hkb]
      have hmod : a.units.tmod (10 ^ a.scale) * ka = b.units.tmod (10 ^ b.scale) * kb := by
        rw [Int.tmod_def, Int.tmod_def, sub_mul, sub_mul, heq, hdiv]
        have hb : (10 : Int) ^ a.scale * b.units.tdiv (10 ^ b.scale) * ka =
            10 ^ b.scale * b.units.tdiv (10 ^ b.scale) * kb := by
          calc _ = b.units.tdiv (10 ^ b.scale) * (10 ^ a.scale * ka) := by ring
            _ = b.units.tdiv (10 ^ b.scale) * (10 ^ b.scale * kb) := by rw [hwhole]
            _ = _ := by ring
        rw [hb]
      rw [hsign, hdiv, hmod]
      simp

@[simp] theorem cmp_self (a : Decimal) : a.cmp a = .eq := (cmp_eq_iff a a).mpr rfl

@[simp] theorem equal_self (a : Decimal) : a.equal a = true := by
  simp [equal]

theorem equal_iff (a b : Decimal) :
    a.equal b = true ↔ a.units * 10 ^ b.scale = b.units * 10 ^ a.scale := by
  rw [equal, decide_eq_true_iff, cmp_eq_iff]

theorem equal_symm {a b : Decimal} (h : a.equal b = true) : b.equal a = true := by
  rw [equal_iff] at h ⊢
  exact h.symm

theorem equal_trans {a b c : Decimal} (hab : a.equal b = true) (hbc : b.equal c = true) :
    a.equal c = true := by
  rw [equal_iff] at hab hbc ⊢
  have hpos : (10 : Int) ^ b.scale ≠ 0 := by positivity
  apply mul_right_cancel₀ hpos
  calc a.units * 10 ^ c.scale * 10 ^ b.scale
      = a.units * 10 ^ b.scale * 10 ^ c.scale := by ring
    _ = b.units * 10 ^ c.scale * 10 ^ a.scale := by rw [hab]; ring
    _ = c.units * 10 ^ a.scale * 10 ^ b.scale := by rw [hbc]; ring

end Decimal

/-- A fixed amount of money keeps its currency's minor unit. -/
def minorUnit (currency : String) : Option Nat :=
  if currency ∈ ["USD", "EUR", "GBP", "SGD", "AUD", "CAD", "CHF", "CNY", "HKD", "NZD", "MYR",
      "INR", "THB"] then some 2
  else if currency ∈ ["JPY", "KRW"] then some 0
  else if currency ∈ ["BHD", "KWD", "OMR", "JOD", "TND"] then some 3
  else none

/-- A duration's units, in seconds. -/
def unitSeconds (unit : String) : Option Int :=
  if unit = "s" then some 1
  else if unit = "min" then some 60
  else if unit = "h" then some 3600
  else if unit ∈ ["day", "days"] then some 86400
  else if unit ∈ ["week", "weeks"] then some 604800
  else none

/-- The calendar's first and last day, 0001-01-01 to 9999-12-31. -/
def FIRST_DAY : Int := -719162

def LAST_DAY : Int := 2932896

/-- Whether a day, in days since 1970-01-01, is in the calendar. -/
def inCalendar (day : Int) : Bool := FIRST_DAY ≤ day ∧ day ≤ LAST_DAY

end ObjectFlow
