import Mathlib.Data.Rat.Lemmas
import ObjectFlow.Base.HalfEven
import ObjectFlow.Exact

/-!
# Exact fractions

What a metric's value is computed in: fractions in lowest terms over 128-bit
integers.  Each operation gives the fraction its numbers have, or none where an
integer on the way passes 128 bits, and two fractions compare as their numbers
do, by cross products of 256 bits.
-/

namespace ObjectFlow

open Base

/-- A signed integer of 128 bits. -/
abbrev Int128 := {n : Int // i128Min ≤ n ∧ n ≤ i128Max}

/-- A fraction in lowest terms, its denominator positive. -/
structure Rat128 where
  n : Int
  d : Int
  pos : 0 < d
  lowest : Nat.Coprime n.natAbs d.natAbs
  bounded : i128Min ≤ n ∧ n ≤ i128Max ∧ d ≤ i128Max

namespace Rat128

/-- The largest number that divides two, one where both are zero. -/
def gcd (a b : Int) : Int := (fits128 (max (Nat.gcd a.natAbs b.natAbs) 1 : Nat)).getD 1

/-- A fraction in its lowest terms, of a numerator and a positive denominator of
128 bits. -/
def reduced (n d : Int) : Option Rat128 :=
  let n' := n.tdiv (gcd n d)
  let d' := d.tdiv (gcd n d)
  if h : 0 < d' ∧ Nat.Coprime n'.natAbs d'.natAbs ∧
      (i128Min ≤ n' ∧ n' ≤ i128Max ∧ d' ≤ i128Max) then
    some { n := n', d := d', pos := h.1, lowest := h.2.1, bounded := h.2.2 }
  else none

/-- `n / d`, or none for a zero denominator or one past 128 bits. -/
def new (n d : Int) : Option Rat128 :=
  if d = 0 then none
  else if d < 0 then do reduced (← fits128 (-n)) (← fits128 (-d))
  else reduced n d

def int (n : Int128) : Rat128 where
  n := n
  d := 1
  pos := one_pos
  lowest := Nat.coprime_one_right _
  bounded := ⟨n.2.1, n.2.2, by decide⟩

def isInteger (r : Rat128) : Bool := r.d = 1

/-- A decimal's exact value. -/
def ofDecimal (d : Decimal) : Option Rat128 := do new d.units (← pow10 d.scale)

def checkedAdd (r o : Rat128) : Option Rat128 := do
  let n ← fits128 ((← fits128 (r.n * o.d)) + (← fits128 (o.n * r.d)))
  new n (← fits128 (r.d * o.d))

def checkedSub (r o : Rat128) : Option Rat128 := do
  let m ← fits128 (-o.n)
  let n ← fits128 ((← fits128 (r.n * o.d)) + (← fits128 (m * r.d)))
  new n (← fits128 (r.d * o.d))

def checkedMul (r o : Rat128) : Option Rat128 := do
  new (← fits128 (r.n * o.n)) (← fits128 (r.d * o.d))

/-- The quotient, none for a zero divisor. -/
def checkedDiv (r o : Rat128) : Option Rat128 := do
  new (← fits128 (r.n * o.d)) (← fits128 (r.d * o.n))

/-- Toward zero. -/
def trunc (r : Rat128) : Int := r.n.tdiv r.d

/-- The least integer at least this one. -/
def ceil (r : Rat128) : Int := -(-r.n / r.d)

/-- Rounded half to even to so many decimal places, as units of that scale. -/
def halfEven (r : Rat128) (places : Nat) : Option Int := do
  let scaled ← fits128 (r.n * (← pow10 places))
  let floor := scaled / r.d
  let rest := scaled % r.d
  let twice ← fits128 (rest * 2)
  some (if r.d < twice ∨ twice = r.d ∧ floor % 2 = 1 then floor + 1 else floor)

/-- The product of two numbers of 128 bits, as the high and the low half of its
256. -/
def wideMul (a b : Nat) : Nat × Nat :=
  let half := 2 ^ 64
  let (a1, a0) := (a / half, a % half)
  let (b1, b0) := (b / half, b % half)
  let (p00, p01, p10, p11) := (a0 * b0, a0 * b1, a1 * b0, a1 * b1)
  let mid := p00 / half + p01 % half + p10 % half
  -- what the shift of the middle drops is the high half's
  let low := p00 % half + mid % half * half
  let high := p11 + p01 / half + p10 / half + mid / half
  (high, low)

/-- Exact: by sign, then by the cross products in 256 bits. -/
def cmp (r o : Rat128) : Ordering :=
  if r.n.sign ≠ o.n.sign then compare r.n.sign o.n.sign
  else if r.n.sign = 0 then .eq
  else
    let x := wideMul r.n.natAbs o.d.natAbs
    let y := wideMul o.n.natAbs r.d.natAbs
    let (x, y) := if 0 < r.n.sign then (x, y) else (y, x)
    (compare x.1 y.1).then (compare x.2 y.2)

/-- The number a fraction is. -/
def value (r : Rat128) : ℚ := r.n / r.d

/-! ### The number of a fraction -/

variable {r o : Rat128} {n d : Int}

theorem value_num (r : Rat128) : r.value.num = r.n :=
  Rat.num_div_eq_of_coprime r.pos r.lowest

theorem value_den (r : Rat128) : (r.value.den : Int) = r.d :=
  Rat.den_div_eq_of_coprime r.pos r.lowest

theorem value_d_pos (r : Rat128) : (0 : ℚ) < r.d := Int.cast_pos.mpr r.pos

/-- Fractions of one number are one. -/
theorem value_inj (h : r.value = o.value) : r = o := by
  have hn : r.n = o.n := by rw [← value_num, h, value_num]
  have hd : r.d = o.d := by rw [← value_den, h, value_den]
  cases r
  cases o
  simp_all

theorem gcd_spec (hd : 0 < d) (hd' : d ≤ i128Max) :
    gcd n d = (Nat.gcd n.natAbs d.natAbs : Int) ∧ 0 < gcd n d := by
  have hpos : 0 < Nat.gcd n.natAbs d.natAbs := Nat.gcd_pos_of_pos_right _ (by omega)
  have hle : Nat.gcd n.natAbs d.natAbs ≤ d.natAbs := Nat.gcd_le_right _ (by omega)
  have hmax : max (Nat.gcd n.natAbs d.natAbs) 1 = Nat.gcd n.natAbs d.natAbs := by omega
  have hfits : fits128 (Nat.gcd n.natAbs d.natAbs : Int) = some (Nat.gcd n.natAbs d.natAbs : Int) := by
    refine fits128_eq_some.mpr ⟨rfl, ?_, ?_⟩
    · unfold i128Min
      omega
    · omega
  unfold gcd
  rw [hmax, hfits, Option.getD_some]
  exact ⟨rfl, by exact_mod_cast hpos⟩

/-- **A fraction reduced** is there for integers of 128 bits, and its number is
their quotient. -/
theorem reduced_spec (hd : 0 < d) (hn : i128Min ≤ n ∧ n ≤ i128Max) (hd' : d ≤ i128Max) :
    ∃ r, reduced n d = some r ∧ r.value = (n : ℚ) / d := by
  obtain ⟨hgcd, hpos⟩ := gcd_spec (n := n) hd hd'
  have hdvdn : gcd n d ∣ n := by
    rw [hgcd]
    exact Int.natCast_dvd.mpr (Nat.gcd_dvd_left _ _)
  have hdvdd : gcd n d ∣ d := by
    rw [hgcd]
    exact Int.natCast_dvd.mpr (Nat.gcd_dvd_right _ _)
  have hcoprime : Nat.Coprime (n.tdiv (gcd n d)).natAbs (d.tdiv (gcd n d)).natAbs := by
    rw [Int.natAbs_tdiv, Int.natAbs_tdiv, hgcd, Int.natAbs_natCast]
    exact Nat.coprime_div_gcd_div_gcd (Nat.gcd_pos_of_pos_right _ (by omega))
  obtain ⟨m, hm⟩ := hdvdn
  obtain ⟨k, hk⟩ := hdvdd
  have hnm : n.tdiv (gcd n d) = m := Int.tdiv_eq_of_eq_mul_right hpos.ne' hm
  have hdk : d.tdiv (gcd n d) = k := Int.tdiv_eq_of_eq_mul_right hpos.ne' hk
  rw [hnm, hdk] at hcoprime
  have hg : ((gcd n d : Int) : ℚ) ≠ 0 := Int.cast_ne_zero.mpr hpos.ne'
  have hn' : (n : ℚ) = (gcd n d : Int) * m := by exact_mod_cast hm
  have hd'' : (d : ℚ) = (gcd n d : Int) * k := by exact_mod_cast hk
  have hk : 0 < k := pos_of_mul_pos_right (hk ▸ hd) hpos.le
  have hkle : k ≤ i128Max := by
    have hle : k ≤ gcd n d * k := le_mul_of_one_le_left hk.le hpos
    omega
  have hmle : i128Min ≤ m ∧ m ≤ i128Max := by
    rcases le_total 0 m with hnonneg | hneg
    · have hle : m ≤ gcd n d * m := le_mul_of_one_le_left hnonneg hpos
      unfold i128Min
      omega
    · have hle : gcd n d * m ≤ m := mul_le_of_one_le_left hneg hpos
      unfold i128Max
      omega
  have hmade : 0 < d.tdiv (gcd n d) ∧
      Nat.Coprime (n.tdiv (gcd n d)).natAbs (d.tdiv (gcd n d)).natAbs ∧
        i128Min ≤ n.tdiv (gcd n d) ∧ n.tdiv (gcd n d) ≤ i128Max ∧ d.tdiv (gcd n d) ≤ i128Max := by
    rw [hnm, hdk]
    exact ⟨hk, hcoprime, hmle.1, hmle.2, hkle⟩
  unfold reduced
  dsimp only
  rw [dif_pos hmade]
  refine ⟨_, rfl, ?_⟩
  unfold value
  dsimp only
  rw [hnm, hdk, hn', hd'', mul_div_mul_left _ _ hg]

/-- **A fraction made** of integers of 128 bits is their quotient. -/
theorem new_value (hn : i128Min ≤ n ∧ n ≤ i128Max) (hd : i128Min ≤ d ∧ d ≤ i128Max)
    (h : new n d = some r) : d ≠ 0 ∧ r.value = (n : ℚ) / d := by
  unfold new at h
  split at h
  case isTrue => cases h
  case isFalse hzero =>
    refine ⟨hzero, ?_⟩
    split at h
    case isTrue hneg =>
      obtain ⟨hn, h⟩ := fits128_bind h
      obtain ⟨hd, h⟩ := fits128_bind h
      obtain ⟨r', hr', hvalue⟩ := reduced_spec (n := -n) (d := -d) (by omega) hn hd.2
      obtain rfl : r' = r := Option.some.inj (hr'.symm.trans h)
      rw [hvalue]
      push_cast
      rw [neg_div_neg_eq]
    case isFalse hpos =>
      obtain ⟨r', hr', hvalue⟩ := reduced_spec (n := n) (d := d) (by omega) hn hd.2
      obtain rfl : r' = r := Option.some.inj (hr'.symm.trans h)
      exact hvalue

/-- A fraction of a positive denominator is there. -/
theorem new_some (hd : 0 < d) (hn : i128Min ≤ n ∧ n ≤ i128Max) (hd' : d ≤ i128Max) :
    ∃ r, new n d = some r ∧ r.value = (n : ℚ) / d := by
  obtain ⟨r, hr, hvalue⟩ := reduced_spec hd hn hd'
  refine ⟨r, ?_, hvalue⟩
  unfold new
  rw [if_neg hd.ne', if_neg (by omega), hr]

@[simp] theorem int_value (n : Int128) : (int n).value = (n : Int) := by
  unfold value int
  simp

/-- Every decimal has a fraction. -/
theorem ofDecimal_some (x : Decimal) : ∃ r, ofDecimal x = some r := by
  have hle : (10 : Int) ^ x.scale ≤ 10 ^ MAX_SCALE :=
    pow_le_pow_right₀ (by decide) x.places
  have hmax : (10 : Int) ^ MAX_SCALE ≤ i128Max := by decide
  have hpos : (0 : Int) < 10 ^ x.scale := by positivity
  have hmin : i128Min ≤ (10 : Int) ^ x.scale := by
    unfold i128Min
    omega
  obtain ⟨r, hr, -⟩ := new_some (n := x.units) hpos x.bounded (hle.trans hmax)
  refine ⟨r, ?_⟩
  unfold ofDecimal pow10
  rw [fits128_eq_some.mpr ⟨rfl, hmin, hle.trans hmax⟩]
  exact hr

theorem ofDecimal_value {x : Decimal} (h : ofDecimal x = some r) : r.value = x.exact := by
  obtain ⟨hp, h⟩ := fits128_bind h
  rw [(new_value x.bounded hp h).2, Decimal.exact]
  push_cast
  rfl

/-! ### Exact arithmetic -/

theorem checkedAdd_value {s : Rat128} (h : r.checkedAdd o = some s) :
    s.value = r.value + o.value := by
  obtain ⟨-, h⟩ := fits128_bind h
  obtain ⟨-, h⟩ := fits128_bind h
  obtain ⟨hn, h⟩ := fits128_bind h
  obtain ⟨hd, h⟩ := fits128_bind h
  rw [(new_value hn hd h).2, value, value, div_add_div _ _ r.value_d_pos.ne' o.value_d_pos.ne']
  push_cast
  ring

theorem checkedSub_value {s : Rat128} (h : r.checkedSub o = some s) :
    s.value = r.value - o.value := by
  obtain ⟨-, h⟩ := fits128_bind h
  obtain ⟨-, h⟩ := fits128_bind h
  obtain ⟨-, h⟩ := fits128_bind h
  obtain ⟨hn, h⟩ := fits128_bind h
  obtain ⟨hd, h⟩ := fits128_bind h
  rw [(new_value hn hd h).2, value, value, div_sub_div _ _ r.value_d_pos.ne' o.value_d_pos.ne']
  push_cast
  ring

theorem checkedMul_value {s : Rat128} (h : r.checkedMul o = some s) :
    s.value = r.value * o.value := by
  obtain ⟨hn, h⟩ := fits128_bind h
  obtain ⟨hd, h⟩ := fits128_bind h
  rw [(new_value hn hd h).2, value, value, div_mul_div_comm]
  push_cast
  rfl

theorem checkedDiv_value {s : Rat128} (h : r.checkedDiv o = some s) :
    o.value ≠ 0 ∧ s.value = r.value / o.value := by
  obtain ⟨hn, h⟩ := fits128_bind h
  obtain ⟨hd, h⟩ := fits128_bind h
  obtain ⟨hzero, hvalue⟩ := new_value hn hd h
  have hnum : o.n ≠ 0 := right_ne_zero_of_mul hzero
  refine ⟨div_ne_zero (Int.cast_ne_zero.mpr hnum) o.value_d_pos.ne', ?_⟩
  rw [hvalue, value, value, div_div_div_eq]
  push_cast
  ring

theorem ceil_value (r : Rat128) : r.ceil = ⌈r.value⌉ := by
  have hd : (r.d.toNat : Int) = r.d := Int.toNat_of_nonneg r.pos.le
  have hceil := Rat.ceil_intCast_div_natCast r.n r.d.toNat
  rw [hd, show ((r.d.toNat : ℕ) : ℚ) = (r.d : ℚ) from by exact_mod_cast hd] at hceil
  exact hceil.symm

/-- **Rounding** is half to even at the places asked. -/
theorem halfEven_value {places : Nat} {u : Int} (h : r.halfEven places = some u) :
    HalfEven (r.value * 10 ^ places) u := by
  obtain ⟨-, h⟩ := fits128_bind h
  obtain ⟨-, h⟩ := fits128_bind h
  obtain ⟨-, h⟩ := fits128_bind h
  obtain rfl := Option.some.inj h
  have hround := halfEven_ediv (a := r.n * 10 ^ places) r.pos
  have hvalue : ((r.n * 10 ^ places : Int) : ℚ) / r.d = r.value * 10 ^ places := by
    unfold value
    push_cast
    ring
  rw [hvalue, mul_comm 2] at hround
  exact hround

/-- An integer is its own rounding. -/
theorem halfEven_int (n : Int128) : (int n).halfEven 0 = some (n : Int) := by
  have hone : pow10 0 = some 1 := by decide
  have hn : fits128 ((n : Int) * 1) = some (n : Int) := by
    rw [mul_one]
    exact fits128_eq_some.mpr ⟨rfl, n.2⟩
  have hzero : fits128 ((n : Int) % 1 * 2) = some 0 := by
    rw [Int.emod_one]
    decide
  unfold halfEven int
  dsimp only
  rw [hone, Option.bind_eq_bind, Option.bind_some, hn]
  dsimp only [Option.bind_eq_bind, Option.bind_some]
  rw [hzero]
  dsimp only [Option.bind_some]
  rw [if_neg (by omega), Int.ediv_one]

theorem isInteger_value (h : r.isInteger = true) : r.value = (r.trunc : ℚ) := by
  have hone : r.d = 1 := of_decide_eq_true h
  rw [value, trunc, hone, Int.tdiv_one, Int.cast_one, div_one]

/-! ### Exact comparison -/

/-- **The halves of a product** are its own. -/
theorem wideMul_eq (a b : Nat) :
    a * b = (wideMul a b).1 * 2 ^ 128 + (wideMul a b).2 ∧ (wideMul a b).2 < 2 ^ 128 := by
  unfold wideMul
  dsimp only
  generalize hhalf : (2 : Nat) ^ 64 = half
  have hsquare : (2 : Nat) ^ 128 = half * half := by rw [← hhalf, ← pow_add]
  have hpos : 0 < half := by rw [← hhalf]; exact Nat.two_pow_pos 64
  generalize hp00 : a % half * (b % half) = p00
  generalize hp01 : a % half * (b / half) = p01
  generalize hp10 : a / half * (b % half) = p10
  generalize hmid : p00 / half + p01 % half + p10 % half = mid
  rw [hsquare]
  constructor
  · have ha := Nat.div_add_mod a half
    have hb := Nat.div_add_mod b half
    have h00 := Nat.div_add_mod p00 half
    have h01 := Nat.div_add_mod p01 half
    have h10 := Nat.div_add_mod p10 half
    have hm := Nat.div_add_mod mid half
    calc a * b = (half * (a / half) + a % half) * (half * (b / half) + b % half) := by rw [ha, hb]
      _ = half * half * (a / half * (b / half)) + half * (p01 + p10) + p00 := by
        rw [← hp00, ← hp01, ← hp10]
        ring
      _ = half * half * (a / half * (b / half)) +
            half * ((half * (p01 / half) + p01 % half) + (half * (p10 / half) + p10 % half)) +
            (half * (p00 / half) + p00 % half) := by rw [h00, h01, h10]
      _ = half * half * (a / half * (b / half) + p01 / half + p10 / half) +
            half * mid + p00 % half := by
        rw [← hmid]
        ring
      _ = half * half * (a / half * (b / half) + p01 / half + p10 / half) +
            half * (half * (mid / half) + mid % half) + p00 % half := by rw [hm]
      _ = _ := by ring
  · have hlow := Nat.mod_lt p00 hpos
    have hle : (mid % half + 1) * half ≤ half * half :=
      Nat.mul_le_mul_right _ (Nat.mod_lt mid hpos)
    calc p00 % half + mid % half * half < (mid % half + 1) * half := by
          rw [Nat.add_mul, Nat.one_mul]
          omega
      _ ≤ half * half := hle

/-- Two numbers in halves compare by the high, then by the low. -/
theorem compare_halves {m h l h' l' : Nat} (hl : l < m) (hl' : l' < m) :
    (compare h h').then (compare l l') = compare (h * m + l) (h' * m + l') := by
  rcases lt_trichotomy h h' with hlt | heq | hgt
  · have hle : (h + 1) * m ≤ h' * m := Nat.mul_le_mul_right m hlt
    have hless : h * m + l < h' * m + l' := by
      rw [Nat.add_mul] at hle
      omega
    rw [compare_lt_iff_lt.mpr hlt, compare_lt_iff_lt.mpr hless, Ordering.lt_then]
  · rw [compare_eq_iff_eq.mpr heq, Ordering.eq_then, heq]
    exact compare_alike (by omega) (by omega)
  · have hle : (h' + 1) * m ≤ h * m := Nat.mul_le_mul_right m hgt
    have hless : h' * m + l' < h * m + l := by
      rw [Nat.add_mul] at hle
      omega
    rw [compare_gt_iff_gt.mpr hgt, compare_gt_iff_gt.mpr hless, Ordering.gt_then]

theorem compare_wideMul (a b a' b' : Nat) :
    (compare (wideMul a b).1 (wideMul a' b').1).then
        (compare (wideMul a b).2 (wideMul a' b').2) = compare (a * b) (a' * b') := by
  obtain ⟨hab, hlow⟩ := wideMul_eq a b
  obtain ⟨hab', hlow'⟩ := wideMul_eq a' b'
  rw [compare_halves hlow hlow', ← hab, ← hab']

/-- Fractions compare as their cross products. -/
theorem compare_crossed (r o : Rat128) :
    compare r.value o.value = compare (r.n * o.d) (o.n * r.d) := by
  have hlt (x y : Rat128) : x.value < y.value ↔ x.n * y.d < y.n * x.d := by
    rw [value, value, div_lt_div_iff₀ x.value_d_pos y.value_d_pos]
    exact_mod_cast Iff.rfl
  exact compare_alike (hlt r o) (hlt o r)

theorem crossed_sign (r o : Rat128) : (r.n * o.d).sign = r.n.sign := by
  rw [Int.sign_mul, Int.sign_eq_one_of_pos o.pos, mul_one]

theorem crossed_natAbs (r o : Rat128) :
    r.n * o.d = r.n.sign * (r.n.natAbs * o.d.natAbs : Nat) := by
  rw [Int.natCast_mul, Int.natAbs_of_nonneg o.pos.le, ← mul_assoc, Int.sign_mul_natAbs]

/-- **Fractions compare as their numbers do.** -/
theorem cmp_value (r o : Rat128) : r.cmp o = compare r.value o.value := by
  rw [compare_crossed]
  unfold cmp
  split
  case isTrue hsign =>
    -- of different signs: the crossed products have the signs of the fractions
    have h := compare_sign (x := r.n * o.d) (y := o.n * r.d)
    rw [crossed_sign, crossed_sign] at h
    exact (h fun heq => hsign (compare_eq_iff_eq.mp heq)).symm
  case isFalse hsign =>
    have hsame := not_ne_iff.mp hsign
    split
    case isTrue hzero =>
      have hr := Int.sign_eq_zero_iff_zero.mp hzero
      have ho := Int.sign_eq_zero_iff_zero.mp (hsame ▸ hzero)
      rw [hr, ho, zero_mul, zero_mul]
      exact (compare_eq_iff_eq.mpr rfl).symm
    case isFalse hzero =>
      dsimp only
      split
      case isTrue hpos =>
        rw [compare_wideMul]
        have hr := crossed_natAbs r o
        have ho := crossed_natAbs o r
        rw [Int.sign_eq_one_of_pos (Int.sign_pos_iff.mp hpos), one_mul] at hr
        rw [← hsame, Int.sign_eq_one_of_pos (Int.sign_pos_iff.mp hpos), one_mul] at ho
        exact compare_alike (by omega) (by omega)
      case isFalse hpos =>
        rw [compare_wideMul]
        have hr := crossed_natAbs r o
        have ho := crossed_natAbs o r
        rw [Int.sign_eq_neg_one_of_neg (by grind), neg_one_mul] at hr
        rw [← hsame, Int.sign_eq_neg_one_of_neg (by grind), neg_one_mul] at ho
        exact compare_alike (by omega) (by omega)

end Rat128

end ObjectFlow
