import Mathlib.Data.Rat.Floor
import Mathlib.Tactic.FieldSimp
import ObjectFlow.Value

/-!
# Values as numbers

A decimal is the rational its units and its places give.  Two compare as their
rationals do, at any two scales, whether or not both can be brought to one
scale within 128 bits: their signs, then their whole parts, then their
fractions order them as the quotients and the remainders of one division do.
-/

namespace ObjectFlow

open Base

/-! ### Quotients and remainders order what they divide -/

section

variable {x y w k : Int}

/-- What two orders agree on compares alike. -/
theorem compare_alike {α β : Type} [LinearOrder α] [LinearOrder β] {x y : α} {a b : β}
    (hlt : x < y ↔ a < b) (hgt : y < x ↔ b < a) : compare x y = compare a b := by
  cases h : compare a b with
  | lt => exact compare_lt_iff_lt.mpr (hlt.mpr (compare_lt_iff_lt.mp h))
  | gt => exact compare_gt_iff_gt.mpr (hgt.mpr (compare_gt_iff_gt.mp h))
  | eq =>
      have hab := compare_eq_iff_eq.mp h
      have hle := not_lt.mp fun hxy => (hlt.mp hxy).ne hab
      have hge := not_lt.mp fun hyx => (hgt.mp hyx).ne hab.symm
      exact compare_eq_iff_eq.mpr (le_antisymm hge hle)

/-- Numbers scaled alike compare as they did. -/
theorem compare_scaled (hk : 0 < k) (x y : Int) : compare (x * k) (y * k) = compare x y :=
  compare_alike (mul_lt_mul_iff_of_pos_right hk) (mul_lt_mul_iff_of_pos_right hk)

/-- The smaller quotient is of the smaller dividend. -/
theorem lt_of_tdiv_lt (hw : 0 < w) (h : x.tdiv w < y.tdiv w) : x < y := by
  by_contra hle
  have := Int.tdiv_le_tdiv hw (not_lt.mp hle)
  omega

/-- What is left of a number scaled with what it is divided by is scaled with
them. -/
theorem tmod_scaled (hk : 0 < k) (x w : Int) : (x * k).tmod (w * k) = x.tmod w * k := by
  rw [mul_comm x, mul_comm w, Int.mul_tmod_mul_of_pos x w hk, mul_comm]

/-- Numbers compare as their quotients do, and where those are one, as their
remainders. -/
theorem compare_parts (hw : 0 < w) (x y : Int) :
    compare x y = (compare (x.tdiv w) (y.tdiv w)).then (compare (x.tmod w) (y.tmod w)) := by
  have hx := Int.mul_tdiv_add_tmod x w
  have hy := Int.mul_tdiv_add_tmod y w
  rcases lt_trichotomy (x.tdiv w) (y.tdiv w) with hlt | heq | hgt
  · rw [compare_lt_iff_lt.mpr hlt, compare_lt_iff_lt.mpr (lt_of_tdiv_lt hw hlt)]
    rfl
  · rw [compare_eq_iff_eq.mpr heq]
    rw [heq] at hx
    rcases lt_trichotomy (x.tmod w) (y.tmod w) with hlt | heq | hgt
    · rw [compare_lt_iff_lt.mpr hlt, compare_lt_iff_lt.mpr (by omega)]
      rfl
    · rw [compare_eq_iff_eq.mpr heq, compare_eq_iff_eq.mpr (by omega)]
      rfl
    · rw [compare_gt_iff_gt.mpr hgt, compare_gt_iff_gt.mpr (by omega)]
      rfl
  · rw [compare_gt_iff_gt.mpr hgt, compare_gt_iff_gt.mpr (lt_of_tdiv_lt hw hgt)]
    rfl

theorem lt_of_sign_lt (h : x.sign < y.sign) : x < y := by
  by_cases hy : 0 < y
  · rw [Int.sign_eq_one_of_pos hy] at h
    have hx : ¬ 0 < x := fun hpos => by
      rw [Int.sign_eq_one_of_pos hpos] at h
      omega
    omega
  · have hsign : ¬ 0 < y.sign := fun hpos => hy (Int.sign_pos_iff.mp hpos)
    have hx : x < 0 := Int.sign_neg_iff.mp (by omega)
    have hy : 0 ≤ y := by
      rw [Int.sign_eq_neg_one_of_neg hx] at h
      exact Int.sign_nonneg_iff.mp (by omega)
    omega

/-- Numbers of two signs compare as their signs do. -/
theorem compare_sign (h : compare x.sign y.sign ≠ .eq) : compare x y = compare x.sign y.sign := by
  rcases lt_trichotomy x.sign y.sign with hlt | heq | hgt
  · rw [compare_lt_iff_lt.mpr hlt, compare_lt_iff_lt.mpr (lt_of_sign_lt hlt)]
  · exact absurd (compare_eq_iff_eq.mpr heq) h
  · rw [compare_gt_iff_gt.mpr hgt, compare_gt_iff_gt.mpr (lt_of_sign_lt hgt)]

end

namespace Decimal

/-- The number a decimal is. -/
def exact (d : Decimal) : ℚ := d.units / 10 ^ d.scale

/-- Both numbers as counts of the larger scale's unit compare as each times the
other's unit. -/
theorem compare_common (a b : Decimal) :
    compare (a.units * 10 ^ (max a.scale b.scale - a.scale))
        (b.units * 10 ^ (max a.scale b.scale - b.scale)) =
      compare (a.units * 10 ^ b.scale) (b.units * 10 ^ a.scale) := by
  rcases le_total a.scale b.scale with h | h
  · have hsplit : (10 : Int) ^ b.scale = 10 ^ (b.scale - a.scale) * 10 ^ a.scale := by
      rw [← pow_add, Nat.sub_add_cancel h]
    rw [max_eq_right h, Nat.sub_self, pow_zero, mul_one, hsplit, ← mul_assoc,
      compare_scaled (by positivity)]
  · have hsplit : (10 : Int) ^ a.scale = 10 ^ (a.scale - b.scale) * 10 ^ b.scale := by
      rw [← pow_add, Nat.sub_add_cancel h]
    rw [max_eq_left h, Nat.sub_self, pow_zero, mul_one, hsplit, ← mul_assoc,
      compare_scaled (by positivity)]

/-- **The order is of numbers**, whether or not both fit at one scale. -/
theorem cmp_units (a b : Decimal) :
    a.cmp b = compare (a.units * 10 ^ b.scale) (b.units * 10 ^ a.scale) := by
  rw [← compare_common]
  unfold cmp
  split
  case h_1 x y s h =>
    obtain ⟨rfl, rfl⟩ := aligned_eq_some h
    rfl
  case h_2 h =>
    have hscale : max a.scale b.scale ≤ MAX_SCALE := max_le a.places b.places
    simp only [pow10_of_le a.places, pow10_of_le b.places,
      pow10_of_le (le_trans (Nat.sub_le ..) hscale), Option.bind_some,
      fraction_fits a (le_max_left ..) hscale, fraction_fits b (le_max_right ..) hscale]
    set ka : Int := 10 ^ (max a.scale b.scale - a.scale) with hka'
    set kb : Int := 10 ^ (max a.scale b.scale - b.scale) with hkb'
    have hka : 0 < ka := by positivity
    have hkb : 0 < kb := by positivity
    have hunit : (10 : Int) ^ a.scale * ka = 10 ^ b.scale * kb := by
      rw [hka', hkb', ← pow_add, ← pow_add, Nat.add_sub_cancel' (le_max_left ..),
        Nat.add_sub_cancel' (le_max_right ..)]
    have hsigna : (a.units * ka).sign = a.units.sign := by
      rw [Int.sign_mul, Int.sign_eq_one_of_pos hka, mul_one]
    have hsignb : (b.units * kb).sign = b.units.sign := by
      rw [Int.sign_mul, Int.sign_eq_one_of_pos hkb, mul_one]
    split
    case isTrue hsign =>
      rw [← hsigna, ← hsignb] at hsign ⊢
      exact (compare_sign hsign).symm
    case isFalse hsign =>
      -- one division of both by the larger scale's unit orders them
      have hparts := compare_parts (by positivity : 0 < 10 ^ a.scale * ka) (a.units * ka)
        (b.units * kb)
      rw [Int.mul_tdiv_mul_of_pos_left _ _ hka, hunit, Int.mul_tdiv_mul_of_pos_left _ _ hkb]
        at hparts
      rw [hparts]
      split
      case isTrue hwhole =>
        cases hcompare : compare (a.units.tdiv (10 ^ a.scale)) (b.units.tdiv (10 ^ b.scale)) with
        | eq => exact absurd hcompare hwhole
        | lt => rfl
        | gt => rfl
      case isFalse hwhole =>
        rw [not_not.mp hwhole, ← hunit]
        rw [tmod_scaled hka, hunit, tmod_scaled hkb]
        rfl

/-- **Decimals compare as the numbers they are.** -/
theorem cmp_exact (a b : Decimal) : a.cmp b = compare a.exact b.exact := by
  have hlt : ∀ {c d : Decimal}, c.units * 10 ^ d.scale < d.units * 10 ^ c.scale ↔
      c.exact < d.exact := by
    intro c d
    rw [exact, exact, div_lt_div_iff₀ (by positivity) (by positivity)]
    exact_mod_cast Iff.rfl
  rw [cmp_units]
  exact compare_alike hlt hlt

theorem equal_exact (a b : Decimal) : a.equal b = true ↔ a.exact = b.exact := by
  rw [equal, decide_eq_true_iff, cmp_exact, compare_eq_iff_eq]

end Decimal

end ObjectFlow
