import Mathlib.Algebra.Order.Field.Basic
import Mathlib.Algebra.Order.Field.Rat
import Mathlib.Algebra.Order.Ring.Rat
import Mathlib.Algebra.Ring.Int.Parity
import Mathlib.Tactic.FieldSimp
import Mathlib.Tactic.Linarith
import Mathlib.Tactic.Ring

/-!
# Rounding half to even

A number rounds to the integer nearest it, and one halfway between two to the
even one.  There is exactly one such integer, so any way of finding one finds
it: from a quotient rounded down and what is left, or from one cut toward zero.
-/

namespace Base

/-- An integer is a number rounded half to even. -/
structure HalfEven (q : ℚ) (n : ℤ) : Prop where
  near : 2 * |q - n| ≤ 1
  even : 2 * |q - n| = 1 → Even n

variable {q : ℚ} {a b n m : ℤ}

/-- A quotient rounded half to even, by what is left of its dividend. -/
theorem halfEven_div (hb : b ≠ 0) :
    HalfEven ((a : ℚ) / b) n ↔ 2 * |a - n * b| ≤ |b| ∧ (2 * |a - n * b| = |b| → Even n) := by
  have hpos : (0 : ℚ) < |(b : ℚ)| := abs_pos.mpr (Int.cast_ne_zero.mpr hb)
  have hleft : |(a : ℚ) / b - n| = ((|a - n * b| : ℤ) : ℚ) / |(b : ℚ)| := by
    have hquotient : (a : ℚ) / b - n = ((a - n * b : ℤ) : ℚ) / b := by
      have hb' : (b : ℚ) ≠ 0 := Int.cast_ne_zero.mpr hb
      push_cast
      field_simp
    rw [hquotient, abs_div, Int.cast_abs]
  have hscaled : 2 * |(a : ℚ) / b - n| = ((2 * |a - n * b| : ℤ) : ℚ) / ((|b| : ℤ) : ℚ) := by
    rw [hleft, Int.cast_abs (a := b)]
    push_cast
    ring
  have hpos' : (0 : ℚ) < ((|b| : ℤ) : ℚ) := by rw [Int.cast_abs]; exact hpos
  constructor
  · intro ⟨hnear, heven⟩
    rw [hscaled] at hnear heven
    rw [div_le_one hpos'] at hnear
    refine ⟨by exact_mod_cast hnear, fun heq => heven ?_⟩
    rw [heq, div_self hpos'.ne']
  · intro ⟨hnear, heven⟩
    refine ⟨?_, fun heq => heven ?_⟩
    · rw [hscaled, div_le_one hpos']
      exact_mod_cast hnear
    · rw [hscaled, div_eq_one_iff_eq hpos'.ne'] at heq
      exact_mod_cast heq

/-- **A number rounds to one integer.** -/
theorem HalfEven.unique (hn : HalfEven q n) (hm : HalfEven q m) : n = m := by
  -- integers both within a half are one, or neighbours with the number between
  have hdist : |(n : ℚ) - m| ≤ |q - n| + |q - m| := by
    have h := abs_sub_le (n : ℚ) q m
    rwa [abs_sub_comm (n : ℚ) q] at h
  have hclose : |(n : ℚ) - m| ≤ 1 := by linarith [hn.near, hm.near]
  have hint : |n - m| ≤ 1 := by exact_mod_cast hclose
  by_contra hne
  have hone : |n - m| = 1 := le_antisymm hint (Int.one_le_abs (sub_ne_zero.mpr hne))
  have hone' : |(n : ℚ) - m| = 1 := by exact_mod_cast hone
  have hhalf : 2 * |q - n| = 1 := by linarith [hn.near, hm.near]
  have hhalf' : 2 * |q - m| = 1 := by linarith [hn.near, hm.near]
  obtain ⟨i, hi⟩ := hn.even hhalf
  obtain ⟨j, hj⟩ := hm.even hhalf'
  rw [hi, hj] at hone
  rcases (abs_eq one_pos.le).mp hone with h | h <;> omega

/-- A quotient rounded down, and up where more than half is left or half of an odd
one. -/
theorem halfEven_ediv (hb : 0 < b) :
    HalfEven ((a : ℚ) / b)
      (if b < 2 * (a % b) ∨ 2 * (a % b) = b ∧ (a / b) % 2 = 1 then a / b + 1 else a / b) := by
  have hrest := Int.emod_nonneg a hb.ne'
  have hlt := Int.emod_lt_of_pos a hb
  have hsum := Int.emod_add_mul_ediv a b
  have hleft : a - a / b * b = a % b := by linarith
  have hleft' : a - (a / b + 1) * b = a % b - b := by linarith
  rw [halfEven_div hb.ne', abs_of_pos hb]
  split
  case isTrue hup =>
    rw [hleft', abs_of_neg (by omega)]
    refine ⟨by omega, fun hhalf => ?_⟩
    rw [Int.even_iff]
    omega
  case isFalse hdown =>
    rw [hleft, abs_of_nonneg hrest]
    refine ⟨by omega, fun hhalf => ?_⟩
    rw [Int.even_iff]
    omega

/-- A quotient cut toward zero, and away from it where more than half is left or
half of an odd one. -/
theorem halfEven_tdiv (hb : b ≠ 0) :
    HalfEven ((a : ℚ) / b)
      (if b.natAbs < 2 * (a.tmod b).natAbs ∨
          2 * (a.tmod b).natAbs = b.natAbs ∧ (a.tdiv b).tmod 2 ≠ 0 then
        if (a < 0) ≠ (b < 0) then a.tdiv b - 1 else a.tdiv b + 1
      else a.tdiv b) := by
  have hsum := Int.mul_tdiv_add_tmod a b
  have hlt : (a.tmod b).natAbs < b.natAbs := by
    have h := Int.natAbs_tmod a b
    rw [h]
    exact Nat.mod_lt _ (Int.natAbs_pos.mpr hb)
  have hsign : (0 ≤ a → 0 ≤ a.tmod b) ∧ (a < 0 → a.tmod b ≤ 0) :=
    ⟨fun h => Int.tmod_nonneg b h, fun h => by
      have hneg := Int.tmod_nonneg b (Int.neg_nonneg_of_nonpos h.le)
      rw [Int.neg_tmod] at hneg
      omega⟩
  have hparity : (a.tdiv b).tmod 2 ≠ 0 ↔ ¬ Even (a.tdiv b) := by
    rw [even_iff_two_dvd, Int.dvd_iff_tmod_eq_zero]
  have hleft : a - a.tdiv b * b = a.tmod b := by linarith
  have hdown : a - (a.tdiv b - 1) * b = a.tmod b + b := by linarith
  have hup : a - (a.tdiv b + 1) * b = a.tmod b - b := by linarith
  rw [halfEven_div hb, Int.abs_eq_natAbs, Int.abs_eq_natAbs]
  generalize a.tmod b = r at *
  generalize a.tdiv b = q at *
  split
  case isTrue haway =>
    split
    case isTrue hopposite =>
      have hsigns : (a < 0 ∧ 0 < b) ∨ (0 ≤ a ∧ b < 0) := by
        by_cases ha : a < 0
        · exact .inl ⟨ha, lt_of_le_of_ne (not_lt.mp fun hneg => hopposite (by simp [ha, hneg])) hb.symm⟩
        · refine .inr ⟨not_lt.mp ha, not_le.mp fun hpos => hopposite ?_⟩
          simp [ha, not_lt.mpr hpos]
      have hrest : (r + b).natAbs + r.natAbs = b.natAbs := by
        rcases hsigns with ⟨ha, hpos⟩ | ⟨ha, hneg⟩
        · have hr := hsign.2 ha
          omega
        · have hr := hsign.1 ha
          omega
      rw [hdown]
      refine ⟨by omega, fun hhalf => ?_⟩
      rw [Int.even_sub_one]
      exact hparity.mp (haway.resolve_left (by omega)).2
    case isFalse hsame =>
      have hsigns : (a < 0 ∧ b < 0) ∨ (0 ≤ a ∧ 0 < b) := by
        have hiff : a < 0 ↔ b < 0 := (not_ne_iff.mp hsame).to_iff
        by_cases ha : a < 0
        · exact .inl ⟨ha, hiff.mp ha⟩
        · exact .inr ⟨not_lt.mp ha, lt_of_le_of_ne (not_lt.mp fun hneg => ha (hiff.mpr hneg)) hb.symm⟩
      have hrest : (r - b).natAbs + r.natAbs = b.natAbs := by
        rcases hsigns with ⟨ha, hneg⟩ | ⟨ha, hpos⟩
        · have hr := hsign.2 ha
          omega
        · have hr := hsign.1 ha
          omega
      rw [hup]
      refine ⟨by omega, fun hhalf => ?_⟩
      rw [Int.even_add_one]
      exact hparity.mp (haway.resolve_left (by omega)).2
  case isFalse hkeep =>
    rw [hleft]
    refine ⟨by omega, fun hhalf => ?_⟩
    by_contra hodd
    exact hkeep (.inr ⟨by omega, hparity.mpr hodd⟩)

/-- A whole number found at a finer unit is the rounding at the coarser too. -/
theorem HalfEven.coarser {u f : ℚ} (hf : 1 ≤ f) (h : HalfEven (u * f) m) (hm : (m : ℚ) = n * f) :
    HalfEven u n := by
  have hpos : 0 < f := by linarith
  have hdist : |u * f - m| = |u - n| * f := by
    rw [hm, ← sub_mul, abs_mul, abs_of_pos hpos]
  have hnear := h.near
  rw [hdist] at hnear
  have hle : |u - n| ≤ |u - n| * f := le_mul_of_one_le_right (abs_nonneg _) hf
  refine ⟨by linarith, fun htie => ?_⟩
  -- a tie leaves no room for a finer unit
  have hone : f = 1 := by nlinarith
  have hmn : m = n := by
    rw [hone, mul_one] at hm
    exact_mod_cast hm
  refine hmn ▸ h.even ?_
  rw [hdist, hone, mul_one]
  exact htie

/-- An integer rounds to itself. -/
theorem halfEven_int (n : ℤ) : HalfEven (n : ℚ) n where
  near := by simp
  even h := by simp at h

end Base
