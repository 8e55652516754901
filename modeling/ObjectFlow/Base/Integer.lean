import Mathlib.Algebra.Order.Ring.Int

/-!
# Machine integers

Signed integers are carried as unbounded ones, and the operations that can
leave their width say so: a checked operation answers none past the width, a
saturating one the nearest bound.
-/

namespace Base

/-- The largest signed 64-bit integer. -/
def i64Max : Int := 9223372036854775807

/-- The smallest signed 64-bit integer. -/
def i64Min : Int := -9223372036854775808

/-- The largest signed 128-bit integer. -/
def i128Max : Int := 170141183460469231731687303715884105727

/-- The smallest signed 128-bit integer. -/
def i128Min : Int := -170141183460469231731687303715884105728

/-- An integer where it fits in 64 bits. -/
def fits64 (n : Int) : Option Int :=
  if i64Min ≤ n ∧ n ≤ i64Max then some n else none

/-- An integer where it fits in 128 bits. -/
def fits128 (n : Int) : Option Int :=
  if i128Min ≤ n ∧ n ≤ i128Max then some n else none

/-- An integer brought inside 64 bits. -/
def saturate64 (n : Int) : Int := max i64Min (min n i64Max)

theorem fits64_eq_some {n m : Int} :
    fits64 n = some m ↔ n = m ∧ i64Min ≤ n ∧ n ≤ i64Max := by
  unfold fits64
  split
  case isTrue h => simp [h]
  case isFalse h => simp [h]

theorem fits128_eq_some {n m : Int} :
    fits128 n = some m ↔ n = m ∧ i128Min ≤ n ∧ n ≤ i128Max := by
  unfold fits128
  split
  case isTrue h => simp [h]
  case isFalse h => simp [h]

/-- What goes on from an integer that fits. -/
theorem fits128_bind {α : Type*} {n : Int} {f : Int → Option α} {a : α}
    (h : (fits128 n).bind f = some a) : (i128Min ≤ n ∧ n ≤ i128Max) ∧ f n = some a := by
  obtain ⟨m, hm, h⟩ := Option.bind_eq_some_iff.mp h
  obtain ⟨rfl, hfits⟩ := fits128_eq_some.mp hm
  exact ⟨hfits, h⟩

theorem saturate64_of_fits {n : Int} (low : i64Min ≤ n) (high : n ≤ i64Max) :
    saturate64 n = n := by
  unfold saturate64
  omega

end Base
