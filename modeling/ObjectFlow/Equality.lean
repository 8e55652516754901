import ObjectFlow.Exact
import ObjectFlow.World

/-!
# Equality as `==` reads it

Numbers are equal by value, sets by their elements, and anything else field by
field.  It is an equivalence, and it is what comparing two values answers where
they compare.  The key an index holds a value by is finer: an integer has one
and the decimal of its number has none.
-/

namespace ObjectFlow

open Base

namespace Value

/-! ### The equation of each kind -/

/-- Whether a value is a set. -/
def isSet : Value → Bool
  | set _ => true
  | _ => false

theorem someEquals_iff {items : List Value} {y : Value} :
    someEquals items y = true ↔ ∃ x ∈ items, x.equals y = true := by
  induction items with
  | nil => simp [someEquals]
  | cons x rest ih => simp [someEquals, ih]

theorem eachEquals_iff {items other : List Value} :
    eachEquals items other = true ↔ ∀ x ∈ items, ∃ y ∈ other, x.equals y = true := by
  induction items with
  | nil => simp [eachEquals]
  | cons x rest ih => simp [eachEquals, ih]

/-- Sets are equal where each element of either equals one of the other. -/
theorem equals_sets {items other : List Value} :
    (set items).equals (set other) = true ↔
      (∀ x ∈ items, ∃ y ∈ other, x.equals y = true) ∧
        ∀ y ∈ other, ∃ x ∈ items, x.equals y = true := by
  simp only [equals, Bool.and_eq_true, eachEquals_iff, List.all_eq_true, someEquals_iff]

/-- Numbers of one value are numbers both, or neither is one. -/
theorem same_number {a b : Value} (h : a.same b = true) :
    (a.number = none ∧ b.number = none) ∨
      ∃ x y, a.number = some x ∧ b.number = some y ∧ x.equal y = true := by
  cases a <;> cases b <;> simp only [same, Bool.false_eq_true] at h <;>
    first
    | exact .inl ⟨rfl, rfl⟩
    | exact .inr ⟨_, _, rfl, rfl, h⟩
    | skip
  case int.int n m =>
    obtain rfl := of_decide_eq_true h
    cases hn : (int n).number with
    | none => exact .inl ⟨rfl, rfl⟩
    | some x => exact .inr ⟨x, x, rfl, rfl, Decimal.equal_self x⟩

/-- What is not two sets is equal as two numbers, or where neither is one, field
by field. -/
theorem equals_plain {a b : Value} (h : (a.isSet && b.isSet) = false) :
    a.equals b = true ↔
      (∃ x y, a.number = some x ∧ b.number = some y ∧ x.equal y = true) ∨
        a.number = none ∧ b.number = none ∧ a.same b = true := by
  unfold equals
  split
  case h_1 => cases h
  case h_2 =>
    split
    case h_1 x y ha hb => simp [ha, hb]
    case h_2 hnot =>
      constructor
      · intro hsame
        rcases same_number hsame with ⟨ha, hb⟩ | ⟨x, y, ha, hb, -⟩
        · exact .inr ⟨ha, hb, hsame⟩
        · exact absurd hb (hnot x y ha)
      · intro heither
        rcases heither with ⟨x, y, ha, hb, -⟩ | ⟨-, -, hsame⟩
        · exact absurd hb (hnot x y ha)
        · exact hsame

theorem isSet_of_number {v : Value} {x : Decimal} (h : v.number = some x) : v.isSet = false := by
  cases v <;> first | rfl | cases h

theorem isSet_of_same {a b : Value} (h : a.same b = true) : a.isSet = b.isSet := by
  cases a <;> cases b <;> first | rfl | cases h

/-- A set is equal to sets alone. -/
theorem isSet_of_equals {a b : Value} (h : a.equals b = true) : a.isSet = b.isSet := by
  by_cases hsets : (a.isSet && b.isSet) = true
  · rw [Bool.and_eq_true] at hsets
    rw [hsets.1, hsets.2]
  · rw [equals_plain (Bool.eq_false_iff.mpr hsets)] at h
    rcases h with ⟨x, y, ha, hb, -⟩ | ⟨-, -, hsame⟩
    · rw [isSet_of_number ha, isSet_of_number hb]
    · exact isSet_of_same hsame

/-! ### An equivalence -/

theorem set_of_isSet {v : Value} (h : v.isSet = true) : ∃ items, v = set items := by
  cases v <;> first | exact ⟨_, rfl⟩ | cases h

theorem sizeOf_member {v : Value} {items : List Value} (h : v ∈ items) :
    sizeOf v < sizeOf (set items) := by
  have := List.sizeOf_lt_of_mem h
  simp only [set.sizeOf_spec]
  omega

theorem equals_self (v : Value) : v.equals v = true := by
  by_cases hset : v.isSet = true
  · obtain ⟨items, rfl⟩ := set_of_isSet hset
    have hmember : ∀ x ∈ items, x.equals x = true := fun x hx => equals_self x
    exact equals_sets.mpr
      ⟨fun x hx => ⟨x, hx, hmember x hx⟩, fun x hx => ⟨x, hx, hmember x hx⟩⟩
  · rw [equals_plain (by simp [hset])]
    cases hnumber : v.number with
    | none => exact .inr ⟨rfl, rfl, same_self v⟩
    | some x => exact .inl ⟨x, x, rfl, rfl, Decimal.equal_self x⟩
termination_by sizeOf v
decreasing_by
  subst_vars
  exact sizeOf_member hx

theorem equals_symm {a b : Value} (h : a.equals b = true) : b.equals a = true := by
  by_cases hset : a.isSet = true
  · obtain ⟨items, rfl⟩ := set_of_isSet hset
    obtain ⟨other, rfl⟩ := set_of_isSet ((isSet_of_equals h).symm.trans hset)
    obtain ⟨hfrom, hto⟩ := equals_sets.mp h
    refine equals_sets.mpr ⟨fun y hy => ?_, fun x hx => ?_⟩
    · obtain ⟨x, hx, hxy⟩ := hto y hy
      exact ⟨x, hx, equals_symm hxy⟩
    · obtain ⟨y, hy, hxy⟩ := hfrom x hx
      exact ⟨y, hy, equals_symm hxy⟩
  · rw [equals_plain (by simp [hset])] at h
    rw [equals_plain (by simp [hset])]
    rcases h with ⟨x, y, ha, hb, hxy⟩ | ⟨ha, hb, hsame⟩
    · exact .inl ⟨y, x, hb, ha, Decimal.equal_symm hxy⟩
    · exact .inr ⟨hb, ha, same_symm hsame⟩
termination_by sizeOf a
decreasing_by
  all_goals
    subst_vars
    exact sizeOf_member hx

theorem equals_trans {a b c : Value} (hab : a.equals b = true) (hbc : b.equals c = true) :
    a.equals c = true := by
  by_cases hset : a.isSet = true
  · obtain ⟨xs, rfl⟩ := set_of_isSet hset
    obtain ⟨ys, rfl⟩ := set_of_isSet ((isSet_of_equals hab).symm.trans hset)
    obtain ⟨zs, rfl⟩ := set_of_isSet ((isSet_of_equals hbc).symm.trans rfl)
    obtain ⟨hxy, hyx⟩ := equals_sets.mp hab
    obtain ⟨hyz, hzy⟩ := equals_sets.mp hbc
    refine equals_sets.mpr ⟨fun x hx => ?_, fun z hz => ?_⟩
    · obtain ⟨y, hy, hone⟩ := hxy x hx
      obtain ⟨z, hz, htwo⟩ := hyz y hy
      exact ⟨z, hz, equals_trans hone htwo⟩
    · obtain ⟨y, hy, htwo⟩ := hzy z hz
      obtain ⟨x, hx, hone⟩ := hyx y hy
      exact ⟨x, hx, equals_trans hone htwo⟩
  · have hother : ¬ b.isSet = true := by
      rw [← isSet_of_equals hab]
      exact hset
    rw [equals_plain (by simp [hset])] at hab ⊢
    rw [equals_plain (by simp [hother])] at hbc
    rcases hab with ⟨x, y, ha, hb, hxy⟩ | ⟨ha, hb, hsame⟩
    · rcases hbc with ⟨y', z, hb', hc, hyz⟩ | ⟨hb', -, -⟩
      · rw [hb] at hb'
        cases hb'
        exact .inl ⟨x, z, ha, hc, Decimal.equal_trans hxy hyz⟩
      · rw [hb] at hb'
        cases hb'
    · rcases hbc with ⟨y, z, hb', -, -⟩ | ⟨-, hc, hsame'⟩
      · rw [hb] at hb'
        cases hb'
      · exact .inr ⟨ha, hc, same_trans hsame hsame'⟩
termination_by sizeOf a
decreasing_by
  all_goals
    subst_vars
    exact sizeOf_member hx

/-! ### Comparing, and the key of an index -/

/-- **Equality is what comparing answers**, wherever two values compare. -/
theorem compare?_equals {a b : Value} {o : Ordering} (h : a.compare? b = some o) :
    o = .eq ↔ a.equals b = true := by
  unfold compare? at h
  split at h
  case h_1 c x d y =>
    split at h
    · cases h
      subst_vars
      simp [equals, number, same, Decimal.equal]
    · cases h
  case h_2 | h_3 | h_4 | h_5 | h_6 =>
    cases h
    simp [equals, number, same]
  case h_7 =>
    split at h
    case h_1 x y ha hb =>
      cases h
      rw [equals_plain (by simp [isSet_of_number ha])]
      simp [ha, hb, Decimal.equal]
    case h_2 => cases h

/-- Whether one of two values is an integer and the other the decimal of its
number. -/
def crossed : Value → Value → Bool
  | int n, decimal d | decimal d, int n => (Decimal.fromInt n).any (d.equal ·)
  | _, _ => false

/-- **Equal values have one key**, but an integer and the decimal of its number. -/
theorem key_of_equals {a b : Value} (h : a.equals b = true) :
    a.indexKey = b.indexKey ↔ a.crossed b = false := by
  by_cases hset : a.isSet = true
  · obtain ⟨xs, rfl⟩ := set_of_isSet hset
    obtain ⟨ys, rfl⟩ := set_of_isSet ((isSet_of_equals h).symm.trans hset)
    simp [indexKey, crossed]
  · rw [equals_plain (by simp [hset])] at h
    rcases h with ⟨x, y, ha, hb, hxy⟩ | ⟨ha, hb, hsame⟩
    · cases a <;> cases b <;> simp only [number, reduceCtorEq] at ha hb
      case int.int n m =>
        obtain ⟨hn, hnscale⟩ := Decimal.new_eq_some.mp ha
        obtain ⟨hm, hmscale⟩ := Decimal.new_eq_some.mp hb
        have hunits := (Decimal.equal_iff x y).mp hxy
        rw [hn, hm, hnscale, hmscale, pow_zero, mul_one, mul_one] at hunits
        simp [hunits, crossed]
      case int.decimal n d =>
        cases hb
        simp [indexKey, crossed, ha, Decimal.equal_symm hxy]
      case decimal.int d n =>
        cases ha
        simp [indexKey, crossed, hb, hxy]
      case decimal.decimal => simp [indexKey, crossed]
    · cases a <;> cases b <;>
        simp only [same, Bool.false_eq_true, Bool.and_eq_true, decide_eq_true_eq] at hsame <;>
        simp_all [indexKey, crossed, number]

theorem equals_of_crossed {a b : Value} (h : a.crossed b = true) : a.equals b = true := by
  unfold crossed at h
  split at h
  case h_1 n d =>
    obtain ⟨x, hx, heq⟩ := (Option.any_eq_true _ _).mp h
    exact (equals_plain rfl).mpr (.inl ⟨x, d, hx, rfl, Decimal.equal_symm heq⟩)
  case h_2 d n =>
    obtain ⟨x, hx, heq⟩ := (Option.any_eq_true _ _).mp h
    exact (equals_plain rfl).mpr (.inl ⟨d, x, rfl, hx, heq⟩)
  case h_3 => cases h

/-- **Equality is an equivalence, agrees with comparing, and gives one key**, but
to an integer and the decimal of its number. -/
theorem equality_keyed (a b c : Value) :
    a.equals a = true ∧
      (a.equals b = true → b.equals a = true) ∧
      (a.equals b = true → b.equals c = true → a.equals c = true) ∧
      (∀ o : Ordering, a.compare? b = some o → (o = .eq ↔ a.equals b = true)) ∧
      ((a.equals b = true → a.indexKey = b.indexKey) ↔ a.crossed b = false) := by
  refine ⟨equals_self a, equals_symm, equals_trans, fun _ => compare?_equals, fun hkeys => ?_,
    fun huncrossed h => ?_⟩
  · by_contra hcrossed
    have h := equals_of_crossed (eq_true_of_ne_false hcrossed)
    exact hcrossed ((key_of_equals h).mp (hkeys h))
  · exact (key_of_equals h).mpr huncrossed

end Value

theorem hundred_bounded : i128Min ≤ 100 ∧ 100 ≤ i128Max := by decide

/-- 1.00. -/
def onePrice : Decimal where
  units := 100
  scale := 2
  bounded := hundred_bounded
  places := Decimal.two_places

/-- A store of one item, priced 1.00. -/
def pricedItem : World where
  lib := { types := [("Item",
    { name := "Item", attributes := [("price", { declared := .scalar (.decimal 6 2) })] })] }
  objects := [("item-1", { id := "item-1", type := "Item", state := "OPEN"
                           attrs := [("price", .decimal onePrice)] })]

/-- 1.00 equals the integer 1 and has another key, so a lookup of the items whose
price equals 1 does not find the one priced 1.00. -/
theorem one_keyed_apart :
    (¬ ∀ a b : Value, a.equals b = true → a.indexKey = b.indexKey) ∧
      (∃ o ∈ pricedItem.ofType "Item", (o.attr "price").equals (.int 1) = true) ∧
        pricedItem.withKey "Item" [("price", .int 1)] = [] := by
  refine ⟨fun hkeys => ?_, ⟨_, List.mem_singleton.mpr rfl, by decide⟩, by rfl⟩
  have hone : (Value.int 1).equals (.decimal onePrice) = true := by decide
  have hkey := hkeys _ _ hone
  cases hkey

end ObjectFlow
