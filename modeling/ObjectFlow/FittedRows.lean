import Mathlib
import ObjectFlow.Fit
import ObjectFlow.Rows

/-!
# Fitted values in rows

A value as its attribute's declared type holds it is one the type's tables hold,
but for a set that is absent: a set is read back as one that is empty.
-/

namespace ObjectFlow

open Base

/-- Whether a value is one decoding or evaluating makes: a file of a reference the
wire takes, a member of one of the library's enumerations. -/
def Value.made (lib : Library) : Value → Bool
  | .file hash size mediaType => fileCrosses hash size mediaType
  | .member enumeration _ => (Table.get? lib.enumerations enumeration).isSome
  | _ => true

/-- The elements of another object are left as they were by a write. -/
theorem writeSides_other {json : JsonText} {o : Object} {other : String} (hother : other ≠ o.id)
    {ls : List (String × Attribute)} {sides sides' : Table String (List SideRow)}
    (h : writeSides json o ls sides = .ok sides') (n : String) :
    ofObject other ((Table.get? sides' n).getD []) = ofObject other ((Table.get? sides n).getD []) := by
  induction ls generalizing sides with
  | nil =>
    cases h
    rfl
  | cons f rest ih =>
    obtain ⟨m, a⟩ := f
    obtain ⟨sqls, -, h⟩ := ok_of_bind h
    rw [ih h]
    by_cases hm : m = n
    · subst hm
      rw [Table.get?_set_self, Option.getD_some, ofObject_sideRows_other hother]
    · rw [Table.get?_set_of_ne _ _ hm]

/-- **A write leaves every other object as it was read.** -/
theorem readRow_write_other {json : JsonText} {lib : Library} {t : FlowType} {made : Bool}
    {head : List (String × Sql)} {o : Object} {tables tables' : TypeTables}
    (h : write json lib t made head o tables = .ok tables') {other : String} (hother : other ≠ o.id) :
    readRow json lib t other tables' = readRow json lib t other tables := by
  obtain ⟨cells, -, h⟩ := ok_of_bind h
  obtain ⟨rows, hrows, h⟩ := ok_of_bind h
  obtain ⟨sides, hsides, h⟩ := ok_of_bind h
  cases h
  have hrow : Table.get? rows other = Table.get? tables.rows other := by
    unfold placed at hrows
    split at hrows
    all_goals cases hrows
    · rw [Table.get?_set_of_ne _ _ (Ne.symm hother)]
    · rfl
    · rw [Table.get?_set_of_ne _ _ (Ne.symm hother)]
  have hsets : ∀ (ls : List (String × Attribute)) (attrs : Table String Value),
      readSets json lib other sides ls attrs = readSets json lib other tables.sides ls attrs := by
    intro ls
    induction ls with
    | nil => exact fun _ => rfl
    | cons f rest ih =>
      intro attrs
      obtain ⟨n, a⟩ := f
      simp only [readSets, writeSides_other hother hsides n, ih]
  simp only [readRow, hrow, hsets]

section Example

end Example

end ObjectFlow
