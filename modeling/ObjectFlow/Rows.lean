import ObjectFlow.Base.Filling
import ObjectFlow.Columns

/-!
# Objects in rows

An object's row holds each attribute that is no set: its column and, of a value,
one for each field.  A stored set is held beside the row, an entry for each
element in order.  A write makes the row or updates it in place, and gives each
set afresh; a read takes the columns in the order they were written.
-/

namespace ObjectFlow

open Base

instance : Inhabited Value := ⟨.absent⟩

/-- An element of a stored set, as its table holds it. -/
structure SideRow where
  objectId : String
  ordinal : Nat
  value : Sql
deriving DecidableEq

/-- The tables of one type: a row for each object, and the elements of each
stored set. -/
structure TypeTables where
  rows : Table String (Table String Sql) := []
  sides : Table String (List SideRow) := []
deriving DecidableEq

/-- The column an attribute is stored in. -/
def column (name : String) (a : Attribute) : String :=
  match a.declared with
  | .reference _ => name ++ "_id"
  | _ => name

/-- The column a field of a value an attribute holds is stored in. -/
def fieldColumn (name field : String) : String := name ++ "__" ++ field

/-- The fields of the value an attribute holds, none for another attribute. -/
def valueFields (lib : Library) (a : Attribute) : List (String × Attribute) :=
  match a.declared with
  | .value v => ((Table.get? lib.values v).map ValueType.fields).getD []
  | _ => []

/-- An attribute's column, a value's followed by its fields'. -/
def columnsOf (lib : Library) (name : String) (a : Attribute) : List String :=
  column name a :: (valueFields lib a).map fun f => fieldColumn name f.1

/-- The attributes a row holds. -/
def FlowType.scalars (t : FlowType) : List (String × Attribute) :=
  t.attributes.filter fun (_, a) => !a.many

/-- The attributes held beside a row. -/
def FlowType.storedSets (t : FlowType) : List (String × Attribute) :=
  t.attributes.filter fun (_, a) => a.storedSet

/-- The columns of a type's attributes. -/
def rowColumns (lib : Library) (t : FlowType) : List String :=
  t.scalars.flatMap fun (n, a) => columnsOf lib n a

section Codec

variable (json : JsonText) (lib : Library)

/-! ### What is written -/

/-- What a field's column holds, null where the value has none. -/
def heldSql (v : Option Value) : Except String Sql :=
  match v with
  | some v => toSql json v
  | none => .ok .null

/-- A value's fields, each as its column holds it. -/
def fieldSqls (held : Table String Value) : List (String × Attribute) → Except String (List Sql)
  | [] => .ok []
  | f :: fields => do
      let s ← heldSql json (Table.get? held f.1)
      let rest ← fieldSqls held fields
      .ok (s :: rest)

/-- What an attribute's columns hold of a value: of a value of several fields,
whether it is held, then each field. -/
def sqlsOf (a : Attribute) (v : Value) : Except String (List Sql) :=
  match a.declared with
  | .value _ =>
      match v with
      | .record _ fields => (fieldSqls json fields (valueFields lib a)).map (.integer 1 :: ·)
      | _ => .ok (.null :: (valueFields lib a).map fun _ => .null)
  | _ => (toSql json v).map fun s => [s]

/-- The cells of an object's row, an attribute's after another's. -/
def rowCells (o : Object) : List (String × Attribute) → Except String (List (String × Sql))
  | [] => .ok []
  | (n, a) :: rest => do
      let sqls ← sqlsOf json lib a (o.attr n)
      let cells ← rowCells o rest
      .ok ((columnsOf lib n a).zip sqls ++ cells)

/-- A row with cells written to it. -/
def cellsWritten (cells : List (String × Sql)) (row : Table String Sql) : Table String Sql :=
  cells.foldl (fun row c => Table.set row c.1 c.2) row

/-- The rows with an object's made, or updated in place where it is held. -/
def placed (made : Bool) (id : String) (cells : List (String × Sql))
    (rows : Table String (Table String Sql)) : Except String (Table String (Table String Sql)) :=
  match made, Table.get? rows id with
  | true, none => .ok (Table.set rows id (cellsWritten cells []))
  | true, some _ => .error "the table holds a row of the object"
  | false, none => .ok rows
  | false, some row => .ok (Table.set rows id (cellsWritten cells row))

/-- The elements of a set, each as its table holds it; the column takes no null. -/
def itemSqls : List Value → Except String (List Sql)
  | [] => .ok []
  | v :: rest => do
      let s ← toSql json v
      if s = .null then .error "a set's column takes no null" else
      let sqls ← itemSqls rest
      .ok (s :: sqls)

/-- The elements of an object's set, numbered in order. -/
def sideRows (id : String) (sqls : List Sql) : List SideRow :=
  sqls.zipIdx.map fun (s, i) => { objectId := id, ordinal := i, value := s }

/-- The elements of a set, none where none is held. -/
def setSqls (v : Value) : Except String (List Sql) :=
  match v with
  | .set items => itemSqls json items
  | _ => .ok []

/-- The tables beside the rows with an object's sets given afresh. -/
def writeSides (o : Object) : List (String × Attribute) → Table String (List SideRow) →
    Except String (Table String (List SideRow))
  | [], sides => .ok sides
  | (n, _) :: rest, sides => do
      let others := ((Table.get? sides n).getD []).filter fun r => r.objectId ≠ o.id
      let sqls ← setSqls json (o.attr n)
      writeSides o rest (Table.set sides n (others ++ sideRows o.id sqls))

/-- **The write of an object**: `head` is what its row holds beside its
attributes, `made` whether its row is made. -/
def write (t : FlowType) (made : Bool) (head : List (String × Sql)) (o : Object)
    (tables : TypeTables) : Except String TypeTables := do
  let cells ← rowCells json lib o t.scalars
  let rows ← placed made o.id (head ++ cells) tables.rows
  let sides ← writeSides json o t.storedSets tables.sides
  .ok { rows, sides }

/-! ### What is read -/

/-- A value's fields, each of its column. -/
def readFields : List (String × Attribute) → List Sql → Table String Value →
    Except String (Table String Value)
  | [], _, fields => .ok fields
  | f :: rest, sqls, fields => do
      let v ← fromSql json lib (sqls.headD .null) f.2.declared
      readFields rest sqls.tail (Table.set fields f.1 v)

/-- An attribute's value of what its columns hold. -/
def readSqls (a : Attribute) (sqls : List Sql) : Except String Value :=
  match a.declared with
  | .value name => do
      let fields ← readFields json lib (valueFields lib a) sqls.tail []
      .ok (if sqls.headD .null = .null then .absent else .record name fields)
  | declared => fromSql json lib (sqls.headD .null) declared

/-- The attributes of a row, of its cells in order. -/
def readScalars : List (String × Attribute) → List Sql → Table String Value →
    Except String (Table String Value)
  | [], _, attrs => .ok attrs
  | (n, a) :: rest, sqls, attrs => do
      let count := (columnsOf lib n a).length
      let v ← readSqls json lib a (sqls.take count)
      readScalars rest (sqls.drop count) (if v.isAbsent then attrs else Table.set attrs n v)

/-- The elements of a set, each of its column. -/
def readItems (declared : Declared) : List Sql → Except String (List Value)
  | [] => .ok []
  | s :: rest => do
      let v ← fromSql json lib s declared
      let items ← readItems declared rest
      .ok (v :: items)

/-- An object's elements of a table beside its row, in order. -/
def ofObject (id : String) (rows : List SideRow) : List Sql :=
  ((rows.filter fun r => r.objectId = id).mergeSort fun r r' => r.ordinal ≤ r'.ordinal).map
    SideRow.value

/-- The sets of an object, each read into the empty one it starts as. -/
def readSets (id : String) (sides : Table String (List SideRow)) : List (String × Attribute) →
    Table String Value → Except String (Table String Value)
  | [], attrs => .ok attrs
  | (n, a) :: rest, attrs => do
      let items ← readItems json lib a.declared (ofObject id ((Table.get? sides n).getD []))
      readSets id sides rest (Table.set attrs n (.set items))

/-- **The read of an object's attributes**, none where no row of it is held. -/
def readRow (t : FlowType) (id : String) (tables : TypeTables) :
    Except String (Option (Table String Value)) :=
  match Table.get? tables.rows id with
  | none => .ok none
  | some row => do
      let sqls := (rowColumns lib t).map fun c => (Table.get? row c).getD .null
      let attrs ← readScalars json lib t.scalars sqls []
      let attrs ← readSets json lib id tables.sides t.storedSets attrs
      .ok (some attrs)

variable {json lib}

/-! ### Fields -/

/-- The values a value is held as: a set's elements, a value's fields. -/
def Value.pieces : Value → List Value
  | .set items => items
  | .record _ fields => fields.map Prod.snd
  | v => [v]

/-- The elements of another object are left as they were. -/
theorem ofObject_sideRows_other {id other : String} (h : other ≠ id) (rows : List SideRow)
    (sqls : List Sql) : ofObject other (rows.filter (fun r => r.objectId ≠ id) ++ sideRows id sqls) =
      ofObject other rows := by
  have hnone : (sideRows id sqls).filter (fun r => r.objectId = other) = [] := by
    apply List.filter_eq_nil_iff.mpr
    intro r hr
    obtain ⟨_, _, rfl⟩ := List.mem_map.mp hr
    simpa using Ne.symm h
  have hrows : (rows.filter fun r => r.objectId ≠ id).filter (fun r => r.objectId = other) =
      rows.filter fun r => r.objectId = other := by
    rw [List.filter_filter]
    apply List.filter_congr
    intro r hr
    by_cases hother : r.objectId = other
    · simp [hother, h]
    · simp [hother]
  rw [ofObject, ofObject, List.filter_append, hnone, hrows, List.append_nil]

/-! ### Rows -/

end Codec

end ObjectFlow
