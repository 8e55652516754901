import ObjectFlow.Rereading

/-!
# Values in columns

A scalar is held in a column of its own, a value of several fields in a column
that says whether it is held and one for each field, a set in a table beside
its type's.  What a column holds is read back as a value of its declared type.
-/

namespace ObjectFlow

open Base

/-- What a column holds. -/
inductive Sql where
  | null
  | integer (n : Int)
  | text (s : String)
deriving DecidableEq

/-- How the store's JSON columns are written and read. -/
structure JsonText where
  write : Json → String
  read : String → Option Json

section Codec

variable (json : JsonText) (lib : Library)

/-- A value as its column holds it: a decimal scaled to an integer, an amount in
minor units, a time and a date as text. -/
def toSql : Value → Except String Sql
  | .absent => .ok .null
  | .bool b => .ok (.integer (if b then 1 else 0))
  | .int n | .duration n => .ok (.integer n)
  | .decimal d | .money _ d =>
      if (fits64 d.units).isSome then .ok (.integer d.units) else .error "a decimal past 64 bits"
  | .timestamp t => .ok (.text (timestampText t))
  | .date d => .ok (.text (dateText d))
  | .text s | .object s => .ok (.text s)
  | .state _ name => .ok (.text name)
  | .member _ member => .ok (.text member)
  -- a file as its wire form
  | .file hash size mediaType => .ok (.text (json.write (Value.file hash size mediaType).encode))
  | .set _ => .error "a set in a column"
  | .row _ => .error "a row of flow data in a column"
  | .record _ _ => .error "a value of several fields in one column"

/-- What a column of another kind of value than its type's answers. -/
def badColumn : Except String Value := .error "a column holds no value of its declared type"

def orBad (v : Option Value) : Except String Value :=
  match v with
  | some v => .ok v
  | none => badColumn

/-- A named type's column read back. -/
def namedFromSql (type : String) (v : Sql) : Except String Value :=
  if (Table.get? lib.enumerations type).isSome then
    match v with
    | .text s => .ok (.member type s)
    | _ => badColumn
  else
    match v with
    | .null => .ok .absent
    | .integer n =>
        if type = "bool" then .ok (.bool (n ≠ 0))
        else if type ∈ ["int", "counter", "event"] then .ok (.int n)
        else if type = "duration" then .ok (.duration n)
        else badColumn
    | .text s =>
        if type = "timestamp" then orBad ((parseTimestamp s).map .timestamp)
        else if type = "date" then orBad ((parseDate s).map .date)
        else if type = "file" then
          orBad ((json.read s).bind fun j => match fileOf j with
            | .ok v => some v
            | .error _ => none)
        else .ok (.text s)

/-- A column's content read back as a value of its declared type. -/
def fromSql (v : Sql) (declared : Declared) : Except String Value :=
  match v, declared with
  | .null, _ => .ok .absent
  | .text s, .reference _ => .ok (.object s)
  | _, .reference _ => badColumn
  -- a value is read from a column for each field
  | _, .value _ => badColumn
  | v, .scalar (.named type) => namedFromSql json lib type v
  | .integer n, .scalar (.decimal _ scale) => orBad ((Decimal.new n scale).map .decimal)
  | .integer n, .scalar (.money currency) =>
      orBad ((minorUnit currency).bind fun minor => (Decimal.new n minor).map (.money currency))
  | .text s, .scalar _ => .ok (.text s)

/-! ### What a column holds -/

/-- Whether a file's reference is one the wire takes. -/
def fileCrosses (hash : String) (size : Int) (mediaType : String) : Bool :=
  isFileHash hash && 0 ≤ size && size ≤ SAFE_INT && isMediaType mediaType &&
    asciiLower mediaType = mediaType

variable {json lib}

end Codec

end ObjectFlow
