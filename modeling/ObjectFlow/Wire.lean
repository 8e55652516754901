import ObjectFlow.Importing
import ObjectFlow.NumberText

/-!
# Values on the wire

A value is written as JSON and read back against its declared type: absence as
null, a small integer as a number, a set as an array, a value of several fields
and a file as an object, every other kind as a string in its own notation.
-/

namespace ObjectFlow

open Base

/-- The largest integer every reader of a JSON number keeps exact. -/
def SAFE_INT : Int := 9007199254740991

/-- The integer a JSON number is held as: none for a fraction, an exponent, a
negative zero, or one past 64 bits, which is held as a double. -/
def wholeNumber (text : String) : Option Int :=
  match text.toList with
  | '-' :: digits => (Decimal.digits digits).bind fun n =>
      if 0 < n ∧ n ≤ 9223372036854775808 then some (-n) else none
  | digits => (Decimal.digits digits).bind fun n =>
      if n ≤ 18446744073709551615 then some n else none

/-- A text without what it begins with, where it begins so. -/
def stripBeginning (beginning text : String) : Option String :=
  if beginning.toList.isPrefixOf text.toList then
    some (String.ofList (text.toList.drop beginning.length))
  else none

/-- A declared type's text without the brackets of a set. -/
def scalarName (text : String) : String :=
  let rec strip : Nat → List Char → List Char
    | 0, l => l
    | n + 1, l =>
        match l with
        | ']' :: '[' :: rest => strip n rest
        | l => l
  String.ofList (strip text.length text.toList.reverse).reverse

section Decode

variable (lib : Library)

/-- Whether a text is a file's hash, `sha256:` and 64 lowercase hex digits. -/
def isFileHash (hash : String) : Bool :=
  (stripBeginning "sha256:" hash).any fun hex => hex.length = 64 &&
    hex.toList.all fun c => c.isDigit || ('a' ≤ c && c ≤ 'f')

/-- A part of a media type. -/
def isToken (t : String) : Bool :=
  !t.isEmpty && t.toList.all fun c =>
    c.isAlphanum || "!#$&^_.+-".toList.contains c

def isMediaType (mediaType : String) : Bool :=
  (splitOnce '/' mediaType).any fun parts => isToken parts.1 && isToken parts.2

/-- A text's ASCII capitals lowered. -/
def asciiLower (s : String) : String := String.ofList (s.toList.map Char.toLower)

def Json.wholeNumber? : Json → Option Int
  | .number text => (wholeNumber text).bind fits64
  | _ => none

/-- A file's reference: an object of its hash, its size and its media type. -/
def fileOf : Json → Except InputReason Value
  | .object fields =>
      if (Table.keys fields).any fun k => !(["hash", "size", "media_type"].contains k) then
        .error .malformed
      else
        let hash := ((Table.get? fields "hash").bind Json.string?).getD ""
        if !isFileHash hash then .error .malformed
        else
          match ((Table.get? fields "size").bind Json.wholeNumber?).filter
            fun n => 0 ≤ n ∧ n ≤ SAFE_INT with
          | none => .error .malformed
          | some size =>
              let mediaType := ((Table.get? fields "media_type").bind Json.string?).getD ""
              if isMediaType mediaType then .ok (.file hash size (asciiLower mediaType))
              else .error .malformed
  | _ => .error .wrongType

/-- A decimal held at a scale: none of more places than it, or more digits than
its type holds. -/
def heldAtScale (d : Decimal) (scale digits : Nat) : Except InputReason Decimal :=
  match d.rescale scale with
  | none => .error .outOfRange
  | some held =>
      if !held.equal d then .error .malformed
      else if held.units.natAbs ≤ min MAX_UNITS (10 ^ digits - 1) then .ok held
      else .error .outOfRange

def decodeInt : Json → Except InputReason Value
  | .number text =>
      match wholeNumber text with
      | none => .error .wrongType
      | some n => if (fits64 n).isSome then .ok (.int n) else .error .outOfRange
  | .string s =>
      match parseInt s with
      | some n => .ok (.int n)
      | none =>
          if (s.toList.dropWhile (· = '-')).all Char.isDigit && !s.isEmpty then .error .outOfRange
          else .error .malformed
  | _ => .error .wrongType

def decodeDecimal (precision scale : Nat) (v : Json) : Except InputReason Value :=
  let read : Except InputReason Decimal := match v with
    | .string s => if trim s ≠ s then .error .malformed else
        match Decimal.parse s with
        | none => .error .malformed
        | some d => .ok d
    | .number text =>
        match wholeNumber text with
        | none => .error .wrongType
        | some n =>
            match (fits64 n).bind Decimal.fromInt with
            | none => .error .outOfRange
            | some d => .ok d
    | _ => .error .wrongType
  match read with
  | .error why => .error why
  | .ok d => (heldAtScale d scale precision).map .decimal

def decodeMoney (currency : String) (v : Json) : Except InputReason Value :=
  match minorUnit currency with
  | none => .error .wrongType
  | some minor =>
      match v.string? with
      | none => .error .wrongType
      | some s =>
          match splitOnce ' ' s with
          | none => .error .malformed
          | some (ccy, amount) =>
              if trim amount ≠ amount then .error .malformed
              else
                match Decimal.parse amount with
                | none => .error .malformed
                | some d =>
                    if ccy ≠ currency then .error .wrongCurrency
                    else (heldAtScale d minor 18).map (.money currency)

/-- A string a value holds: an identity names one actor as it reads, and none
holds U+0000 or too many bytes. -/
def decodeText (type s : String) : Except InputReason Value :=
  if type = "identity" ∧ (identityFault s lib).isSome then .error .malformed
  else if s.toList.contains '\x00' then .error .malformed
  else if TEXT_BYTES < s.utf8ByteSize then .error .outOfRange
  else .ok (.text s)

/-- A member by its name, or qualified by its enumeration's. -/
def decodeMember (enumeration : String) (members : List String) (v : Json) :
    Except InputReason Value :=
  match v.string? with
  | none => .error .wrongType
  | some s =>
      let member := (stripBeginning (enumeration ++ ".") s).getD s
      if members.contains member then .ok (.member enumeration member) else .error .wrongType

/-- A text read by a notation. -/
def decodeBy (read : String → Option Value) (v : Json) : Except InputReason Value :=
  match v.string? with
  | none => .error .wrongType
  | some s =>
      match read s with
      | none => .error .malformed
      | some v => .ok v

def decodeNamed (type : String) (v : Json) : Except InputReason Value :=
  match Table.get? lib.enumerations type with
  | some members => decodeMember type members v
  | none =>
      if type = "bool" then
        match v with
        | .bool b => .ok (.bool b)
        | _ => .error .wrongType
      else if type ∈ ["int", "counter"] then decodeInt v
      else if type = "timestamp" then decodeBy (fun s => (parseTimestamp s).map .timestamp) v
      else if type = "date" then decodeBy (fun s => (parseDate s).map .date) v
      else if type = "duration" then decodeBy (fun s => (parseDuration s).map .duration) v
      else if type = "file" then fileOf v
      else if type ∈ ["string", "text", "identity", "actor_kind"] then
        match v.string? with
        | none => .error .wrongType
        | some s => decodeText lib type s
      else .error .wrongType

def decodeScalar (s : Scalar) (v : Json) : Except InputReason Value :=
  match s with
  | .decimal precision scale => decodeDecimal precision scale v
  | .money currency => decodeMoney currency v
  | .named type => decodeNamed lib (scalarName type) v

/-- A value's fields as decoded, in the order declared: one left out is absent,
and an absent one is optional. -/
def fieldsOf (given : Table String (Except InputReason Value)) :
    List (String × Attribute) → Table String Value → Except InputReason (Table String Value)
  | [], out => .ok out
  | (f, a) :: rest, out =>
      match (Table.get? given f).getD (.ok .absent) with
      | .error why => .error why
      | .ok held =>
          if held.isAbsent && !a.optional then .error .malformed
          else fieldsOf given rest (Table.set out f held)

mutual

/-- A wire value as a value of a declared type. -/
def Json.decode : Json → Declared → Bool → Except InputReason Value
  | .null, _, _ => .ok .absent
  | .array items, declared, true => (decodeItems items declared []).map .set
  | _, _, true => .error .wrongType
  | .object given, .value name, false =>
      match Table.get? lib.values name with
      | none => .error .wrongType
      | some vt =>
          if (Table.keys given).any fun k => (named? vt.fields k).isNone then .error .wrongType
          else (fieldsOf (decodeFields given vt.fields) vt.fields []).map (.record name)
  | _, .value _, false => .error .wrongType
  | .string s, .reference _, false => .ok (.object s)
  | _, .reference _, false => .error .wrongType
  | v, .scalar s, false => decodeScalar lib s v

/-- A set's elements: none is null, and none repeats. -/
def decodeItems : List Json → Declared → List Value → Except InputReason (List Value)
  | [], _, out => .ok out
  | item :: rest, declared, out =>
      if item.isNull then .error .wrongType
      else
        match item.decode declared false with
        | .error why => .error why
        | .ok v =>
            if out.any fun u => u.same v then .error .malformed
            else decodeItems rest declared (out ++ [v])

/-- Each field given, decoded as its own type. -/
def decodeFields : List (String × Json) → List (String × Attribute) →
    Table String (Except InputReason Value)
  | [], _ => []
  | (k, v) :: rest, fields =>
      match named? fields k with
      | none => decodeFields rest fields
      | some a => (k, v.decode a.declared a.many) :: decodeFields rest fields

end

end Decode

mutual

/-- A value as the wire carries it. -/
def Value.encode : Value → Json
  | .absent => .null
  | .bool b => .bool b
  | .int n => if n.natAbs ≤ SAFE_INT then .number (toString n) else .string (toString n)
  | .decimal d => .string d.display
  | .money currency amount => .string (currency ++ " " ++ amount.display)
  | .duration s => .string (durationText s)
  | .timestamp t => .string (timestampText t)
  | .date d => .string (dateText d)
  | .text s | .object s => .string s
  | .state _ name => .string name
  | .member _ member => .string member
  | .file hash size mediaType => .object
      [("hash", .string hash), ("size", .number (toString size)), ("media_type", .string mediaType)]
  | .set items => .array (encodeItems items)
  | .row fields | .record _ fields => .object (encodeFields fields)

def encodeItems : List Value → List Json
  | [] => []
  | v :: rest => v.encode :: encodeItems rest

def encodeFields : List (String × Value) → List (String × Json)
  | [] => []
  | (k, v) :: rest => (k, v.encode) :: encodeFields rest

end

end ObjectFlow
