import ObjectFlow.Model

/-!
# Fitting a value to a declared type

A value written to an attribute, as its declared type holds it, where it can:
an integer or a decimal at a decimal's scale, an amount at its minor unit, a
text within what a request sends, every other kind only where its own kind is
held.
-/

namespace ObjectFlow

open Base

/-- The largest count of units a value holds, 18 digits. -/
def MAX_UNITS : Int := 999999999999999999

/-- The most bytes a string holds. -/
def TEXT_BYTES : Nat := 65536

/-- The digits and the scale of a declared decimal. -/
def Declared.decimal? : Declared → Option (Nat × Nat)
  | .scalar (.decimal p s) => some (p, s)
  | _ => none

/-- Whether a list of media types takes one: an empty list takes any, and
`kind/*` every one of its kind. -/
def takesMedia (types : List String) (mediaType : String) : Bool :=
  types.isEmpty || types.any fun t =>
    let chars := t.toList
    if chars.drop (chars.length - 2) = ['/', '*'] then
      mediaType.toList.contains '/' &&
        mediaType.toList.takeWhile (· ≠ '/') = chars.take (chars.length - 2)
    else t = mediaType

mutual

/-- Whether a value is one a list of media types takes: a file by its media
type, a set by each of its elements, any other value as it is. -/
def mediaTaken (types : List String) : Value → Bool
  | .file _ _ mediaType => takesMedia types mediaType
  | .set items => mediaTakenAll types items
  | _ => true

def mediaTakenAll (types : List String) : List Value → Bool
  | [] => true
  | v :: rest => mediaTaken types v && mediaTakenAll types rest

end

/-- A count of units within the 18 digits a value holds. -/
def withinDigits (d : Decimal) : Option Decimal :=
  if d.units.natAbs ≤ MAX_UNITS then some d else none

/-- A value of one element, as its declared type holds it. -/
def fitOne (declared : Declared) (v : Value) : Option Value :=
  match declared, v with
  | _, .absent => some .absent
  | .reference _, .object id => some (.object id)
  | .value name, .record type fields => if type = name then some (.record type fields) else none
  | .scalar (.decimal p s), v =>
      match v.number with
      | none => none
      | some d => do
          let held ← d.rescale s
          if held.units.natAbs ≤ 10 ^ p - 1 then (withinDigits held).map .decimal else none
  | .scalar (.money currency), .money c amount =>
      if c = currency then do
        let held ← amount.rescale ((minorUnit currency).getD 2)
        (withinDigits held).map (.money c)
      else none
  | .scalar (.named type), .int n =>
      if type ∈ ["int", "counter", "event"] then some (.int n) else none
  -- a decimal to an integer only where it is whole
  | .scalar (.named type), .decimal d =>
      if type ∈ ["int", "counter"] then
        (((d.rescale 0).filter fun (w : Decimal) => w.equal d).bind Decimal.toInt).map .int
      else none
  | .scalar (.named type), .text s =>
      if type ∈ ["string", "text", "identity", "actor_kind"] ∧ s.utf8ByteSize ≤ TEXT_BYTES
      then some (.text s) else none
  | .scalar (.named type), .date d =>
      if type = "date" ∧ inCalendar d then some (.date d) else none
  | .scalar (.named type), .timestamp t =>
      if type = "timestamp" ∧ inCalendar (t / 86400) then some (.timestamp t) else none
  | .scalar (.named type), .bool b => if type = "bool" then some (.bool b) else none
  | .scalar (.named type), .duration s => if type = "duration" then some (.duration s) else none
  | .scalar (.named type), .file h s m => if type = "file" then some (.file h s m) else none
  | .scalar (.named type), .member enumeration m =>
      if type = enumeration then some (.member enumeration m) else none
  | _, _ => none

/-- A value written to an attribute, as its declared type holds it; none where
it cannot. -/
def fitValue (declared : Declared) (many : Bool) (v : Value) : Option Value :=
  match many, v with
  | _, .absent => some .absent
  | true, .set items => (items.mapM (fitOne declared)).map .set
  | true, _ => none
  | false, v => fitOne declared v

/-- A value written to an attribute of a type, fitted to its declared type;
none where it holds no such value. -/
def FlowType.atDeclaredScale (t : FlowType) (name : String) (v : Value) : Option Value :=
  match t.attribute? name with
  | none => some v
  | some a => (fitValue a.declared a.many v).filter fun v => mediaTaken a.mediaTypes v

end ObjectFlow
