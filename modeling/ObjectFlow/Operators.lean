import ObjectFlow.Calendar
import ObjectFlow.Expr

/-!
# Operators over values

Comparison and arithmetic of two values, neither evaluated here: the value,
absent where an arithmetic has none, or the pair an operator does not take.
-/

namespace ObjectFlow

open Base

/-- The truth of a value, three-valued: none inside for unknown; none where
the value is no condition. -/
def truth? : Value → Option (Option Bool)
  | .bool b => some (some b)
  | .absent => some none
  | _ => none

/-- The integer 0 a sum over no elements yields, read as the zero of the value
it meets in a sum, a difference or a comparison. -/
def zeroAs (v other : Value) : Value :=
  match v, other with
  | .int 0, .duration _ => .duration 0
  | .int 0, .money currency amount =>
      match Decimal.new 0 amount.scale with
      | some zero => .money currency zero
      | none => .int 0
  | _, _ => v

/-- The words of a pair of values an operator does not take. -/
def notTaken (op : BinOp) (a b : Value) : String := a.kind ++ " " ++ op.text ++ " " ++ b.kind

/-- A value where there is one, absent where there is none. -/
def unknownIfNone (v : Option Value) : Value := v.getD .absent

/-- A comparison's answer where the two compare. -/
def comparison (a b : Value) (want : Ordering → Bool) : Except String Value :=
  match a.compare? b with
  | some o => .ok (.bool (want o))
  | none => .error ("comparing " ++ a.kind ++ " with " ++ b.kind)

/-- A product or a quotient of money and a number, at its minor unit. -/
def scaledMoney (op : BinOp) (currency : String) (amount k : Decimal) : Value :=
  let minor := (minorUnit currency).getD 2
  let r := if op = .mul then (amount.checkedMul k).bind (·.rescale minor)
    else amount.checkedDiv k minor
  unknownIfNone (r.map (Value.money currency))

/-- A product or a quotient of a duration and a number, in whole seconds. -/
def scaledDuration (op : BinOp) (seconds : Int) (k : Decimal) : Value :=
  let r := (Decimal.fromInt seconds).bind fun s =>
    if op = .mul then (s.checkedMul k).bind (·.rescale 0) else s.checkedDiv k 0
  unknownIfNone ((r.bind Decimal.toInt).map .duration)

/-- A date moved by whole days inside the calendar; a part of a day moves it
nowhere. -/
def movedDate (day seconds : Int) (sign : Int) : Value :=
  if seconds.tmod 86400 ≠ 0 then .absent
  else unknownIfNone <|
    (((fits64 (day + sign * seconds.tdiv 86400)).filter fun d => inCalendar d)).map .date

/-- An arithmetic of two present values. -/
def arithmetic (op : BinOp) (a b : Value) : Except String Value :=
  match op, a, b with
  | .add, .int x, .int y => .ok (unknownIfNone ((fits64 (x + y)).map .int))
  | .sub, .int x, .int y => .ok (unknownIfNone ((fits64 (x - y)).map .int))
  | .mul, .int x, .int y => .ok (unknownIfNone ((fits64 (x * y)).map .int))
  -- the remainder is discarded, toward zero
  | .div, .int x, .int y =>
      if y = 0 then .ok .absent else .ok (unknownIfNone ((fits64 (x.tdiv y)).map .int))
  | .add, .money c x, .money d y =>
      if c = d then .ok (unknownIfNone ((x.checkedAdd y).map (Value.money c)))
      else .error (notTaken op a b)
  | .sub, .money c x, .money d y =>
      if c = d then .ok (unknownIfNone ((x.checkedSub y).map (Value.money c)))
      else .error (notTaken op a b)
  | .div, .money c x, .money d y =>
      if c = d then .ok (unknownIfNone ((x.checkedDiv y 6).map .decimal))
      else .error (notTaken op a b)
  | .add, .duration x, .duration y => .ok (unknownIfNone ((fits64 (x + y)).map .duration))
  | .sub, .duration x, .duration y => .ok (unknownIfNone ((fits64 (x - y)).map .duration))
  | .div, .duration x, .duration y => .ok <| unknownIfNone do
      let ratio ← (← Decimal.fromInt x).checkedDiv (← Decimal.fromInt y) 6
      return .decimal ratio
  | .add, .timestamp t, .duration d | .add, .duration d, .timestamp t =>
      .ok (unknownIfNone ((fits64 (t + d)).map .timestamp))
  | .sub, .timestamp t, .duration d => .ok (unknownIfNone ((fits64 (t - d)).map .timestamp))
  | .sub, .timestamp x, .timestamp y => .ok (unknownIfNone ((fits64 (x - y)).map .duration))
  | .sub, .date x, .date y => .ok <| unknownIfNone <|
      ((fits64 (x - y)).bind fun d => fits64 (d * 86400)).map .duration
  | .add, .date day, .duration s => .ok (movedDate day s 1)
  | .sub, .date day, .duration s => .ok (movedDate day s (-1))
  | op, a, b =>
      match op, a, b, a.number, b.number with
      | .mul, .money c amount, _, _, some k | .div, .money c amount, _, _, some k
      | .mul, _, .money c amount, some k, _ => .ok (scaledMoney op c amount k)
      | .mul, .duration s, _, _, some k | .div, .duration s, _, _, some k
      | .mul, _, .duration s, some k, _ => .ok (scaledDuration op s k)
      | .div, .int _, .decimal d, _, _ =>
          if d.isZero then .ok .absent else .error "an int divided by a decimal"
      | .div, _, _, some p, some q =>
          -- a quotient keeps the left operand's scale
          if q.isZero then .ok .absent
          else .ok (unknownIfNone ((p.checkedDiv q p.scale).map .decimal))
      | .div, _, _, none, some q =>
          if q.isZero then .ok .absent else .error (notTaken op a b)
      | .add, _, _, some p, some q => .ok (unknownIfNone ((p.checkedAdd q).map .decimal))
      | .sub, _, _, some p, some q => .ok (unknownIfNone ((p.checkedSub q).map .decimal))
      | .mul, _, _, some p, some q => .ok (unknownIfNone ((p.checkedMul q).map .decimal))
      | _, _, _, _, _ => .error (notTaken op a b)

/-- A comparison or an arithmetic operator over two values: absent where
either is, and where the arithmetic of the two has no value; the words of it
where the operator does not take the pair. -/
def combine (op : BinOp) (a b : Value) : Except String Value :=
  -- a product or a quotient takes 0 as the scalar it is
  let (a, b) := if op = .mul ∨ op = .div then (a, b) else (zeroAs a b, zeroAs b a)
  if a.isAbsent || b.isAbsent then .ok .absent
  else
    match op with
    | .eq => .ok (.bool (a.equals b))
    | .ne => .ok (.bool (!a.equals b))
    | .lt => comparison a b (· = .lt)
    | .le => comparison a b (· ≠ .gt)
    | .gt => comparison a b (· = .gt)
    | .ge => comparison a b (· ≠ .lt)
    | _ => arithmetic op a b

/-- A value's negation; none where it has one but it does not fit, and the
words of a value that has none. -/
def negated : Value → Except String (Option Value)
  | .absent => .ok (some .absent)
  | .int n => .ok ((fits64 (-n)).map .int)
  | .decimal d => .ok (d.checkedNeg.map .decimal)
  | .duration s => .ok ((fits64 (-s)).map .duration)
  | .money currency amount => .ok (amount.checkedNeg.map (Value.money currency))
  | v => .error ("negating " ++ v.kind)

end ObjectFlow
