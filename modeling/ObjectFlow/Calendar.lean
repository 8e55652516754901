import ObjectFlow.Value

/-!
# Calendar and text forms

Days and seconds since 1970 as the proleptic Gregorian calendar writes them,
and the text the wire gives a value.
-/

namespace ObjectFlow

/-- Days since 1970-01-01 of a civil date. -/
def daysFromCivil (y : Int) (m d : Nat) : Int :=
  let y := if m ≤ 2 then y - 1 else y
  let era := y / 400
  let yoe := y - era * 400
  let doy := (153 * (if m > 2 then (m : Int) - 3 else (m : Int) + 9) + 2) / 5 + (d : Int) - 1
  let doe := yoe * 365 + yoe / 4 - yoe / 100 + doy
  era * 146097 + doe - 719468

/-- The civil date of days since 1970-01-01. -/
def civilFromDays (z : Int) : Int × Nat × Nat :=
  let z := z + 719468
  let era := z / 146097
  let doe := z - era * 146097
  let yoe := (doe - doe / 1460 + doe / 36524 - doe / 146096) / 365
  let doy := doe - (365 * yoe + yoe / 4 - yoe / 100)
  let mp := (5 * doy + 2) / 153
  let d := doy - (153 * mp + 2) / 5 + 1
  let m := if mp < 10 then mp + 3 else mp - 9
  let y := yoe + era * 400 + (if m ≤ 2 then 1 else 0)
  (y, m.toNat, d.toNat)

/-- A number written in at least `width` characters, zeros before it and after
its sign. -/
def padded (width : Nat) (n : Int) : String :=
  let digits := toString n.natAbs
  let sign := if n < 0 then "-" else ""
  sign ++ String.ofList (List.replicate (width - (sign.length + digits.length)) '0') ++ digits

def dateText (days : Int) : String :=
  let (y, m, d) := civilFromDays days
  padded 4 y ++ "-" ++ padded 2 m ++ "-" ++ padded 2 d

def timestampText (seconds : Int) : String :=
  let rest := seconds % 86400
  dateText (seconds / 86400) ++ "T" ++ padded 2 (rest / 3600) ++ ":" ++
    padded 2 (rest % 3600 / 60) ++ ":" ++ padded 2 (rest % 60) ++ "Z"

/-- Seconds written in their largest whole unit. -/
def durationText (seconds : Int) : String :=
  let units : List (String × String × Int) :=
    [("week", "weeks", 604800), ("day", "days", 86400), ("h", "h", 3600), ("min", "min", 60),
      ("s", "s", 1)]
  match units.find? fun (_, _, size) => seconds.tmod size = 0 ∧ (seconds ≠ 0 ∨ size = 1) with
  | some (one, many, size) =>
      let n := seconds.tdiv size
      toString n ++ " " ++ (if n.natAbs = 1 then one else many)
  | none => toString seconds ++ " s"

/-- A duration written as a count and a unit, in seconds. -/
def parseDuration (text : String) : Option Int := do
  let chars := (trim text).toList
  if !chars.contains ' ' then none
  else
    let n := chars.takeWhile (· ≠ ' ')
    let unit := trim (String.ofList ((chars.dropWhile (· ≠ ' ')).drop 1))
    let count ← (match n with
      | '-' :: digits => if digits.isEmpty then none else (Decimal.digits digits).map (- ·)
      | '+' :: digits => if digits.isEmpty then none else Decimal.digits digits
      | [] => none
      | digits => Decimal.digits digits)
    let size ← unitSeconds unit
    Base.fits64 ((← Base.fits64 count) * size)

/-- A time's calendar bucket, as a metric's dimension writes it. -/
def bucket (unit : String) (seconds : Int) : String :=
  let days := seconds / 86400
  let (y, m, d) := civilFromDays days
  if unit = "day" then padded 4 y ++ "-" ++ padded 2 m ++ "-" ++ padded 2 d
  else if unit = "week" then
    -- the week's Thursday names its ISO year
    let thursday := days - (days + 3) % 7 + 3
    let (year, _, _) := civilFromDays thursday
    let week := (thursday - daysFromCivil year 1 1).tdiv 7 + 1
    padded 4 year ++ "-W" ++ padded 2 week
  else if unit = "month" then padded 4 y ++ "-" ++ padded 2 m
  else if unit = "quarter" then padded 4 y ++ "-Q" ++ toString ((m - 1) / 3 + 1)
  else padded 4 y

namespace Decimal

/-- A decimal with every place its scale keeps. -/
def display (d : Decimal) : String :=
  let sign := if d.units < 0 then "-" else ""
  let digits := (toString d.units.natAbs).toList
  if d.scale = 0 then sign ++ String.ofList digits
  else
    let digits := List.replicate (d.scale + 1 - digits.length) '0' ++ digits
    let cut := digits.length - d.scale
    sign ++ String.ofList (digits.take cut) ++ "." ++ String.ofList (digits.drop cut)

end Decimal

/-- A text as JSON writes it. -/
def quoted (s : String) : String :=
  let hex := fun (n : Nat) => String.ofList [Nat.digitChar (n / 16), Nat.digitChar (n % 16)]
  let escaped := s.toList.map fun c =>
    if c = '"' then "\\\"" else if c = '\\' then "\\\\"
    else if c = '\n' then "\\n" else if c = '\r' then "\\r" else if c = '\t' then "\\t"
    else if c.toNat = 8 then "\\b" else if c.toNat = 12 then "\\f"
    else if c.toNat < 32 then "\\u00" ++ hex c.toNat
    else String.ofList [c]
  "\"" ++ String.join escaped ++ "\""

namespace Value

mutual

/-- The JSON the wire writes a value in. -/
def json : Value → String
  | absent => "null"
  | bool b => if b then "true" else "false"
  -- an integer a double cannot hold is written as text
  | int n => if n.natAbs ≤ 9007199254740991 then toString n else quoted (toString n)
  | decimal d => quoted d.display
  | money c a => quoted (c ++ " " ++ a.display)
  | duration s => quoted (durationText s)
  | timestamp t => quoted (timestampText t)
  | date d => quoted (dateText d)
  | text s | object s => quoted s
  | state _ n => quoted n
  | member _ m => quoted m
  | file h s m => "\x7b\"hash\":" ++ quoted h ++ ",\"media_type\":" ++ quoted m ++
      ",\"size\":" ++ toString s ++ "\x7d"
  | set items => "[" ++ jsonItems items ++ "]"
  | row fields | record _ fields => "\x7b" ++ jsonFields fields ++ "\x7d"

def jsonItems : List Value → String
  | [] => ""
  | [v] => json v
  | v :: rest => json v ++ "," ++ jsonItems rest

def jsonFields : List (String × Value) → String
  | [] => ""
  | [(k, v)] => quoted k ++ ":" ++ json v
  | (k, v) :: rest => quoted k ++ ":" ++ json v ++ "," ++ jsonFields rest

end

/-- A value as a consulted reference or an identifier writes it: as the wire
does, text bare. -/
def written : Value → String
  | int n => toString n
  | decimal d => d.display
  | money c a => c ++ " " ++ a.display
  | duration s => durationText s
  | timestamp t => timestampText t
  | date d => dateText d
  | text s | object s => s
  | state _ n => n
  | member _ m => m
  | v => v.json

end Value

end ObjectFlow
