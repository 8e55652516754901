import ObjectFlow.Value

/-!
# Expressions

The expression language as a tree.  Everything that walks expressions walks
`children`, or matches the constructors one by one.
-/

namespace ObjectFlow

/-- A number as written. -/
inductive Number where
  | int (n : Int)
  /-- A decimal, or an integer past 64 bits, kept as its text. -/
  | decimal (text : String)
deriving DecidableEq

/-- A binary operator. -/
inductive BinOp where
  | implies | or | and | eq | ne | lt | le | gt | ge | add | sub | mul | div
deriving DecidableEq

def BinOp.text : BinOp → String
  | implies => "implies"
  | or => "or"
  | and => "and"
  | eq => "=="
  | ne => "!="
  | lt => "<"
  | le => "<="
  | gt => ">"
  | ge => ">="
  | add => "+"
  | sub => "-"
  | mul => "*"
  | div => "/"

/-- The aggregates the parser reads. -/
inductive AggKind where
  | count | sum | min | max | all | any | none | avg | median | percentile
deriving DecidableEq

def AggKind.text : AggKind → String
  | count => "count"
  | sum => "sum"
  | min => "min"
  | max => "max"
  | all => "all"
  | any => "any"
  | none => "none"
  | avg => "avg"
  | median => "median"
  | percentile => "percentile"

/-- An expression's tree. -/
inductive Expr where
  | num (n : Number)
  | str (s : String)
  | bool (b : Bool)
  /-- A duration: its count, as written, and its unit. -/
  | dur (n : Number) (unit : String)
  /-- Money: its currency and its amount, as written. -/
  | money (currency amount : String)
  /-- A bare name, resolved where it is used. -/
  | name (n : String)
  | path (base : Expr) (member : String)
  | call (function : Expr) (args : List Expr)
  /-- `count(x in c where f: b)`. -/
  | agg (kind : AggKind) (distinct : Bool) (var : Option String)
      (collection filter body : Option Expr)
  /-- `metric(n, d := e, over last 30 days, fresh 1 h)`. -/
  | metric (name : Expr) (binds : List (String × Expr)) (window fresh : Option Expr)
  /-- `changed_since([a, b], e)`. -/
  | changed (names : List String) (event : Expr)
  | set (items : List Expr)
  | not (e : Expr)
  | neg (e : Expr)
  /-- `e is null`, or `e is not null` when negated. -/
  | isNull (e : Expr) (negated : Bool)
  | in' (left right : Expr)
  | bin (op : BinOp) (left right : Expr)
  | if' (c a b : Expr)
  /-- A parameter of a read's filter. -/
  | param (n : String)
  /-- A value written into the tree. -/
  | lit (v : Value)

end ObjectFlow
