import ObjectFlow.Base.Watched
import ObjectFlow.Parse

/-!
# How deep a parse nests

The parser watched as it opens one parse inside another: an expression inside
another, its brackets' or a part of its `if`; the right side of an `implies`; the
operand of a `not` or a `-`; an aggregate's collection, a metric's name, its
window and how fresh it must be.  The core counts a level at some of these and
refuses the next past `MAX_NESTING`; here every one is counted, and does what it
does.
-/

namespace ObjectFlow

open Base Base.Program

/-- A parse watched. -/
abbrev Watching (ε α : Type) := Program (Watched Parser) ε α

/-- How a parse is watched: how its stops are told, and what is done where one
parse opens inside another. -/
structure Watcher (ε : Type) where
  tell : Halt → ε
  entered : {α : Type} → Watching ε α → Watching ε α

namespace Watcher

/-- Every parse that opens is counted. -/
def counting : Watcher Halt := ⟨id, counted⟩

/-- A parse that opens past `MAX_NESTING` is refused, whichever it is. -/
def strict : Watcher (Option Halt) := ⟨some, refusing MAX_NESTING none⟩

variable {ε α : Type} (w : Watcher ε)

open ObjectFlow.Parse ObjectFlow.Parser

/-- What opens nothing. -/
def alone (parse : Parse α) : Watching ε α := watching w.tell parse

/-- One level deeper, for the length of a parse. -/
def nested (parse : Watching ε α) : Watching ε α := do
  w.alone (Program.modify fun p => { p with depth := p.depth + 1 })
  let a ← parse
  w.alone (Program.modify fun p => { p with depth := p.depth - 1 })
  return a

/-- What follows a word, where it is next. -/
def following (value : String) (parse : Watching ε Expr) : Watching ε (Option Expr) := do
  if ← w.alone (taken value) then return some (← parse)
  else return none

/-- What stands before a word, unless it is next. -/
def unlessNext (value : String) (parse : Watching ε Expr) : Watching ε (Option Expr) := do
  let p ← w.alone parser
  if p.at' value 0 then return none
  else return some (← parse)

mutual

def expr : Nat → Watching ε Expr
  | 0 => w.alone unfinished
  | n + 1 => w.nested (nestedExpr n)

def nestedExpr : Nat → Watching ε Expr
  | 0 => w.alone unfinished
  | n + 1 => do
      let p ← w.alone parser
      if MAX_NESTING < p.depth then w.alone nestsDeeper
      else if p.at' "if" 0 then do
        let _ ← w.alone take
        let cond ← w.entered (expr n)
        let _ ← w.alone (expect "then")
        let a ← w.entered (expr n)
        let _ ← w.alone (expect "else")
        let b ← w.entered (expr n)
        return .if' cond a b
      else implies n

def implies : Nat → Watching ε Expr
  | 0 => w.alone unfinished
  | n + 1 => do
      let left ← or' n
      let p ← w.alone parser
      if p.at' "implies" 0 then do
        let _ ← w.alone take
        let right ← w.entered (implies n)
        return .bin .implies left right
      else return left

def or' : Nat → Watching ε Expr
  | 0 => w.alone unfinished
  | n + 1 => do
      let left ← and' n
      orFrom n left

def orFrom : Nat → Expr → Watching ε Expr
  | 0, _ => w.alone unfinished
  | n + 1, left => do
      let p ← w.alone parser
      if p.at' "or" 0 then do
        let _ ← w.alone take
        let right ← and' n
        orFrom n (.bin .or left right)
      else return left

def and' : Nat → Watching ε Expr
  | 0 => w.alone unfinished
  | n + 1 => do
      let left ← comparison n
      andFrom n left

def andFrom : Nat → Expr → Watching ε Expr
  | 0, _ => w.alone unfinished
  | n + 1, left => do
      let p ← w.alone parser
      if p.at' "and" 0 then do
        let _ ← w.alone take
        let right ← comparison n
        andFrom n (.bin .and left right)
      else return left

def comparison : Nat → Watching ε Expr
  | 0 => w.alone unfinished
  | n + 1 => do
      let left ← additive n
      let p ← w.alone parser
      if !p.isComparison then return left
      else do
        let node ← compared n left
        let p ← w.alone parser
        if p.isComparison then w.alone (fail "a comparison does not chain") else return node

def compared : Nat → Expr → Watching ε Expr
  | 0, _ => w.alone unfinished
  | n + 1, left => do
      let p ← w.alone parser
      match p.operator BinOp.comparison with
      | some op => do
          let _ ← w.alone take
          let right ← additive n
          return .bin op left right
      | none =>
          if p.at' "in" 0 then do
            let _ ← w.alone take
            let right ← additive n
            return .in' left right
          else do
            let _ ← w.alone take
            let negated ← w.alone (taken "not")
            let _ ← w.alone (expect "null")
            return .isNull left negated

def additive : Nat → Watching ε Expr
  | 0 => w.alone unfinished
  | n + 1 => do
      let left ← multiplicative n
      additiveFrom n left

def additiveFrom : Nat → Expr → Watching ε Expr
  | 0, _ => w.alone unfinished
  | n + 1, left => do
      let p ← w.alone parser
      match p.operator BinOp.additive with
      | some op => do
          let _ ← w.alone take
          let right ← multiplicative n
          additiveFrom n (.bin op left right)
      | none => return left

def multiplicative : Nat → Watching ε Expr
  | 0 => w.alone unfinished
  | n + 1 => do
      let left ← unary n
      multiplicativeFrom n left

def multiplicativeFrom : Nat → Expr → Watching ε Expr
  | 0, _ => w.alone unfinished
  | n + 1, left => do
      let p ← w.alone parser
      match p.operator BinOp.multiplicative with
      | some op => do
          let _ ← w.alone take
          let right ← unary n
          multiplicativeFrom n (.bin op left right)
      | none => return left

def unary : Nat → Watching ε Expr
  | 0 => w.alone unfinished
  | n + 1 => do
      let p ← w.alone parser
      if p.at' "not" 0 || p.at' "-" 0 then
        w.entered (w.nested (negated n))
      else postfixed n

def negated : Nat → Watching ε Expr
  | 0 => w.alone unfinished
  | n + 1 => do
      let p ← w.alone parser
      if MAX_NESTING < p.depth then w.alone nestsDeeper
      else if p.at' "not" 0 then do
        let _ ← w.alone take
        let e ← unary n
        return .not e
      else do
        let _ ← w.alone take
        let e ← unary n
        return .neg e

def postfixed : Nat → Watching ε Expr
  | 0 => w.alone unfinished
  | n + 1 => do
      let node ← primary n
      postfixedFrom n node

def postfixedFrom : Nat → Expr → Watching ε Expr
  | 0, _ => w.alone unfinished
  | n + 1, node => do
      let p ← w.alone parser
      if p.at' "." 0 then do
        let _ ← w.alone take
        let p ← w.alone parser
        if (p.peek 0).kind ≠ .name then w.alone (fail "a member name follows `.`")
        else do
          let member ← w.alone take
          postfixedFrom n (.path node member.text)
      else if p.at' "(" 0 && node.isPath then do
        let args ← arguments n
        postfixedFrom n (.call node args)
      else return node

def arguments : Nat → Watching ε (List Expr)
  | 0 => w.alone unfinished
  | n + 1 => do
      let _ ← w.alone (expect "(")
      let args ← itemsUntil n ")" []
      let _ ← w.alone (expect ")")
      return args

def itemsUntil : Nat → String → List Expr → Watching ε (List Expr)
  | 0, _, _ => w.alone unfinished
  | n + 1, close, items => do
      let p ← w.alone parser
      if p.at' close 0 then return items
      else do
        let e ← w.entered (expr n)
        w.alone (separator close)
        itemsUntil n close (items ++ [e])

def primary : Nat → Watching ε Expr
  | 0 => w.alone unfinished
  | n + 1 => do
      let p ← w.alone parser
      let t := p.peek 0
      if p.params && t.kind = .op && t.text = ":" && (p.peek 1).kind = .name then do
        let _ ← w.alone take
        let name ← w.alone take
        return .param name.text
      else match t.kind with
        | .num => do
            let _ ← w.alone take
            let p ← w.alone parser
            if (p.peek 0).kind = .name && UNITS.contains (p.peek 0).text then do
              let unit ← w.alone take
              return .dur (Number.read t.text) unit.text
            else return .num (Number.read t.text)
        | .str => do
            let _ ← w.alone take
            return .str (String.ofList (t.text.toList.drop 1).dropLast)
        | .name =>
            if t.text = "true" || t.text = "false" then do
              let _ ← w.alone take
              return .bool (t.text = "true")
            else if t.text.length = 3 && t.text.toList.all Char.isUpper &&
                (p.peek 1).kind = .num then do
              let _ ← w.alone take
              let amount ← w.alone take
              return .money t.text amount.text
            else if KEYWORDS.contains t.text then w.alone (fail "an operand")
            else do
              let _ ← w.alone take
              let p ← w.alone parser
              if p.at' "(" 0 then call n t.text else return .name t.text
        | .op =>
            if t.text = "(" then do
              let _ ← w.alone take
              let node ← w.entered (expr n)
              let _ ← w.alone (expect ")")
              return node
            else if t.text = "\x7b" then do
              let _ ← w.alone take
              let items ← itemsUntil n "\x7d" []
              let _ ← w.alone (expect "\x7d")
              return .set items
            else w.alone (fail "an operand")
        | .end' => w.alone (fail "an operand")

def call : Nat → String → Watching ε Expr
  | 0, _ => w.alone unfinished
  | n + 1, function => do
      let p ← w.alone parser
      let comprehension := ( p.at' "distinct" 1 && (p.peek 2).kind = .name && p.at' "in" 3) ||
        ((p.peek 1).kind = .name && p.at' "in" 2)
      match AggKind.named function with
      | some kind =>
          if !comprehension && ( p.at' "where" 1 || p.at' "distinct" 1) then ownRows n kind
          else if comprehension then overItems n function kind
          else do
            let args ← arguments n
            return .call (.name function) args
      | none =>
          if function = "metric" then metric n
          else if function = "changed_since" then do
            let _ ← w.alone (expect "(")
            let _ ← w.alone (expect "[")
            let names ← w.alone (names n [])
            let _ ← w.alone (expect "]")
            let _ ← w.alone (expect ",")
            let event ← w.entered (expr n)
            let _ ← w.alone (expect ")")
            return .changed names event
          else do
            let args ← arguments n
            return .call (.name function) args

def ownRows : Nat → AggKind → Watching ε Expr
  | 0, _ => w.alone unfinished
  | n + 1, kind => do
      let _ ← w.alone (expect "(")
      let distinct ← w.alone (taken "distinct")
      let body ← w.unlessNext "where" (w.entered (expr n))
      let filter ← w.following "where" (w.entered (expr n))
      let _ ← w.alone (expect ")")
      return .agg kind distinct none none filter body

def overItems : Nat → String → AggKind → Watching ε Expr
  | 0, _, _ => w.alone unfinished
  | n + 1, function, kind => do
      let _ ← w.alone (expect "(")
      let distinct ← w.alone (taken "distinct")
      let var ← w.alone take
      let _ ← w.alone (expect "in")
      let collection ← w.entered (additive n)
      let filter ← w.following "where" (w.entered (expr n))
      let body ← w.following ":" (w.entered (expr n))
      if body.isNone && (kind.bodied || distinct) then
        w.alone (fail ("a body after ':', which " ++
          (if distinct then "a distinct count" else function) ++ " requires"))
      else do
        let _ ← w.alone (expect ")")
        return .agg kind distinct (some var.text) (some collection) filter body

def metric : Nat → Watching ε Expr
  | 0 => w.alone unfinished
  | n + 1 => do
      let _ ← w.alone (expect "(")
      let name ← w.entered (additive n)
      let given ← metricFrom n {}
      let _ ← w.alone (expect ")")
      return .metric name given.binds given.window given.fresh

def metricFrom : Nat → Given → Watching ε Given
  | 0, _ => w.alone unfinished
  | n + 1, given => do
      let p ← w.alone parser
      if p.at' "," 0 then do
        let _ ← w.alone take
        let p ← w.alone parser
        if p.at' "over" 0 then do
          let _ ← w.alone take
          let _ ← w.alone (expect "last")
          let window ← w.entered (primary n)
          metricFrom n { given with window := some window }
        else if p.at' "fresh" 0 then do
          let _ ← w.alone take
          let fresh ← w.entered (primary n)
          metricFrom n { given with fresh := some fresh }
        else do
          let dimension ← w.alone take
          let _ ← w.alone (expect ":=")
          let e ← w.entered (expr n)
          metricFrom n { given with binds := given.binds ++ [(dimension.text, e)] }
      else return given

end

end Watcher

end ObjectFlow
