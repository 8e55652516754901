import ObjectFlow.Base.Integer
import ObjectFlow.Tokens

/-!
# The core's parser

The expression language read into a tree.  Precedence, lowest first: `if`;
`implies`; `or`; `and`; one comparison, which does not chain; `+ -`; `* /`;
unary `not` and `-`; paths and calls.  Each function and each turn of a loop
takes one of the turns given, and enough are given for any text.
-/

namespace ObjectFlow

open Base

/-- A string quoted as the reference parser's messages quote it. -/
def pyRepr (text : String) : String :=
  let chars := text.toList
  let quote := if chars.contains APOSTROPHE && !chars.contains QUOTE then QUOTE else APOSTROPHE
  let escaped (c : Char) : List Char :=
    if c = BACKSLASH then [BACKSLASH, BACKSLASH]
    else if c = '\n' then [BACKSLASH, 'n']
    else if c = '\r' then [BACKSLASH, 'r']
    else if c = '\t' then [BACKSLASH, 't']
    else if c = quote then [BACKSLASH, c]
    else [c]
  String.ofList (quote :: chars.flatMap escaped ++ [quote])

/-! ### Tokens -/

/-- `char::is_whitespace`, of ASCII. -/
def isWhitespace (c : Char) : Bool := c = ' ' || (9 ≤ c.toNat && c.toNat ≤ 13)

/-- How many characters are left of a string, its closing quote among them;
none where it is not closed. -/
def stringLength : List Char → Option Nat
  | [] => none
  | c :: rest =>
      if c = QUOTE then some 1
      else if c = BACKSLASH then
        match rest with
        | [] => none
        | _ :: more => (stringLength more).map (· + 2)
      else (stringLength rest).map (· + 1)

/-- The operators of two characters. -/
def TWO : List (List Char) := [['=', '='], ['!', '='], ['<', '='], ['>', '='], [':', '=']]

/-- The operators of one. -/
def ONE : List Char := "<>+-*/()\x7b\x7d[],.:…?".toList

/-- The kind and the length of the token a text starts with; no kind of a
blank's. -/
def scan : List Char → Option (Option TokenKind × Nat)
  | [] => none
  | c :: rest =>
      if isWhitespace c then some (none, 1)
      else if c = QUOTE then (stringLength rest).map fun n => (some .str, n + 1)
      else if c.isDigit then some (some .num, numLength (c :: rest))
      else if c.isAlpha || c = '_' then some (some .name, ((c :: rest).takeWhile nameChar).length)
      else if TWO.contains ((c :: rest).take 2) then some (some .op, 2)
      else if ONE.contains c then some (some .op, 1)
      else none

/-- The tokens of what is left of a text, its first characters skipped as a
token's already read. -/
def tokenizeFrom (text : String) : Nat → Nat → List Char → Except ParseError (List Token)
  | _, _, [] => .ok [.endOf text]
  | skip + 1, i, _ :: rest => tokenizeFrom text skip (i + 1) rest
  | 0, i, c :: rest =>
      match scan (c :: rest) with
      | none => .error ⟨text, i, "unexpected character " ++ pyRepr (String.ofList [c])⟩
      | some (none, n) => tokenizeFrom text (n - 1) (i + 1) rest
      | some (some kind, n) => do
          let toks ← tokenizeFrom text (n - 1) (i + 1) rest
          return ⟨kind, String.ofList ((c :: rest).take n), i⟩ :: toks

def tokenize (text : String) : Except ParseError (List Token) :=
  tokenizeFrom text 0 0 text.toList

/-! ### A tree's depth -/

mutual

/-- The depth of a tree, every node a level. -/
def Expr.depth : Expr → Nat
  | .num _ | .str _ | .bool _ | .dur .. | .money .. | .name _ | .param _ | .lit _ => 1
  | .path b _ | .not b | .neg b | .isNull b _ | .changed _ b => b.depth + 1
  | .call f args => max f.depth (depthOf args) + 1
  | .agg _ _ _ collection filter body =>
      max (depthOfGiven collection) (max (depthOfGiven filter) (depthOfGiven body)) + 1
  | .metric name binds window fresh =>
      max name.depth (max (depthOfBinds binds) (max (depthOfGiven window) (depthOfGiven fresh))) + 1
  | .set items => depthOf items + 1
  | .in' a b | .bin _ a b => max a.depth b.depth + 1
  | .if' c a b => max c.depth (max a.depth b.depth) + 1

/-- The depth of the deepest. -/
def depthOf : List Expr → Nat
  | [] => 0
  | e :: rest => max e.depth (depthOf rest)

/-- The depth of the deepest bound. -/
def depthOfBinds : List (String × Expr) → Nat
  | [] => 0
  | b :: rest => max b.2.depth (depthOfBinds rest)

def depthOfGiven : Option Expr → Nat
  | none => 0
  | some e => e.depth

end

/-! ### The parser -/

/-- The aggregate a function names. -/
def AggKind.named (function : String) : Option AggKind :=
  [("count", AggKind.count), ("sum", .sum), ("min", .min), ("max", .max), ("all", .all),
    ("any", .any), ("none", .none), ("avg", .avg), ("median", .median),
    ("percentile", .percentile)].lookup function

/-- The aggregates whose value is their body, which therefore has one. -/
def AggKind.bodied : AggKind → Bool
  | .sum | .min | .max | .avg | .median => true
  | _ => false

/-- The comparison an operator is. -/
def BinOp.comparison (text : String) : Option BinOp :=
  [("==", BinOp.eq), ("!=", .ne), ("<", .lt), ("<=", .le), (">", .gt), (">=", .ge)].lookup text

/-- The sum or the difference an operator is. -/
def BinOp.additive (text : String) : Option BinOp := [("+", BinOp.add), ("-", .sub)].lookup text

/-- The product or the quotient an operator is. -/
def BinOp.multiplicative (text : String) : Option BinOp :=
  [("*", BinOp.mul), ("/", .div)].lookup text

/-- A number as written: a decimal, or an integer past 64 bits, keeps its
text. -/
def Number.read (text : String) : Number :=
  if text.toList.contains '.' then .decimal text
  else if (digitsValue text.toList : Int) ≤ i64Max then .int (digitsValue text.toList)
  else .decimal text

/-- Whether an expression is a path. -/
def Expr.isPath : Expr → Bool
  | .path _ _ => true
  | _ => false

namespace Parser

open Parse

variable {α : Type}

def error (p : Parser) (message : String) : ParseError := ⟨p.text, (p.peek 0).pos, message⟩

def found (p : Parser) : String :=
  if (p.peek 0).text.isEmpty then "the end" else (p.peek 0).text

def fail (what : String) : Parse α := fun p =>
  (.error (.failed (p.error (what ++ ", found " ++ pyRepr p.found))), p)

def expect (value : String) : Parse Token := do
  let p ← parser
  if p.at' value 0 then take
  else Program.stop (.failed
    (p.error ("expected " ++ pyRepr value ++ ", found " ++ pyRepr p.found)))

/-- What refuses a parse that nests too deep. -/
def nestsDeeper : Parse α :=
  fail ("the expression nests deeper than " ++ toString MAX_NESTING ++ " levels")

/-- One level deeper, for the length of a parse. -/
def nested (parse : Parse α) : Parse α := do
  Program.modify fun p => { p with depth := p.depth + 1 }
  let a ← parse
  Program.modify fun p => { p with depth := p.depth - 1 }
  return a

/-- Whether a token is next, taken where it is. -/
def taken (value : String) : Parse Bool := do
  let p ← parser
  if p.at' value 0 then do
    let _ ← take
    return true
  else return false

/-- A comma, unless what closes the list is next. -/
def separator (close : String) : Parse Unit := do
  let p ← parser
  if p.at' close 0 then return ()
  else do
    let _ ← expect ","
    return ()

/-- The operator next, of those given. -/
def operator (p : Parser) (of : String → Option BinOp) : Option BinOp :=
  if (p.peek 0).kind = .op then of (p.peek 0).text else none

def isComparison (p : Parser) : Bool :=
  (p.operator BinOp.comparison).isSome || p.at' "in" 0 || p.at' "is" 0

/-- What follows a word, where it is next. -/
def following (value : String) (parse : Parse Expr) : Parse (Option Expr) := do
  if ← taken value then return some (← parse)
  else return none

/-- What stands before a word, unless it is next. -/
def unlessNext (value : String) (parse : Parse Expr) : Parse (Option Expr) := do
  let p ← parser
  if p.at' value 0 then return none
  else return some (← parse)

/-- The names in brackets of `changed_since`. -/
def names : Nat → List String → Parse (List String)
  | 0, _ => unfinished
  | n + 1, found => do
      let p ← parser
      if p.at' "]" 0 then return found
      else do
        let name ← take
        separator "]"
        names n (found ++ [name.text])

/-- What a metric's call gives after its name: its dimensions' values, its
window and how fresh it must be. -/
structure Given where
  binds : List (String × Expr) := []
  window : Option Expr := none
  fresh : Option Expr := none

mutual

def expr : Nat → Parse Expr
  | 0 => unfinished
  | n + 1 => nested (nestedExpr n)

/-- An expression at one more level of nesting. -/
def nestedExpr : Nat → Parse Expr
  | 0 => unfinished
  | n + 1 => do
      let p ← parser
      if MAX_NESTING < p.depth then nestsDeeper
      else if p.at' "if" 0 then do
        let _ ← take
        let cond ← expr n
        let _ ← expect "then"
        let a ← expr n
        let _ ← expect "else"
        let b ← expr n
        return .if' cond a b
      else implies n

def implies : Nat → Parse Expr
  | 0 => unfinished
  | n + 1 => do
      let left ← or' n
      let p ← parser
      if p.at' "implies" 0 then do
        let _ ← take
        let right ← implies n
        return .bin .implies left right
      else return left

def or' : Nat → Parse Expr
  | 0 => unfinished
  | n + 1 => do
      let left ← and' n
      orFrom n left

def orFrom : Nat → Expr → Parse Expr
  | 0, _ => unfinished
  | n + 1, left => do
      let p ← parser
      if p.at' "or" 0 then do
        let _ ← take
        let right ← and' n
        orFrom n (.bin .or left right)
      else return left

def and' : Nat → Parse Expr
  | 0 => unfinished
  | n + 1 => do
      let left ← comparison n
      andFrom n left

def andFrom : Nat → Expr → Parse Expr
  | 0, _ => unfinished
  | n + 1, left => do
      let p ← parser
      if p.at' "and" 0 then do
        let _ ← take
        let right ← comparison n
        andFrom n (.bin .and left right)
      else return left

def comparison : Nat → Parse Expr
  | 0 => unfinished
  | n + 1 => do
      let left ← additive n
      let p ← parser
      if !p.isComparison then return left
      else do
        let node ← compared n left
        let p ← parser
        if p.isComparison then fail "a comparison does not chain" else return node

/-- A comparison, `in` or `is null` of what is on its left. -/
def compared : Nat → Expr → Parse Expr
  | 0, _ => unfinished
  | n + 1, left => do
      let p ← parser
      match p.operator BinOp.comparison with
      | some op => do
          let _ ← take
          let right ← additive n
          return .bin op left right
      | none =>
          if p.at' "in" 0 then do
            let _ ← take
            let right ← additive n
            return .in' left right
          else do
            let _ ← take
            let negated ← taken "not"
            let _ ← expect "null"
            return .isNull left negated

def additive : Nat → Parse Expr
  | 0 => unfinished
  | n + 1 => do
      let left ← multiplicative n
      additiveFrom n left

def additiveFrom : Nat → Expr → Parse Expr
  | 0, _ => unfinished
  | n + 1, left => do
      let p ← parser
      match p.operator BinOp.additive with
      | some op => do
          let _ ← take
          let right ← multiplicative n
          additiveFrom n (.bin op left right)
      | none => return left

def multiplicative : Nat → Parse Expr
  | 0 => unfinished
  | n + 1 => do
      let left ← unary n
      multiplicativeFrom n left

def multiplicativeFrom : Nat → Expr → Parse Expr
  | 0, _ => unfinished
  | n + 1, left => do
      let p ← parser
      match p.operator BinOp.multiplicative with
      | some op => do
          let _ ← take
          let right ← unary n
          multiplicativeFrom n (.bin op left right)
      | none => return left

def unary : Nat → Parse Expr
  | 0 => unfinished
  | n + 1 => do
      let p ← parser
      if p.at' "not" 0 || p.at' "-" 0 then nested (negated n) else postfixed n

/-- `not` or `-` and what it is of. -/
def negated : Nat → Parse Expr
  | 0 => unfinished
  | n + 1 => do
      let p ← parser
      if MAX_NESTING < p.depth then nestsDeeper
      else if p.at' "not" 0 then do
        let _ ← take
        let e ← unary n
        return .not e
      else do
        let _ ← take
        let e ← unary n
        return .neg e

def postfixed : Nat → Parse Expr
  | 0 => unfinished
  | n + 1 => do
      let node ← primary n
      postfixedFrom n node

def postfixedFrom : Nat → Expr → Parse Expr
  | 0, _ => unfinished
  | n + 1, node => do
      let p ← parser
      if p.at' "." 0 then do
        let _ ← take
        let p ← parser
        if (p.peek 0).kind ≠ .name then fail "a member name follows `.`"
        else do
          let member ← take
          postfixedFrom n (.path node member.text)
      else if p.at' "(" 0 && node.isPath then do
        let args ← arguments n
        postfixedFrom n (.call node args)
      else return node

def arguments : Nat → Parse (List Expr)
  | 0 => unfinished
  | n + 1 => do
      let _ ← expect "("
      let args ← itemsUntil n ")" []
      let _ ← expect ")"
      return args

/-- The expressions of a list, up to what closes it. -/
def itemsUntil : Nat → String → List Expr → Parse (List Expr)
  | 0, _, _ => unfinished
  | n + 1, close, items => do
      let p ← parser
      if p.at' close 0 then return items
      else do
        let e ← expr n
        separator close
        itemsUntil n close (items ++ [e])

def primary : Nat → Parse Expr
  | 0 => unfinished
  | n + 1 => do
      let p ← parser
      let t := p.peek 0
      if p.params && t.kind = .op && t.text = ":" && (p.peek 1).kind = .name then do
        let _ ← take
        let name ← take
        return .param name.text
      else match t.kind with
        | .num => do
            let _ ← take
            let p ← parser
            if (p.peek 0).kind = .name && UNITS.contains (p.peek 0).text then do
              let unit ← take
              return .dur (Number.read t.text) unit.text
            else return .num (Number.read t.text)
        | .str => do
            let _ ← take
            return .str (String.ofList (t.text.toList.drop 1).dropLast)
        | .name =>
            if t.text = "true" || t.text = "false" then do
              let _ ← take
              return .bool (t.text = "true")
            else if t.text.length = 3 && t.text.toList.all Char.isUpper &&
                (p.peek 1).kind = .num then do
              let _ ← take
              let amount ← take
              return .money t.text amount.text
            else if KEYWORDS.contains t.text then fail "an operand"
            else do
              let _ ← take
              let p ← parser
              if p.at' "(" 0 then call n t.text else return .name t.text
        | .op =>
            if t.text = "(" then do
              let _ ← take
              let node ← expr n
              let _ ← expect ")"
              return node
            else if t.text = "\x7b" then do
              let _ ← take
              let items ← itemsUntil n "\x7d" []
              let _ ← expect "\x7d"
              return .set items
            else fail "an operand"
        | .end' => fail "an operand"

def call : Nat → String → Parse Expr
  | 0, _ => unfinished
  | n + 1, function => do
      let p ← parser
      let comprehension := ( p.at' "distinct" 1 && (p.peek 2).kind = .name && p.at' "in" 3) ||
        ((p.peek 1).kind = .name && p.at' "in" 2)
      match AggKind.named function with
      | some kind =>
          if !comprehension && ( p.at' "where" 1 || p.at' "distinct" 1) then ownRows n kind
          else if comprehension then overItems n function kind
          else do
            let args ← arguments n
            return .call (.name function) args
      | none =>
          if function = "metric" then metric n
          else if function = "changed_since" then do
            let _ ← expect "("
            let _ ← expect "["
            let names ← names n []
            let _ ← expect "]"
            let _ ← expect ","
            let event ← expr n
            let _ ← expect ")"
            return .changed names event
          else do
            let args ← arguments n
            return .call (.name function) args

/-- A metric's aggregate over its own rows. -/
def ownRows : Nat → AggKind → Parse Expr
  | 0, _ => unfinished
  | n + 1, kind => do
      let _ ← expect "("
      let distinct ← taken "distinct"
      let body ← unlessNext "where" (expr n)
      let filter ← following "where" (expr n)
      let _ ← expect ")"
      return .agg kind distinct none none filter body

/-- An aggregate over a collection's items. -/
def overItems : Nat → String → AggKind → Parse Expr
  | 0, _, _ => unfinished
  | n + 1, function, kind => do
      let _ ← expect "("
      let distinct ← taken "distinct"
      let var ← take
      let _ ← expect "in"
      let collection ← additive n
      let filter ← following "where" (expr n)
      let body ← following ":" (expr n)
      if body.isNone && (kind.bodied || distinct) then
        fail ("a body after ':', which " ++ (if distinct then "a distinct count" else function) ++
          " requires")
      else do
        let _ ← expect ")"
        return .agg kind distinct (some var.text) (some collection) filter body

def metric : Nat → Parse Expr
  | 0 => unfinished
  | n + 1 => do
      let _ ← expect "("
      let name ← additive n
      let given ← metricFrom n {}
      let _ ← expect ")"
      return .metric name given.binds given.window given.fresh

def metricFrom : Nat → Given → Parse Given
  | 0, _ => unfinished
  | n + 1, given => do
      let p ← parser
      if p.at' "," 0 then do
        let _ ← take
        let p ← parser
        if p.at' "over" 0 then do
          let _ ← take
          let _ ← expect "last"
          let window ← primary n
          metricFrom n { given with window := some window }
        else if p.at' "fresh" 0 then do
          let _ ← take
          let fresh ← primary n
          metricFrom n { given with fresh := some fresh }
        else do
          let dimension ← take
          let _ ← expect ":="
          let e ← expr n
          metricFrom n { given with binds := given.binds ++ [(dimension.text, e)] }
      else return given

end

end Parser

/-- The turns a text's parse is given. -/
def turns (toks : List Token) : Nat := 32 * (toks.length + 1)

def parsed (text : String) (params : Bool) : Except Halt Expr := do
  let toks ← (tokenize text).mapError .failed
  match Parser.expr (turns toks) { text, toks, params } with
  | (.error halt, _) => .error halt
  | (.ok node, p) =>
      if (p.peek 0).kind ≠ .end' then
        .error (.failed (p.error ("the end of the expression, found " ++ pyRepr p.found)))
      else if MAX_DEPTH < node.depth then
        .error (.failed (p.error ("the expression is deeper than " ++ toString MAX_DEPTH ++
          " levels; a long list of alternatives is written x in \x7ba, b, …\x7d")))
      else .ok node

def parse (text : String) : Except Halt Expr := parsed text false

/-- The tree of a read's filter, which may name parameters. -/
def parseFilter (text : String) : Except Halt Expr := parsed text true

end ObjectFlow
