import ObjectFlow.Tokens

/-!
# The reference parser

The expression language read as `scripts/flowexpr.py` reads it: its tokens by
one pattern, its tree of tuples, and its own count of a tree's depth.  The
interpreter's own limits, on the frames it stacks and on the digits it reads as
an integer, are not modelled.
-/

namespace ObjectFlow

/-- A value of the reference parser's: a node is a tuple whose first element
names it. -/
inductive Node where
  | none
  | bool (b : Bool)
  | int (n : Int)
  | text (s : String)
  | tuple (items : List Node)
  | list (items : List Node)

namespace Reference

open Base Parse

/-! ### Tokens -/

/-- `repr`, of a text of ASCII. -/
def repr (text : String) : String :=
  let chars := text.toList
  let quote := if chars.contains APOSTROPHE && !chars.contains QUOTE then QUOTE else APOSTROPHE
  let escaped (c : Char) : List Char :=
    if c = BACKSLASH || c = quote then [BACKSLASH, c]
    else if c = '\n' then [BACKSLASH, 'n']
    else if c = '\r' then [BACKSLASH, 'r']
    else if c = '\t' then [BACKSLASH, 't']
    else if c.toNat < 32 || c.toNat = 127 then
      BACKSLASH :: 'x' :: (Nat.toDigits 16 (c.toNat / 16) ++ Nat.toDigits 16 (c.toNat % 16))
    else [c]
  String.ofList (quote :: chars.flatMap escaped ++ [quote])

/-- `\s`, of ASCII: the four separators too. -/
def isSpace (c : Char) : Bool :=
  c = ' ' || (9 ≤ c.toNat && c.toNat ≤ 13) || (28 ≤ c.toNat && c.toNat ≤ 31)

/-- How many characters of a string's pattern are left, its closing quote among
them: what a backslash escapes is any character but a line's end. -/
def strLength : List Char → Option Nat
  | [] => none
  | c :: rest =>
      if c = QUOTE then some 1
      else if c = BACKSLASH then
        match rest with
        | [] => none
        | d :: more => if d = '\n' then none else (strLength more).map (· + 2)
      else (strLength rest).map (· + 1)

/-- `==|!=|<=|>=|:=|[<>+\-*/(){}\[\],.:…?]`. -/
def opLength (chars : List Char) : Option Nat :=
  match chars with
  | '=' :: '=' :: _ | '!' :: '=' :: _ | '<' :: '=' :: _ | '>' :: '=' :: _ | ':' :: '=' :: _ =>
      some 2
  | c :: _ =>
      if ['<', '>', '+', '-', '*', '/', '(', ')', '\x7b', '\x7d', '[', ']', ',', '.', ':', '…',
        '?'].contains c then some 1 else none
  | [] => none

/-- The group of `TOKEN` that matches what a text starts with, and the match's
length; no kind of white space's. -/
def matched : List Char → Option (Option TokenKind × Nat)
  | [] => none
  | c :: rest =>
      if isSpace c then some (none, ((c :: rest).takeWhile isSpace).length)
      else match (if c = QUOTE then strLength rest else none) with
        | some n => some (some .str, n + 1)
        | none =>
            if c.isDigit then some (some .num, numLength (c :: rest))
            else if c.isAlpha || c = '_' then
              some (some .name, ((c :: rest).takeWhile nameChar).length)
            else (opLength (c :: rest)).map fun n => (some .op, n)

/-- The tokens of what is left of a text, its first characters skipped as a
match's already read. -/
def tokenizeFrom (text : String) : Nat → Nat → List Char → Except ParseError (List Token)
  | _, _, [] => .ok [.endOf text]
  | skip + 1, pos, _ :: rest => tokenizeFrom text skip (pos + 1) rest
  | 0, pos, c :: rest =>
      match matched (c :: rest) with
      | none => .error ⟨text, pos, "unexpected character " ++ repr (String.ofList [c])⟩
      | some (none, n) => tokenizeFrom text (n - 1) (pos + 1) rest
      | some (some kind, n) => do
          let toks ← tokenizeFrom text (n - 1) (pos + 1) rest
          return ⟨kind, String.ofList ((c :: rest).take n), pos⟩ :: toks

def tokenize (text : String) : Except ParseError (List Token) :=
  tokenizeFrom text 0 0 text.toList

end Reference

/-! ### A tree's depth -/

mutual

/-- The depth of a tree, every node a level: what a tuple holds past its name,
and the tuples of the lists it holds, stand one level down. -/
def Node.depth : Node → Nat
  | .tuple (_ :: rest) => walked rest + 1
  | _ => 1

/-- The deepest of the tuples among a tuple's elements and their lists'. -/
def walked : List Node → Nat
  | [] => 0
  | .tuple items :: rest => max (Node.depth (.tuple items)) (walked rest)
  | .list items :: rest => max (listed items) (walked rest)
  | _ :: rest => walked rest

/-- The deepest of the tuples of a list. -/
def listed : List Node → Nat
  | [] => 0
  | .tuple items :: rest => max (Node.depth (.tuple items)) (listed rest)
  | _ :: rest => listed rest

end

namespace Reference

open Base Parse

variable {α : Type}

/-! ### The parser -/

def AGGREGATES : List String :=
  ["count", "sum", "min", "max", "all", "any", "none", "avg", "median", "percentile"]

/-- The aggregates whose value is their body, which therefore has one. -/
def BODIED : List String := ["sum", "min", "max", "avg", "median"]

def COMPARISONS : List String := ["==", "!=", "<", "<=", ">", ">="]

/-- `t[1] or 'the end'`. -/
def found (p : Parser) : String :=
  if (p.peek 0).text = "" then "the end" else (p.peek 0).text

def fail (what : String) : Parse α := fun p =>
  (.error (.failed ⟨p.text, (p.peek 0).pos, what ++ ", found " ++ repr (found p)⟩), p)

/-- `take` of a value. -/
def takeValue (value : String) : Parse Token := do
  let p ← parser
  if !p.at' value 0 then Program.stop (.failed
    ⟨p.text, (p.peek 0).pos, "expected " ++ repr value ++ ", found " ++ repr (found p)⟩)
  else take

/-- One level deeper, for the length of a parse, refused past the most. -/
def nest (parse : Parse α) : Parse α := do
  Program.modify fun p => { p with depth := p.depth + 1 }
  let p ← parser
  if MAX_NESTING < p.depth then
    fail ("the expression nests deeper than " ++ toString MAX_NESTING ++ " levels")
  else do
    let a ← parse
    Program.modify fun p => { p with depth := p.depth - 1 }
    return a

/-- `bool(self.at(value) and self.take())`. -/
def tookValue (value : String) : Parse Bool := do
  let p ← parser
  if p.at' value 0 then do
    let _ ← take
    return true
  else return false

/-- A comma, unless what closes the list is next. -/
def comma (close : String) : Parse Unit := do
  let p ← parser
  if !p.at' close 0 then do
    let _ ← takeValue ","
    return ()
  else return ()

/-- Whether an operator of those given is next. -/
def operator (p : Parser) (of : List String) : Bool :=
  (p.peek 0).kind = .op && of.contains (p.peek 0).text

/-- Whether a comparison, `in` or `is` is next. -/
def compares (p : Parser) : Bool :=
  operator p COMPARISONS || p.at' "in" 0 || p.at' "is" 0

/-- The node named and what it holds. -/
def node (name : String) (items : List Node) : Node := .tuple (.text name :: items)

def bin (op : String) (left right : Node) : Node := node "bin" [.text op, left, right]

/-- `node[0] == "path"`. -/
def isPath : Node → Bool
  | .tuple (.text name :: _) => name = "path"
  | _ => false

/-- `node is None`. -/
def isNone : Node → Bool
  | .none => true
  | _ => false

/-- `int(text) if "." not in text else text`. -/
def number (text : String) : Node :=
  if !text.toList.contains '.' then .int (digitsValue text.toList) else .text text

/-- The names of `changed_since`, up to its bracket. -/
def names : Nat → List Node → Parse (List Node)
  | 0, _ => unfinished
  | n + 1, names' => do
      let p ← parser
      if ! p.at' "]" 0 then do
        let t ← take
        comma "]"
        names n (names' ++ [.text t.text])
      else return names'

/-- What follows a word, where it is next. -/
def after (value : String) (parse : Parse Node) : Parse Node := do
  if ← tookValue value then parse else return .none

/-- What stands before a word, unless it is next. -/
def unlessNext (value : String) (parse : Parse Node) : Parse Node := do
  let p ← parser
  if p.at' value 0 then return .none else parse

mutual

def expr : Nat → Parse Node
  | 0 => unfinished
  | n + 1 => nest (nestedExpr n)

def nestedExpr : Nat → Parse Node
  | 0 => unfinished
  | n + 1 => do
      let p ← parser
      if p.at' "if" 0 then do
        let _ ← take
        let cond ← expr n
        let _ ← takeValue "then"
        let a ← expr n
        let _ ← takeValue "else"
        let b ← expr n
        return node "if" [cond, a, b]
      else implies n

def implies : Nat → Parse Node
  | 0 => unfinished
  | n + 1 => do
      let left ← or_ n
      let p ← parser
      if p.at' "implies" 0 then do
        let _ ← take
        let right ← implies n
        return bin "implies" left right
      else return left

def or_ : Nat → Parse Node
  | 0 => unfinished
  | n + 1 => do
      let left ← and_ n
      orFrom n left

def orFrom : Nat → Node → Parse Node
  | 0, _ => unfinished
  | n + 1, left => do
      let p ← parser
      if p.at' "or" 0 then do
        let _ ← take
        let right ← and_ n
        orFrom n (bin "or" left right)
      else return left

def and_ : Nat → Parse Node
  | 0 => unfinished
  | n + 1 => do
      let left ← comparison n
      andFrom n left

def andFrom : Nat → Node → Parse Node
  | 0, _ => unfinished
  | n + 1, left => do
      let p ← parser
      if p.at' "and" 0 then do
        let _ ← take
        let right ← comparison n
        andFrom n (bin "and" left right)
      else return left

def comparison : Nat → Parse Node
  | 0 => unfinished
  | n + 1 => do
      let left ← additive n
      let p ← parser
      if compares p then do
        let compared ← compared n left
        let p ← parser
        if compares p then fail "a comparison does not chain" else return compared
      else return left

/-- A comparison, `in` or `is null` of what is on its left. -/
def compared : Nat → Node → Parse Node
  | 0, _ => unfinished
  | n + 1, left => do
      let p ← parser
      if operator p COMPARISONS then do
        let op ← take
        let right ← additive n
        return bin op.text left right
      else if p.at' "in" 0 then do
        let _ ← take
        let right ← additive n
        return node "in" [left, right]
      else do
        let _ ← take
        let negated ← tookValue "not"
        let _ ← takeValue "null"
        return node "isnull" [left, .bool negated]

def additive : Nat → Parse Node
  | 0 => unfinished
  | n + 1 => do
      let left ← multiplicative n
      additiveFrom n left

def additiveFrom : Nat → Node → Parse Node
  | 0, _ => unfinished
  | n + 1, left => do
      let p ← parser
      if operator p ["+", "-"] then do
        let op ← take
        let right ← multiplicative n
        additiveFrom n (bin op.text left right)
      else return left

def multiplicative : Nat → Parse Node
  | 0 => unfinished
  | n + 1 => do
      let left ← unary n
      multiplicativeFrom n left

def multiplicativeFrom : Nat → Node → Parse Node
  | 0, _ => unfinished
  | n + 1, left => do
      let p ← parser
      if operator p ["*", "/"] then do
        let op ← take
        let right ← unary n
        multiplicativeFrom n (bin op.text left right)
      else return left

def unary : Nat → Parse Node
  | 0 => unfinished
  | n + 1 => do
      let p ← parser
      if !( p.at' "not" 0 || p.at' "-" 0) then postfixed n else nest (negated n)

/-- `not` or `-` and what it is of. -/
def negated : Nat → Parse Node
  | 0 => unfinished
  | n + 1 => do
      let t ← take
      let e ← unary n
      return node (if t.text = "not" then "not" else "neg") [e]

def postfixed : Nat → Parse Node
  | 0 => unfinished
  | n + 1 => do
      let node ← primary n
      postfixedFrom n node

def postfixedFrom : Nat → Node → Parse Node
  | 0, _ => unfinished
  | n + 1, held => do
      let p ← parser
      if p.at' "." 0 then do
        let _ ← take
        let p ← parser
        if (p.peek 0).kind ≠ .name then fail "a member name follows `.`"
        else do
          let member ← take
          postfixedFrom n (node "path" [held, .text member.text])
      else if p.at' "(" 0 && isPath held then do
        let args ← arguments n
        postfixedFrom n (node "call" [held, .list args])
      else return held

def arguments : Nat → Parse (List Node)
  | 0 => unfinished
  | n + 1 => do
      let _ ← takeValue "("
      let args ← itemsUntil n ")" []
      let _ ← takeValue ")"
      return args

/-- The expressions of a list, up to what closes it. -/
def itemsUntil : Nat → String → List Node → Parse (List Node)
  | 0, _, _ => unfinished
  | n + 1, close, items => do
      let p ← parser
      if !p.at' close 0 then do
        let e ← expr n
        comma close
        itemsUntil n close (items ++ [e])
      else return items

def primary : Nat → Parse Node
  | 0 => unfinished
  | n + 1 => do
      let p ← parser
      let t := p.peek 0
      if p.params && p.at' ":" 0 && (p.peek 1).kind = .name then do
        let _ ← take
        let name ← take
        return node "param" [.text name.text]
      else if t.kind = .num then do
        let _ ← take
        let p ← parser
        if (p.peek 0).kind = .name && UNITS.contains (p.peek 0).text then do
          let unit ← take
          return node "dur" [number t.text, .text unit.text]
        else return node "num" [number t.text]
      else if t.kind = .str then do
        let _ ← take
        return node "str" [.text (String.ofList (t.text.toList.drop 1).dropLast)]
      else if t.kind = .name then
        if t.text = "true" || t.text = "false" then do
          let _ ← take
          return node "bool" [.bool (t.text = "true")]
        else if t.text.length = 3 && t.text.toList.all Char.isUpper && (p.peek 1).kind = .num then do
          let _ ← take
          let amount ← take
          return node "money" [.text t.text, .text amount.text]
        else if KEYWORDS.contains t.text then fail "an operand"
        else do
          let _ ← take
          let p ← parser
          if p.at' "(" 0 then call n t.text else return node "name" [.text t.text]
      else if p.at' "(" 0 then do
        let _ ← take
        let inner ← expr n
        let _ ← takeValue ")"
        return inner
      else if p.at' "\x7b" 0 then do
        let _ ← take
        let items ← itemsUntil n "\x7d" []
        let _ ← takeValue "\x7d"
        return node "set" [.list items]
      else fail "an operand"

def call : Nat → String → Parse Node
  | 0, _ => unfinished
  | n + 1, fn => do
      let p ← parser
      let comprehension := ( p.at' "distinct" 1 && (p.peek 2).kind = .name && p.at' "in" 3) ||
        ((p.peek 1).kind = .name && p.at' "in" 2)
      if AGGREGATES.contains fn && !comprehension && ( p.at' "where" 1 || p.at' "distinct" 1) then
        ownRows n fn
      else if AGGREGATES.contains fn && comprehension then overItems n fn
      else if fn = "metric" then metric n
      else if fn = "changed_since" then do
        let _ ← takeValue "("
        let _ ← takeValue "["
        let names ← names n []
        let _ ← takeValue "]"
        let _ ← takeValue ","
        let event ← expr n
        let _ ← takeValue ")"
        return node "changed" [.list names, event]
      else do
        let args ← arguments n
        return node "call" [node "name" [.text fn], .list args]

/-- A metric's aggregate over its own rows. -/
def ownRows : Nat → String → Parse Node
  | 0, _ => unfinished
  | n + 1, fn => do
      let _ ← takeValue "("
      let distinct ← tookValue "distinct"
      let body ← unlessNext "where" (expr n)
      let where' ← after "where" (expr n)
      let _ ← takeValue ")"
      return node "agg" [.text fn, .bool distinct, .none, .none, where', body]

/-- An aggregate over a collection's items. -/
def overItems : Nat → String → Parse Node
  | 0, _ => unfinished
  | n + 1, fn => do
      let _ ← takeValue "("
      let distinct ← tookValue "distinct"
      let var ← take
      let _ ← takeValue "in"
      let collection ← additive n
      let where' ← after "where" (expr n)
      let body ← after ":" (expr n)
      if isNone body && (BODIED.contains fn || distinct) then
        fail ("a body after ':', which " ++ (if distinct then "a distinct count" else fn) ++
          " requires")
      else do
        let _ ← takeValue ")"
        return node "agg" [.text fn, .bool distinct, .text var.text, collection, where', body]

def metric : Nat → Parse Node
  | 0 => unfinished
  | n + 1 => do
      let _ ← takeValue "("
      let name ← additive n
      let (binds, window, fresh) ← metricFrom n [] .none .none
      let _ ← takeValue ")"
      return node "metric" [name, .list binds, window, fresh]

def metricFrom : Nat → List Node → Node → Node → Parse (List Node × Node × Node)
  | 0, _, _, _ => unfinished
  | n + 1, binds, window, fresh => do
      let p ← parser
      if p.at' "," 0 then do
        let _ ← take
        let p ← parser
        if p.at' "over" 0 then do
          let _ ← take
          let _ ← takeValue "last"
          let window ← primary n
          metricFrom n binds window fresh
        else if p.at' "fresh" 0 then do
          let _ ← take
          let fresh ← primary n
          metricFrom n binds window fresh
        else do
          let dim ← take
          let _ ← takeValue ":="
          let e ← expr n
          metricFrom n (binds ++ [.tuple [.text dim.text, e]]) window fresh
      else return (binds, window, fresh)

end

/-- The turns a text's parse is given. -/
def turns (toks : List Token) : Nat := 32 * (toks.length + 1)

def parse (text : String) (params : Bool) : Except Halt Node := do
  let toks ← (tokenize text).mapError .failed
  match expr (turns toks) { text, toks, params } with
  | (.error halt, _) => .error halt
  | (.ok node, p) =>
      if (p.peek 0).kind ≠ .end' then
        .error (.failed ⟨p.text, (p.peek 0).pos,
          "the end of the expression, found " ++ repr (found p)⟩)
      else if MAX_DEPTH < node.depth then
        .error (.failed ⟨p.text, (p.peek 0).pos, "the expression is deeper than " ++
          toString MAX_DEPTH ++
          " levels; a long list of alternatives is written x in \x7ba, b, …\x7d"⟩)
      else .ok node

def parseFilter (text : String) : Except Halt Node := parse text true

end Reference

end ObjectFlow
