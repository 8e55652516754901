import ObjectFlow.Base.Program
import ObjectFlow.Expr

/-!
# Tokens

What both parsers of the expression language read: the text as tokens, each of
its kind and its place, and a parser at one of them.
-/

namespace ObjectFlow

/-- The character that opens and closes a string. -/
def QUOTE : Char := Char.ofNat 34

/-- The character that escapes the next in a string. -/
def BACKSLASH : Char := Char.ofNat 92

def APOSTROPHE : Char := Char.ofNat 39

/-- A token's kind. -/
inductive TokenKind where
  | str | num | name | op | end'
deriving DecidableEq

structure Token where
  kind : TokenKind
  text : String
  pos : Nat
deriving DecidableEq

/-- The token past the text's end. -/
def Token.endOf (text : String) : Token := ⟨.end', "", text.length⟩

/-- Why an expression does not parse, and where. -/
structure ParseError where
  text : String
  /-- The character offset where parsing stopped. -/
  pos : Nat
  message : String
deriving DecidableEq

/-- A parser at one of a text's tokens. -/
structure Parser where
  text : String
  toks : List Token
  i : Nat := 0
  /-- How deeply the parse has nested. -/
  depth : Nat := 0
  /-- Whether `:name` is a parameter, a read's filter's alone. -/
  params : Bool

namespace Parser

/-- The token `k` past the parser's, the last past the end. -/
def peek (p : Parser) (k : Nat) : Token :=
  (p.toks[min (p.i + k) (p.toks.length - 1)]?).getD (.endOf p.text)

/-- Whether the token `k` past the parser's is an operator or a name so
written. -/
def at' (p : Parser) (value : String) (k : Nat) : Bool :=
  let t := p.peek k
  t.text = value && (t.kind = .op || t.kind = .name)

end Parser

/-- Why a parse stopped: it failed, or its turns ran out. -/
inductive Halt where
  | failed (e : ParseError)
  | unfinished

/-- What a parser reads. -/
abbrev Parse (α : Type) := Base.Program Parser Halt α

/-- The parser as it stands. -/
def Parse.parser : Parse Parser := Base.Program.read id

/-- The parser's token, and the parser past it. -/
def Parse.take : Parse Token :=
  Base.Program.draw fun p => (p.peek 0, { p with i := p.i + 1 })

/-- A parse with no turn left. -/
def Parse.unfinished {α : Type} : Parse α := Base.Program.stop .unfinished

/-- The most an expression's parse may nest. -/
def MAX_NESTING : Nat := 64

/-- The deepest an expression's tree may be, every node a level. -/
def MAX_DEPTH : Nat := 128

/-- The units a duration is written in. -/
def UNITS : List String := ["s", "min", "h", "day", "days", "week", "weeks"]

/-- The names no expression may bind. -/
def KEYWORDS : List String :=
  ["and", "or", "not", "implies", "in", "is", "null", "if", "then", "else", "true", "false"]

/-- The number a text of digits writes. -/
def digitsValue (digits : List Char) : Nat :=
  digits.foldl (fun n c => 10 * n + (c.toNat - '0'.toNat)) 0

/-- How many characters a number starting a text takes: its digits, and a point
and the digits after it. -/
def numLength (chars : List Char) : Nat :=
  let whole := chars.takeWhile Char.isDigit
  match chars.drop whole.length with
  | '.' :: d :: rest =>
      if d.isDigit then whole.length + 1 + ((d :: rest).takeWhile Char.isDigit).length
      else whole.length
  | _ => whole.length

/-- Whether a character may stand in a name. -/
def nameChar (c : Char) : Bool := c.isAlphanum || c = '_'

end ObjectFlow
