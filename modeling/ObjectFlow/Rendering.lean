import ObjectFlow.Parse

/-!
# Expressions written out

The text of a tree: its tokens in order, with parentheses wherever an operand
binds looser than its place takes, and wherever a style adds more.  Beside the
tokens stands how many levels of nesting a parser has open at most while it reads
them.
-/

namespace ObjectFlow

/-- A token without its place. -/
structure Lexeme where
  kind : TokenKind
  text : String
deriving DecidableEq

def Token.lexeme (t : Token) : Lexeme := ⟨t.kind, t.text⟩

namespace Lexeme

def op (text : String) : Lexeme := ⟨.op, text⟩

def word (text : String) : Lexeme := ⟨.name, text⟩

/-- The text's end. -/
def last : Lexeme := ⟨.end', ""⟩

/-- Whether it is an operator or a name so written. -/
def is (l : Lexeme) (value : String) : Bool := l.text = value && (l.kind = .op || l.kind = .name)

end Lexeme

/-- The kind of the one token a text is. -/
def tokenKind (text : String) : Option TokenKind :=
  match scan text.toList with
  | some (kind, n) => if n = text.toList.length then kind else none
  | none => none

/-- The token a text is. -/
def lexemeOf (text : String) : Lexeme := ⟨(tokenKind text).getD .name, text⟩

/-- A string between its quotes. -/
def betweenQuotes (s : String) : String := String.ofList (QUOTE :: s.toList ++ [QUOTE])

/-- A number as it is written. -/
def Number.numeral : Number → String
  | .int n => toString n
  | .decimal text => text

/-! ### Places and what binds in them -/

/-- How tightly a tree's outermost construct binds. -/
def BinOp.rank : BinOp → Nat
  | .implies => 1
  | .or => 2
  | .and => 3
  | .eq | .ne | .lt | .le | .gt | .ge => 4
  | .add | .sub => 5
  | .mul | .div => 6

/-- How tightly what stands on its left binds at least. -/
def BinOp.leftRank : BinOp → Nat
  | .implies => 2
  | .or => 2
  | .and => 3
  | .eq | .ne | .lt | .le | .gt | .ge => 5
  | .add | .sub => 5
  | .mul | .div => 6

/-- How tightly what stands on its right binds at least. -/
def BinOp.rightRank : BinOp → Nat
  | .implies => 1
  | .or => 3
  | .and => 4
  | .eq | .ne | .lt | .le | .gt | .ge => 5
  | .add | .sub => 6
  | .mul | .div => 7

def BinOp.lexeme : BinOp → Lexeme
  | .implies => .word "implies"
  | .or => .word "or"
  | .and => .word "and"
  | op => .op op.text

/-- How tightly a tree binds: from an `if`, whose last part reaches as far as it
can, to what stands alone. -/
def Expr.rank : Expr → Nat
  | .if' .. => 0
  | .bin op _ _ => op.rank
  | .in' .. | .isNull .. => 4
  | .not _ | .neg _ => 7
  | .path .. | .call (.path _ _) _ => 8
  | _ => 9

/-! ### What is written -/

/-- Tokens written, and how many levels a parser opens to read them. -/
structure Rendered where
  toks : List Lexeme
  levels : Nat

namespace Rendered

instance : Append Rendered := ⟨fun a b => ⟨a.toks ++ b.toks, max a.levels b.levels⟩⟩

def of (toks : List Lexeme) : Rendered := ⟨toks, 0⟩

/-- One level deeper. -/
def deeper (w : Rendered) : Rendered := ⟨w.toks, w.levels + 1⟩

def inParens (w : Rendered) : Rendered := of [.op "("] ++ w.deeper ++ of [.op ")"]

/-- A list's items. -/
def commas : List Rendered → Rendered
  | [] => of []
  | [w] => w
  | w :: rest => w ++ of [.op ","] ++ commas rest

end Rendered

/-- Whether tokens start as the items of an aggregate do: a name and `in`. -/
def comprehends : List Lexeme → Bool
  | l :: m :: _ => l.kind = .name && m.is "in"
  | _ => false

/-- Whether tokens after an aggregate's name and its parenthesis start another
form of it than a call. -/
def opensRows (toks : List Lexeme) : Bool :=
  toks.head?.any (fun l => l.is "where" || l.is "distinct") || comprehends toks

/-- Whether tokens after `distinct` start another form than an aggregate's own
rows. -/
def opensItems (toks : List Lexeme) : Bool :=
  toks.head?.any (·.is "where") || comprehends toks

/-- Which parentheses are written beside those an operand's binding needs. -/
structure Style where
  /-- Around an operand of a place, by the place and the tree. -/
  adds : Nat → Expr → Bool
  /-- Around what would start another form of an aggregate. -/
  guards : Bool := true

namespace Style

variable (s : Style)

/-- Every operand in parentheses. -/
def full : Style := { adds := fun _ _ => true }

/-- Every parenthesis left out that may be. -/
def minimal : Style := { adds := fun _ _ => false }

/-- Every parenthesis left out that binding does not need. -/
def bare : Style := { adds := fun _ _ => false, guards := false }

/-- An operand, of a tree written so. -/
def operand (place : Nat) (e : Expr) (w : Rendered) : Rendered :=
  if s.adds place e || decide (e.rank < place) then w.inParens else w

/-- An expression of its own. -/
def whole (e : Expr) (w : Rendered) : Rendered := (s.operand 0 e w).deeper

/-- An expression of its own that is not to start another form. -/
def guarded (opens : List Lexeme → Bool) (e : Expr) (w : Rendered) : Rendered :=
  let o := s.operand 0 e w
  (if s.guards && opens o.toks then o.inParens else o).deeper

/-- What is called: a name as it is, a path as an operand. -/
def callee (f : Expr) (w : Rendered) : Rendered :=
  match f with
  | .name _ => w
  | _ => s.operand 8 f w

end Style

/-- Whether a call's first argument could start another form of an aggregate. -/
def Expr.namesAggregate : Expr → Bool
  | .name n => (AggKind.named n).isSome
  | _ => false

/-- The names in the brackets of `changed_since`. -/
def namesWritten : List String → List Lexeme
  | [] => []
  | [n] => [lexemeOf n]
  | n :: rest => lexemeOf n :: .op "," :: namesWritten rest

section

variable (s : Style)

mutual

/-- A tree written out. -/
def Expr.rendered : Expr → Rendered
  | .num n => .of [⟨.num, n.numeral⟩]
  | .str t => .of [⟨.str, betweenQuotes t⟩]
  | .bool b => .of [.word (if b then "true" else "false")]
  | .dur n unit => .of [⟨.num, n.numeral⟩, .word unit]
  | .money currency amount => .of [.word currency, ⟨.num, amount⟩]
  | .name n => .of [.word n]
  | .path b member => s.operand 8 b b.rendered ++ .of [.op ".", .word member]
  | .call f args =>
      s.callee f f.rendered ++ .of [.op "("] ++ .commas (argsRendered f.namesAggregate args) ++
        .of [.op ")"]
  | .agg kind distinct (some var) collection filter body =>
      .of (.word kind.text :: .op "(" :: if distinct then [.word "distinct"] else []) ++
        .of [.word var, .word "in"] ++ givenRendered (s.operand 5) collection ++
        givenRendered (fun e w => .of [.word "where"] ++ s.whole e w) filter ++
        givenRendered (fun e w => .of [.op ":"] ++ s.whole e w) body ++ .of [.op ")"]
  | .agg kind distinct none _ filter body =>
      .of (.word kind.text :: .op "(" :: if distinct then [.word "distinct"] else []) ++
        givenRendered (s.guarded opensItems) body ++
        givenRendered (fun e w => .of [.word "where"] ++ s.whole e w) filter ++ .of [.op ")"]
  | .metric name binds window fresh =>
      .of [.word "metric", .op "("] ++ s.operand 5 name name.rendered ++ bindsRendered binds ++
        givenRendered (fun e w => .of [.op ",", .word "over", .word "last"] ++ s.operand 9 e w)
          window ++
        givenRendered (fun e w => .of [.op ",", .word "fresh"] ++ s.operand 9 e w) fresh ++
        .of [.op ")"]
  | .changed names e =>
      .of ([.word "changed_since", .op "(", .op "["] ++ namesWritten names ++ [.op "]", .op ","]) ++
        s.whole e e.rendered ++ .of [.op ")"]
  | .set items => .of [.op "\x7b"] ++ .commas (argsRendered false items) ++ .of [.op "\x7d"]
  | .not e => (.of [.word "not"] ++ s.operand 7 e e.rendered).deeper
  | .neg e => (.of [.op "-"] ++ s.operand 7 e e.rendered).deeper
  | .isNull e negated =>
      s.operand 5 e e.rendered ++
        .of (.word "is" :: (if negated then [.word "not"] else []) ++ [.word "null"])
  | .in' l r => s.operand 5 l l.rendered ++ .of [.word "in"] ++ s.operand 5 r r.rendered
  | .bin op l r =>
      s.operand op.leftRank l l.rendered ++ .of [op.lexeme] ++
        s.operand op.rightRank r r.rendered
  | .if' c a b =>
      .of [.word "if"] ++ s.whole c c.rendered ++ .of [.word "then"] ++ s.whole a a.rendered ++
        .of [.word "else"] ++ s.whole b b.rendered
  | .param n => .of [.op ":", .word n]
  | .lit _ => .of []

/-- A list's items, the first not to start another form where that is asked. -/
def argsRendered : Bool → List Expr → List Rendered
  | _, [] => []
  | guard, e :: rest =>
      (if guard then s.guarded opensRows e e.rendered else s.whole e e.rendered) ::
        argsRendered false rest

/-- What a metric's call binds. -/
def bindsRendered : List (String × Expr) → Rendered
  | [] => .of []
  | (d, e) :: rest =>
      .of [.op ",", lexemeOf d, .op ":="] ++ s.whole e e.rendered ++ bindsRendered rest

/-- A part that may be left out. -/
def givenRendered (place : Expr → Rendered → Rendered) : Option Expr → Rendered
  | none => .of []
  | some e => place e e.rendered

end

/-- An expression written out. -/
def Expr.rendering (e : Expr) : Rendered := s.whole e (e.rendered s)

end

/-- Tokens as a text, a blank after each. -/
def spaced (toks : List Lexeme) : String :=
  String.ofList (toks.flatMap fun l => l.text.toList ++ [' '])

/-! ### What the grammar produces -/

/-- Whether a text is a name token's. -/
def isNamed (n : String) : Bool := tokenKind n = some .name

/-- Whether a name stands for itself. -/
def isBare (n : String) : Bool := isNamed n && !KEYWORDS.contains n

/-- Whether a number is what a token of it reads as. -/
def Number.isRead (n : Number) : Bool :=
  tokenKind n.numeral = some .num && Number.read n.numeral = n

mutual

/-- Whether the grammar produces a tree: its names, numbers and strings are
tokens', and its parts those a form takes. -/
def Expr.grammatical (params : Bool) : Expr → Bool
  | .num n => n.isRead
  | .str t => tokenKind (betweenQuotes t) = some .str
  | .bool _ => true
  | .dur n unit => n.isRead && UNITS.contains unit
  | .money currency amount =>
      currency.length = 3 && currency.toList.all Char.isUpper && isNamed currency &&
        tokenKind amount = some .num
  | .name n => isBare n
  | .path b member => b.grammatical params && isNamed member
  | .call (.name f) args =>
      isBare f && f ≠ "metric" && f ≠ "changed_since" && allGrammatical params args
  | .call (.path b member) args =>
      b.grammatical params && isNamed member && allGrammatical params args
  | .call _ _ => false
  | .agg kind distinct (some var) (some collection) filter body =>
      isNamed var && (distinct || var ≠ "distinct") && collection.grammatical params &&
        givenGrammatical params filter && givenGrammatical params body &&
        (body.isSome || !(kind.bodied || distinct))
  | .agg _ _ (some _) none _ _ => false
  | .agg _ distinct none none filter body =>
      givenGrammatical params filter && givenGrammatical params body &&
        (distinct || body.isNone) && (body.isSome || filter.isSome)
  | .agg _ _ none (some _) _ _ => false
  | .metric name binds window fresh =>
      name.grammatical params && bindsGrammatical params binds && givenGrammatical params window &&
        givenGrammatical params fresh
  | .changed names e =>
      names.all (fun n => (tokenKind n).isSome && n ≠ "]") && e.grammatical params
  | .set items => allGrammatical params items
  | .not e | .neg e | .isNull e _ => e.grammatical params
  | .in' l r | .bin _ l r => l.grammatical params && r.grammatical params
  | .if' c a b => c.grammatical params && a.grammatical params && b.grammatical params
  | .param n => params && isNamed n
  | .lit _ => false

def allGrammatical (params : Bool) : List Expr → Bool
  | [] => true
  | e :: rest => e.grammatical params && allGrammatical params rest

def bindsGrammatical (params : Bool) : List (String × Expr) → Bool
  | [] => true
  | (d, e) :: rest =>
      (tokenKind d).isSome && d ≠ "over" && d ≠ "fresh" && e.grammatical params &&
        bindsGrammatical params rest

def givenGrammatical (params : Bool) : Option Expr → Bool
  | none => true
  | some e => e.grammatical params

end

end ObjectFlow
