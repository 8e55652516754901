import ObjectFlow.Lexing
import ObjectFlow.ParseEnds
import ObjectFlow.ParsersMirror

/-!
# Where the two parsers agree

Each parser accepts a text where it reads the text's tokens, the tokens are an
expression and the expression is no deeper than it allows.  The expression is
the same: they part at the two spellings of their tokenizers, and at a metric's
bindings, which the reference parser's walk counts as a level.
-/

namespace ObjectFlow

open Base

/-! ### The two depths -/

mutual

/-- The depth of a tree as the reference parser walks it: the pair a metric's
binding is stands a level above its expression. -/
def Expr.levels : Expr → Nat
  | .num _ | .str _ | .bool _ | .dur .. | .money .. | .name _ | .param _ | .lit _ => 1
  | .path b _ | .not b | .neg b | .isNull b _ | .changed _ b => b.levels + 1
  | .call f args => max f.levels (levelsOf args) + 1
  | .agg _ _ _ collection filter body =>
      max (levelsOfGiven collection) (max (levelsOfGiven filter) (levelsOfGiven body)) + 1
  | .metric name binds window fresh =>
      max name.levels
        (max (levelsOfBinds binds) (max (levelsOfGiven window) (levelsOfGiven fresh))) + 1
  | .set items => levelsOf items + 1
  | .in' a b | .bin _ a b => max a.levels b.levels + 1
  | .if' c a b => max c.levels (max a.levels b.levels) + 1

def levelsOf : List Expr → Nat
  | [] => 0
  | e :: rest => max e.levels (levelsOf rest)

def levelsOfBinds : List (String × Expr) → Nat
  | [] => 0
  | b :: rest => max (b.2.levels + 1) (levelsOfBinds rest)

def levelsOfGiven : Option Expr → Nat
  | none => 0
  | some e => e.levels

end

/-- How the wire encodes a value: as no node, nor a list of nodes. -/
structure Wire where
  encode : Value → Node
  flat : ∀ v, walked [encode v] = 0

/-- A tree is a tuple that is named. -/
theorem Expr.tree_tuple (encode : Value → Node) (e : Expr) :
    ∃ name rest, e.tree encode = .tuple (.text name :: rest) := by
  cases e <;> exact ⟨_, _, rfl⟩

section

variable (encode : Value → Node)

/-- A tree among a tuple's elements. -/
theorem walked_tree (e : Expr) (rest : List Node) :
    walked (e.tree encode :: rest) = max (e.tree encode).depth (walked rest) := by
  obtain ⟨name, items, htree⟩ := e.tree_tuple encode
  rw [htree, walked]

theorem listed_tree (e : Expr) (rest : List Node) :
    listed (e.tree encode :: rest) = max (e.tree encode).depth (listed rest) := by
  obtain ⟨name, items, htree⟩ := e.tree_tuple encode
  rw [htree, listed]

theorem depth_node (name : String) (rest : List Node) :
    (Reference.node name rest).depth = walked rest + 1 := rfl

theorem walked_text (s : String) (rest : List Node) : walked (.text s :: rest) = walked rest := rfl

theorem walked_bool (b : Bool) (rest : List Node) : walked (.bool b :: rest) = walked rest := rfl

theorem walked_list (items rest : List Node) :
    walked (.list items :: rest) = max (listed items) (walked rest) := rfl

theorem walked_number (n : Number) (rest : List Node) :
    walked (n.node :: rest) = walked rest := by
  cases n with
  | int n => rfl
  | decimal text =>
      unfold Number.node
      dsimp only
      split <;> rfl

theorem walked_var (var : Option String) (rest : List Node) :
    walked ((var.map Node.text).getD .none :: rest) = walked rest := by
  cases var <;> rfl

theorem listed_names (names : List String) : listed (names.map Node.text) = 0 := by
  induction names with
  | nil => rfl
  | cons name rest ih => exact ih

end

mutual

/-- **The reference parser's depth** of a tree is the expression's levels. -/
theorem depth_tree (wire : Wire) (e : Expr) : (e.tree wire.encode).depth = e.levels := by
  cases e with
  | num n => rw [Expr.tree, Expr.levels, depth_node, walked_number]; rfl
  | str s | bool b | money currency amount | name n | param n =>
      rw [Expr.tree, Expr.levels]
      rfl
  | dur n unit => rw [Expr.tree, Expr.levels, depth_node, walked_number]; rfl
  | lit v => rw [Expr.tree, Expr.levels, depth_node, wire.flat]
  | path b m =>
      rw [Expr.tree, Expr.levels, depth_node, walked_tree, depth_tree wire b]
      simp [walked]
  | call f args =>
      rw [Expr.tree, Expr.levels, depth_node, walked_tree, walked_list, depth_tree wire f,
        listed_trees wire args]
      simp [walked]
  | agg kind distinct var collection filter body =>
      rw [Expr.tree, Expr.levels, depth_node, walked_text, walked_bool, walked_var,
        walked_given wire collection, walked_given wire filter, walked_given wire body]
      simp [walked]
  | metric name binds window fresh =>
      rw [Expr.tree, Expr.levels, depth_node, walked_tree, walked_list, depth_tree wire name,
        listed_bound wire binds, walked_given wire window, walked_given wire fresh]
      simp [walked]
  | changed names b =>
      rw [Expr.tree, Expr.levels, depth_node, walked_list, listed_names, walked_tree,
        depth_tree wire b]
      simp [walked]
  | set items =>
      rw [Expr.tree, Expr.levels, depth_node, walked_list, listed_trees wire items]
      simp [walked]
  | not b | neg b =>
      rw [Expr.tree, Expr.levels, depth_node, walked_tree, depth_tree wire b]
      simp [walked]
  | isNull b negated =>
      rw [Expr.tree, Expr.levels, depth_node, walked_tree, walked_bool, depth_tree wire b]
      simp [walked]
  | in' a b =>
      rw [Expr.tree, Expr.levels, depth_node, walked_tree, walked_tree, depth_tree wire a,
        depth_tree wire b]
      simp [walked]
  | bin op a b =>
      rw [Expr.tree, Expr.levels, Reference.bin, depth_node, walked_text, walked_tree,
        walked_tree, depth_tree wire a, depth_tree wire b]
      simp [walked]
  | if' c a b =>
      rw [Expr.tree, Expr.levels, depth_node, walked_tree, walked_tree, walked_tree,
        depth_tree wire c, depth_tree wire a, depth_tree wire b]
      simp [walked]

theorem listed_trees (wire : Wire) (es : List Expr) :
    listed (trees wire.encode es) = levelsOf es := by
  cases es with
  | nil => rw [trees, levelsOf]; rfl
  | cons e rest =>
      rw [trees, levelsOf, listed_tree, depth_tree wire e, listed_trees wire rest]

theorem listed_bound (wire : Wire) (binds : List (String × Expr)) :
    listed (treesBound wire.encode binds) = levelsOfBinds binds := by
  match binds with
  | [] => rw [treesBound, levelsOfBinds]; rfl
  | (dim, e) :: rest =>
      rw [treesBound, levelsOfBinds, listed, Node.depth, walked_tree, depth_tree wire e,
        listed_bound wire rest]
      simp [walked]

theorem walked_given (wire : Wire) (e : Option Expr) (rest : List Node) :
    walked (treeGiven wire.encode e :: rest) = max (levelsOfGiven e) (walked rest) := by
  cases e with
  | none => rw [treeGiven, levelsOfGiven, Nat.zero_max]; rfl
  | some e => rw [treeGiven, levelsOfGiven, walked_tree, depth_tree wire e]

end

/-! ### What each parser accepts -/

/-- The parser at the first of what a text writes. -/
def Written.parser (w : Written) (text : String) (params : Bool) : Parser :=
  { text, toks := w.toks, params }

/-- A text writes an expression: its tokens are one, up to the last. -/
def Writes (text : String) (params : Bool) (w : Written) (e : Expr) : Prop :=
  written text = some w ∧ ∃ p, Parser.expr (turns w.toks) (w.parser text params) = (.ok e, p) ∧
    (p.peek 0).kind = .end'

theorem Writes.unique {text : String} {params : Bool} {w w' : Written} {e e' : Expr}
    (h : Writes text params w e) (h' : Writes text params w' e') : w' = w ∧ e' = e := by
  obtain ⟨hw, p, hrun, -⟩ := h
  obtain ⟨hw', p', hrun', -⟩ := h'
  rw [hw] at hw'
  cases hw'
  rw [hrun] at hrun'
  cases hrun'
  exact ⟨rfl, rfl⟩

theorem written_ended {text : String} {w : Written} (h : written text = some w) (params : Bool) :
    (w.parser text params).Ended :=
  (written_wellFormed h).ends

theorem written_lexical {text : String} {w : Written} (h : written text = some w)
    (params : Bool) : (w.parser text params).Lexical :=
  (written_wellFormed h).names

/-- The core's tokens are what the text writes. -/
theorem tokenize_ok {text : String} {toks : List Token} (h : tokenize text = .ok toks) :
    ∃ w, written text = some w ∧ w.separated = false ∧ toks = w.toks := by
  have hread := tokenize_toOption text
  rw [h] at hread
  obtain ⟨w, hw, hcore⟩ := Option.bind_eq_some_iff.mp hread.symm
  unfold Written.core at hcore
  split at hcore
  case isTrue => cases hcore
  case isFalse hseparated => exact ⟨w, hw, by simpa using hseparated, by simpa using hcore.symm⟩

theorem tokenize_of_written {text : String} {w : Written} (hw : written text = some w)
    (hseparated : w.separated = false) : tokenize text = .ok w.toks := by
  have hread := tokenize_toOption text
  rw [hw, Option.bind_some, Written.core, hseparated] at hread
  cases htokens : tokenize text with
  | error e =>
      rw [htokens] at hread
      cases hread
  | ok toks =>
      rw [htokens] at hread
      exact congrArg Except.ok (Option.some.inj hread)

/-- The reference parser's tokens are what the text writes. -/
theorem reference_tokenize_ok {text : String} {toks : List Token}
    (h : Reference.tokenize text = .ok toks) :
    ∃ w, written text = some w ∧ w.broken = false ∧ toks = w.toks := by
  have hread := reference_tokenize_toOption text
  rw [h] at hread
  obtain ⟨w, hw, hreference⟩ := Option.bind_eq_some_iff.mp hread.symm
  unfold Written.reference at hreference
  split at hreference
  case isTrue => cases hreference
  case isFalse hbroken => exact ⟨w, hw, by simpa using hbroken, by simpa using hreference.symm⟩

theorem reference_tokenize_of_written {text : String} {w : Written} (hw : written text = some w)
    (hbroken : w.broken = false) : Reference.tokenize text = .ok w.toks := by
  have hread := reference_tokenize_toOption text
  rw [hw, Option.bind_some, Written.reference, hbroken] at hread
  cases htokens : Reference.tokenize text with
  | error e =>
      rw [htokens] at hread
      cases hread
  | ok toks =>
      rw [htokens] at hread
      exact congrArg Except.ok (Option.some.inj hread)

/-- **What the core accepts**: an expression of no separators, no deeper than
`MAX_DEPTH`. -/
theorem parsed_ok_iff (text : String) (params : Bool) (e : Expr) :
    parsed text params = .ok e ↔
      ∃ w, Writes text params w e ∧ w.separated = false ∧ e.depth ≤ MAX_DEPTH := by
  constructor
  · intro h
    unfold parsed at h
    cases htokens : tokenize text with
    | error e =>
        rw [htokens] at h
        cases h
    | ok toks =>
        rw [htokens] at h
        obtain ⟨w, hw, hseparated, rfl⟩ := tokenize_ok htokens
        simp only [Except.mapError, bind, Except.bind] at h
        rcases hrun : Parser.expr (turns w.toks) (w.parser text params) with ⟨_ | node, p⟩
        · rw [Written.parser] at hrun
          rw [hrun] at h
          cases h
        · rw [Written.parser] at hrun
          rw [hrun] at h
          dsimp only at h
          split at h
          case isTrue => cases h
          case isFalse hend =>
            split at h
            case isTrue => cases h
            case isFalse hdeep =>
              cases h
              exact ⟨w, ⟨hw, p, hrun, not_not.mp hend⟩, hseparated, Nat.le_of_not_lt hdeep⟩
  · rintro ⟨w, ⟨hw, p, hrun, hend⟩, hseparated, hdepth⟩
    unfold parsed
    rw [tokenize_of_written hw hseparated]
    rw [Written.parser] at hrun
    simp only [Except.mapError, bind, Except.bind, hrun]
    rw [if_neg (not_not.mpr hend), if_neg (Nat.not_lt.mpr hdepth)]

/-- From a text's tokens the reference parser reads the expression the core
does, or none where the core does not. -/
theorem reference_expr_ok {text : String} {params : Bool} {w : Written} {node : Node} {p : Parser}
    (encode : Value → Node) (hw : written text = some w)
    (hrun : Reference.expr (turns w.toks) (w.parser text params) = (.ok node, p)) :
    ∃ e, Parser.expr (turns w.toks) (w.parser text params) = (.ok e, p) ∧
      node = e.tree encode := by
  have halike := (allAlike encode (turns w.toks)).expr _ (written_lexical hw params)
  rcases hcore : Parser.expr (turns w.toks) (w.parser text params) with ⟨halt | e, p'⟩
  · obtain ⟨failure, rfl⟩ := Parser.expr_finished (written_ended hw params) halt p' hcore
    obtain ⟨e', t, hfailed, -⟩ := halike.fail ⟨_, p', hcore, trivial⟩
    rw [hrun] at hfailed
    cases hfailed
  · have hvalue := halike.value e p' hcore
    rw [hrun] at hvalue
    cases hvalue
    exact ⟨e, rfl, rfl⟩

/-- The core refuses a text for a failure, and for no want of turns. -/
theorem parsed_error {text : String} {params : Bool} {halt : Halt}
    (h : parsed text params = .error halt) : halt.Failed := by
  unfold parsed at h
  cases htokens : tokenize text with
  | error e =>
      rw [htokens] at h
      cases h
      trivial
  | ok toks =>
      rw [htokens] at h
      obtain ⟨w, hw, -, rfl⟩ := tokenize_ok htokens
      simp only [Except.mapError, bind, Except.bind] at h
      split at h
      next halt p hrun =>
        cases h
        obtain ⟨failure, rfl⟩ := Parser.expr_finished (written_ended hw params) _ p hrun
        trivial
      next node p hrun =>
        split at h
        · cases h
          trivial
        · split at h
          · cases h
            trivial
          · cases h

/-- The reference parser refuses a text for a failure, and for no want of
turns. -/
theorem reference_error (wire : Wire) {text : String} {params : Bool} {halt : Halt}
    (h : Reference.parse text params = .error halt) : halt.Failed := by
  unfold Reference.parse at h
  cases htokens : Reference.tokenize text with
  | error e =>
      rw [htokens] at h
      cases h
      trivial
  | ok toks =>
      rw [htokens] at h
      obtain ⟨w, hw, -, rfl⟩ := reference_tokenize_ok htokens
      simp only [Except.mapError, bind, Except.bind] at h
      split at h
      next halt p hrun =>
        cases h
        have halike := (allAlike wire.encode (turns w.toks)).expr _ (written_lexical hw params)
        rcases hcore : Parser.expr (turns w.toks) (w.parser text params) with ⟨halt' | e, p'⟩
        · obtain ⟨failure, rfl⟩ := Parser.expr_finished (written_ended hw params) halt' p' hcore
          obtain ⟨e', t, hfailed, hhalt⟩ := halike.fail ⟨_, p', hcore, trivial⟩
          rw [Written.parser] at hfailed
          rw [show Reference.turns w.toks = turns w.toks from rfl, hfailed] at hrun
          cases hrun
          exact hhalt
        · have hvalue := halike.value e p' hcore
          rw [Written.parser] at hvalue
          rw [show Reference.turns w.toks = turns w.toks from rfl, hvalue] at hrun
          cases hrun
      next node p hrun =>
        split at h
        · cases h
          trivial
        · split at h
          · cases h
            trivial
          · cases h

/-- **What the reference parser accepts**: an expression with no line's end
escaped, of no more levels than `MAX_DEPTH`. -/
theorem reference_ok_iff (wire : Wire) (text : String) (params : Bool) (tree : Node) :
    Reference.parse text params = .ok tree ↔
      ∃ w e, Writes text params w e ∧ w.broken = false ∧ e.levels ≤ MAX_DEPTH ∧
        tree = e.tree wire.encode := by
  constructor
  · intro h
    unfold Reference.parse at h
    cases htokens : Reference.tokenize text with
    | error e =>
        rw [htokens] at h
        cases h
    | ok toks =>
        rw [htokens] at h
        obtain ⟨w, hw, hbroken, rfl⟩ := reference_tokenize_ok htokens
        simp only [Except.mapError, bind, Except.bind] at h
        rcases hrun : Reference.expr (turns w.toks) (w.parser text params) with ⟨_ | node, p⟩
        · rw [Written.parser] at hrun
          rw [show Reference.turns w.toks = turns w.toks from rfl, hrun] at h
          cases h
        · obtain ⟨e, hcore, rfl⟩ := reference_expr_ok wire.encode hw hrun
          rw [Written.parser] at hrun
          rw [show Reference.turns w.toks = turns w.toks from rfl, hrun] at h
          dsimp only at h
          split at h
          case isTrue => cases h
          case isFalse hend =>
            split at h
            case isTrue => cases h
            case isFalse hdeep =>
              cases h
              rw [depth_tree] at hdeep
              exact ⟨w, e, ⟨hw, p, hcore, not_not.mp hend⟩, hbroken, Nat.le_of_not_lt hdeep, rfl⟩
  · rintro ⟨w, e, ⟨hw, p, hcore, hend⟩, hbroken, hlevels, rfl⟩
    have hrun := ((allAlike wire.encode (turns w.toks)).expr _
      (written_lexical hw params)).value e p hcore
    rw [Written.parser] at hrun
    unfold Reference.parse
    rw [reference_tokenize_of_written hw hbroken]
    simp only [Except.mapError, bind, Except.bind,
      show Reference.turns w.toks = turns w.toks from rfl, hrun]
    rw [if_neg (not_not.mpr hend), depth_tree, if_neg (Nat.not_lt.mpr hlevels)]

/-! ### Agreement -/

/-- A text of ASCII. -/
structure AsciiText where
  text : String
  ascii : ∀ c ∈ text.toList, c.toNat < 128

/-- The two parsers agree on a text: each accepts it where the other does, and
the trees they read are the same. -/
structure Agree (wire : Wire) (core : Except Halt Expr) (reference : Except Halt Node) : Prop where
  accepts : (∃ e, core = .ok e) ↔ (∃ tree, reference = .ok tree)
  same : ∀ e tree, core = .ok e → reference = .ok tree → tree = e.tree wire.encode

/-- Where a text writes an expression, the core's bounds on it are met where the
reference parser's are: a separator between its tokens, or a tree too deep,
against a line's end its strings escape, or a tree of too many levels. -/
def Spelled (text : String) (params : Bool) : Prop :=
  ∀ w e, Writes text params w e →
    ((w.separated = false ∧ e.depth ≤ MAX_DEPTH) ↔ (w.broken = false ∧ e.levels ≤ MAX_DEPTH))

theorem agree_iff (wire : Wire) (text : String) (params : Bool) :
    Agree wire (parsed text params) (Reference.parse text params) ↔ Spelled text params := by
  constructor
  · intro h w e hwrites
    constructor
    · rintro ⟨hseparated, hdepth⟩
      obtain ⟨tree, htree⟩ := h.accepts.mp
        ⟨e, (parsed_ok_iff text params e).mpr ⟨w, hwrites, hseparated, hdepth⟩⟩
      obtain ⟨w', e', hwrites', hbroken, hlevels, -⟩ :=
        (reference_ok_iff wire text params tree).mp htree
      obtain ⟨rfl, rfl⟩ := hwrites.unique hwrites'
      exact ⟨hbroken, hlevels⟩
    · rintro ⟨hbroken, hlevels⟩
      obtain ⟨e', he'⟩ := h.accepts.mpr
        ⟨_, (reference_ok_iff wire text params _).mpr ⟨w, e, hwrites, hbroken, hlevels, rfl⟩⟩
      obtain ⟨w', hwrites', hseparated, hdepth⟩ := (parsed_ok_iff text params e').mp he'
      obtain ⟨rfl, rfl⟩ := hwrites.unique hwrites'
      exact ⟨hseparated, hdepth⟩
  · intro h
    refine ⟨⟨?_, ?_⟩, ?_⟩
    · rintro ⟨e, he⟩
      obtain ⟨w, hwrites, hcore⟩ := (parsed_ok_iff text params e).mp he
      obtain ⟨hbroken, hlevels⟩ := (h w e hwrites).mp hcore
      exact ⟨_, (reference_ok_iff wire text params _).mpr ⟨w, e, hwrites, hbroken, hlevels, rfl⟩⟩
    · rintro ⟨tree, htree⟩
      obtain ⟨w, e, hwrites, hbroken, hlevels, -⟩ :=
        (reference_ok_iff wire text params tree).mp htree
      obtain ⟨hseparated, hdepth⟩ := (h w e hwrites).mpr ⟨hbroken, hlevels⟩
      exact ⟨e, (parsed_ok_iff text params e).mpr ⟨w, hwrites, hseparated, hdepth⟩⟩
    · intro e tree he htree
      obtain ⟨w, hwrites, -⟩ := (parsed_ok_iff text params e).mp he
      obtain ⟨w', e', hwrites', -, -, rfl⟩ := (reference_ok_iff wire text params tree).mp htree
      obtain ⟨rfl, rfl⟩ := hwrites.unique hwrites'
      rfl

/-- **The two parsers agree** on a text exactly where it is spelled for both. -/
theorem parsers_agree_iff (wire : Wire) (t : AsciiText) :
    (Agree wire (parse t.text) (Reference.parse t.text false) ↔ Spelled t.text false) ∧
      (Agree wire (parseFilter t.text) (Reference.parseFilter t.text) ↔ Spelled t.text true) :=
  ⟨agree_iff wire t.text false, agree_iff wire t.text true⟩

/-- A wire that encodes no value. -/
def Wire.absent : Wire := ⟨fun _ => .none, fun _ => rfl⟩

/-- A name and a separator, which the reference parser alone accepts. -/
def separatedName : AsciiText where
  text := "a\x1c"
  ascii := by
    have hchars : "a\x1c".toList = ['a', '\x1c'] := by rfl
    rw [hchars]
    simp

theorem parsers_part :
    ¬ Agree Wire.absent (parse separatedName.text) (Reference.parse separatedName.text false) := by
  intro h
  have hwrites : Writes separatedName.text false
      ⟨[⟨.name, "a", 0⟩, .endOf separatedName.text], true, false⟩ (.name "a") :=
    ⟨by rfl, _, by rfl, by rfl⟩
  have hcore := ((agree_iff Wire.absent separatedName.text false).mp h _ _ hwrites).mpr
    ⟨rfl, by decide⟩
  cases hcore.1

end ObjectFlow
