import ObjectFlow.Base.Mirror
import ObjectFlow.Parse
import ObjectFlow.Reference

/-!
# The two parsers, token by token

From the same tokens the two parsers take the same steps: the reference parser
reads the tree the core's is written as, or fails where the core's does.  One
lemma says so of each function, for as many turns as it is given, and the
induction is on the turns.
-/

namespace ObjectFlow

open Base

/-! ### Trees as they are compared -/

/-- A number as the reference parser holds it, an integer by the number it
writes. -/
def Number.node : Number → Node
  | .int n => .int n
  | .decimal text =>
      if text.toList.contains '.' then .text text else .int (digitsValue text.toList)

section

variable (encode : Value → Node)

mutual

/-- The tree as `scripts/flowexpr.py` writes it, each node a tuple whose first
element names it; a bound value as the wire encodes it. -/
def Expr.tree : Expr → Node
  | .num n => Reference.node "num" [n.node]
  | .str s => Reference.node "str" [.text s]
  | .bool b => Reference.node "bool" [.bool b]
  | .dur n unit => Reference.node "dur" [n.node, .text unit]
  | .money currency amount => Reference.node "money" [.text currency, .text amount]
  | .name n => Reference.node "name" [.text n]
  | .param n => Reference.node "param" [.text n]
  | .lit v => Reference.node "lit" [encode v]
  | .path b m => Reference.node "path" [b.tree, .text m]
  | .call f args => Reference.node "call" [f.tree, .list (trees args)]
  | .agg kind distinct var collection filter body =>
      Reference.node "agg" [.text kind.text, .bool distinct, (var.map Node.text).getD .none,
        treeGiven collection, treeGiven filter, treeGiven body]
  | .metric name binds window fresh =>
      Reference.node "metric" [name.tree, .list (treesBound binds), treeGiven window,
        treeGiven fresh]
  | .changed names e => Reference.node "changed" [.list (names.map .text), e.tree]
  | .set items => Reference.node "set" [.list (trees items)]
  | .not e => Reference.node "not" [e.tree]
  | .neg e => Reference.node "neg" [e.tree]
  | .isNull e n => Reference.node "isnull" [e.tree, .bool n]
  | .in' l r => Reference.node "in" [l.tree, r.tree]
  | .bin op l r => Reference.bin op.text l.tree r.tree
  | .if' c a b => Reference.node "if" [c.tree, a.tree, b.tree]

def trees : List Expr → List Node
  | [] => []
  | e :: rest => e.tree :: trees rest

def treesBound : List (String × Expr) → List Node
  | [] => []
  | b :: rest => .tuple [.text b.1, b.2.tree] :: treesBound rest

def treeGiven : Option Expr → Node
  | none => .none
  | some e => e.tree

end

theorem trees_eq (es : List Expr) : trees encode es = es.map (Expr.tree encode) := by
  induction es with
  | nil => rfl
  | cons e rest ih => rw [trees, ih, List.map_cons]

theorem treesBound_eq (binds : List (String × Expr)) : treesBound encode binds =
    binds.map fun b => .tuple [.text b.1, b.2.tree encode] := by
  induction binds with
  | nil => rfl
  | cons b rest ih => rw [treesBound, ih, List.map_cons]

end

/-! ### What the two call alike -/

/-- Tables of operators both read alike: the core's are of the texts the
reference parser tests for. -/
def Operators (of : String → Option BinOp) (texts : List String) : Prop :=
  ∀ text, (of text).isSome = texts.contains text ∧ ∀ op, of text = some op → op.text = text

theorem operators_lookup {table : List (String × BinOp)} (h : ∀ p ∈ table, p.2.text = p.1) :
    Operators (fun text => table.lookup text) (table.map Prod.fst) := by
  refine fun text => ⟨?_, ?_⟩
  · rw [Bool.eq_iff_iff, List.lookup_isSome_iff, List.contains_iff_mem, List.mem_map]
    constructor
    · rintro ⟨p, hp, hkey⟩
      exact ⟨p, hp, (beq_iff_eq.mp hkey).symm⟩
    · rintro ⟨p, hp, rfl⟩
      exact ⟨p, hp, BEq.rfl⟩
  · intro op hop
    obtain ⟨before, rest, hsplit, -⟩ := List.lookup_eq_some_iff.mp hop
    exact h (text, op) (hsplit ▸ List.mem_append_right _ List.mem_cons_self)

theorem operators_comparison : Operators BinOp.comparison Reference.COMPARISONS :=
  operators_lookup (by decide)

theorem operators_additive : Operators BinOp.additive ["+", "-"] := operators_lookup (by decide)

theorem operators_multiplicative : Operators BinOp.multiplicative ["*", "/"] :=
  operators_lookup (by decide)

/-- The operator next, where the reference parser finds one. -/
theorem operator_eq {of : String → Option BinOp} {texts : List String} (h : Operators of texts)
    (p : Parser) : (p.operator of).isSome = Reference.operator p texts ∧
      ∀ op, p.operator of = some op → op.text = (p.peek 0).text := by
  unfold Parser.operator Reference.operator
  by_cases hkind : (p.peek 0).kind = .op
  · rw [if_pos hkind, decide_eq_true hkind, Bool.true_and]
    exact h _
  · rw [if_neg hkind, decide_eq_false hkind]
    exact ⟨rfl, by simp⟩

theorem named_text {function : String} {kind : AggKind} (h : AggKind.named function = some kind) :
    kind.text = function := by
  have htable : ∀ p ∈ [("count", AggKind.count), ("sum", .sum), ("min", .min), ("max", .max),
      ("all", .all), ("any", .any), ("none", .none), ("avg", .avg), ("median", .median),
      ("percentile", .percentile)], p.2.text = p.1 := by decide
  obtain ⟨before, rest, hsplit, -⟩ := List.lookup_eq_some_iff.mp h
  exact htable (function, kind) (hsplit ▸ List.mem_append_right _ List.mem_cons_self)

theorem named_isSome (function : String) :
    (AggKind.named function).isSome = Reference.AGGREGATES.contains function := by
  rw [Bool.eq_iff_iff, AggKind.named, List.lookup_isSome_iff, List.contains_iff_mem]
  simp [Reference.AGGREGATES]

theorem bodied_text (kind : AggKind) : Reference.BODIED.contains kind.text = kind.bodied := by
  cases kind <;> decide

theorem number_read (text : String) : (Number.read text).node = Reference.number text := by
  by_cases hpoint : text.toList.contains '.' = true
  · rw [Number.read, Reference.number, if_pos hpoint, Number.node, if_pos hpoint, if_neg]
    rw [hpoint]
    exact Bool.noConfusion
  · have hreference : Reference.number text = .int (digitsValue text.toList) := by
      rw [Reference.number, if_pos]
      rw [Bool.not_eq_true] at hpoint
      rw [hpoint]
      rfl
    rw [hreference, Number.read, if_neg hpoint]
    split
    · rfl
    · rw [Number.node, if_neg hpoint]

theorem isComparison_eq (p : Parser) : p.isComparison = Reference.compares p := by
  rw [Parser.isComparison, Reference.compares, (operator_eq operators_comparison p).1]

variable (encode : Value → Node)

theorem isPath_tree (e : Expr) : Reference.isPath (e.tree encode) = e.isPath := by
  cases e <;> rfl

theorem isNone_given (e : Option Expr) :
    Reference.isNone (treeGiven encode e) = e.isNone := by
  cases e with
  | none => rfl
  | some e => cases e <;> rfl

/-! ### Steps alike -/

/-- A stop of a parse that failed. -/
def Halt.Failed : Halt → Prop
  | .failed _ => True
  | .unfinished => False

/-- A parser of a text's tokens: no name is a colon. -/
def Parser.Lexical (p : Parser) : Prop := ∀ t ∈ p.toks, t.kind = .name → t.text ≠ ":"

theorem Parser.Lexical.colon {p : Parser} (h : p.Lexical) :
    (p.params && p.at' ":" 0 && decide ((p.peek 1).kind = .name)) =
      (p.params && decide ((p.peek 0).kind = .op) && decide ((p.peek 0).text = ":") &&
        decide ((p.peek 1).kind = .name)) := by
  have hname : (p.peek 0).kind = .name → (p.peek 0).text ≠ ":" := by
    unfold Parser.peek
    cases hget : p.toks[min (p.i + 0) (p.toks.length - 1)]? with
    | none => simp [Token.endOf]
    | some t => exact h t (List.mem_of_getElem? hget)
  have hat : p.at' ":" 0 =
      (decide ((p.peek 0).kind = .op) && decide ((p.peek 0).text = ":")) := by
    unfold Parser.at'
    by_cases hkind : (p.peek 0).kind = .name
    · simp [hname hkind]
    · simp [hkind, Bool.and_comm]
  rw [hat, ← Bool.and_assoc p.params]

/-- The reference parser's program mirrors the core's. -/
abbrev Alike {α β : Type} (f : α → β) (p : Parse α) (q : Parse β) : Prop :=
  Program.Mirrors Halt.Failed Parser.Lexical f p q

/-- The same, from one state of the parser. -/
abbrev AlikeAt {α β : Type} (f : α → β) (p : Parse α) (q : Parse β) (s : Parser) : Prop :=
  Program.MirrorsAt Halt.Failed Parser.Lexical f p q s

theorem keeps_state : Program.Keeps Parser.Lexical Parse.parser := by
  intro s a t hrun h
  cases hrun
  exact h

theorem keeps_take : Program.Keeps Parser.Lexical Parse.take := by
  intro s a t hrun h
  cases hrun
  exact h

theorem keeps_depth (d : Nat → Nat) : Program.Keeps Parser.Lexical
    (Program.modify fun p => { p with depth := d p.depth } : Parse Unit) := by
  intro s a t hrun h
  cases hrun
  exact h

open Program

variable {α β : Type} {f : α → β}

/-- Nothing is said of a parse with no turn left. -/
theorem alike_unfinished {q : Parse β} : Alike f (Parse.unfinished : Parse α) q := by
  refine Mirrors.stopped ?_ ?_
  · intro s a t hrun
    cases hrun
  · rintro s ⟨e, t, hrun, hfailed⟩
    cases hrun
    exact hfailed.elim

theorem alike_fail (what : String) :
    Alike f (Parser.fail what : Parse α) (Reference.fail what : Parse β) := by
  refine Mirrors.stopped ?_ ?_
  · intro s a t hrun
    cases hrun
  · rintro s -
    exact ⟨_, _, rfl, trivial⟩

theorem alike_expect (value : String) :
    Alike id (Parser.expect value) (Reference.takeValue value) := by
  refine Mirrors.step keeps_state fun p => ?_
  by_cases hat : p.at' value 0 = true
  · rw [if_pos hat, if_neg (by simp [hat])]
    exact Mirrors.refl keeps_take
  · rw [if_neg hat, if_pos (by simp [hat])]
    refine Mirrors.stopped ?_ ?_
    · intro s a t hrun
      cases hrun
    · rintro s -
      exact ⟨_, _, rfl, trivial⟩

theorem alike_taken (value : String) :
    Alike id (Parser.taken value) (Reference.tookValue value) := by
  refine Mirrors.step keeps_state fun p => ?_
  split
  · exact Mirrors.step keeps_take fun _ => Mirrors.pure rfl
  · exact Mirrors.pure rfl

theorem alike_separator (close : String) :
    Alike id (Parser.separator close) (Reference.comma close) := by
  refine Mirrors.step keeps_state fun p => ?_
  by_cases hat : p.at' close 0 = true
  · rw [if_pos hat, if_neg (by simp [hat])]
    exact Mirrors.pure rfl
  · rw [if_neg hat, if_pos (by simp [hat])]
    exact Mirrors.bind (alike_expect ",") fun _ => Mirrors.pure rfl

theorem alike_following (value : String) {p : Parse Expr} {q : Parse Node}
    (h : Alike (Expr.tree encode) p q) :
    Alike (treeGiven encode) (Parser.following value p) (Reference.after value q) := by
  refine Mirrors.bind (alike_taken value) fun was => ?_
  cases was with
  | false => exact Mirrors.pure rfl
  | true => exact Mirrors.map h fun _ => rfl

theorem alike_unlessNext (value : String) {p : Parse Expr} {q : Parse Node}
    (h : Alike (Expr.tree encode) p q) :
    Alike (treeGiven encode) (Parser.unlessNext value p) (Reference.unlessNext value q) := by
  refine Mirrors.step keeps_state fun s => ?_
  split
  · exact Mirrors.pure rfl
  · exact Mirrors.map h fun _ => rfl

/-- What a metric's call gives, as the reference parser holds it. -/
def Parser.Given.nodes (given : Parser.Given) : List Node × Node × Node :=
  (treesBound encode given.binds, treeGiven encode given.window, treeGiven encode given.fresh)

theorem alike_names (n : Nat) (found : List String) :
    Alike (List.map Node.text) (Parser.names n found) (Reference.names n (found.map .text)) := by
  induction n generalizing found with
  | zero => exact alike_unfinished
  | succ n ih =>
      refine Mirrors.step keeps_state fun p => ?_
      by_cases hat : p.at' "]" 0 = true
      · rw [if_pos hat, if_neg (by simp [hat])]
        exact Mirrors.pure rfl
      · rw [if_neg hat, if_pos (by simp [hat])]
        refine Mirrors.step keeps_take fun t => ?_
        refine Mirrors.bind (alike_separator "]") fun _ => ?_
        have hnext := ih (found ++ [t.text])
        rw [List.map_append] at hnext
        exact hnext

/-- A parse refused where it nests too deep. -/
def bounded (q : Parse β) : Parse β := do
  let p ← Parse.parser
  if MAX_NESTING < p.depth then
    Reference.fail ("the expression nests deeper than " ++ toString MAX_NESTING ++ " levels")
  else q

/-- One level deeper, checked by the core within the level and by the reference
parser as it begins. -/
theorem alike_nested {p : Parse α} {q : Parse β} {s : Parser} (hs : s.Lexical)
    (h : AlikeAt f p (bounded q) { s with depth := s.depth + 1 }) :
    AlikeAt f (Parser.nested p) (Reference.nest q) s := by
  have hnest : Reference.nest q = (do
      Program.modify fun p => { p with depth := p.depth + 1 }
      let a ← bounded q
      Program.modify fun p => { p with depth := p.depth - 1 }
      return a) := by
    funext s
    unfold Reference.nest bounded
    simp only [bind_run, Program.modify, Parse.parser, Program.read, id]
    split
    · rfl
    · rfl
  rw [hnest]
  refine MirrorsAt.bind (Mirrors.refl (keeps_depth (· + 1)) s hs) fun _ t hstep _ => ?_
  cases hstep
  refine MirrorsAt.bind h fun a t _ ht => ?_
  exact MirrorsAt.bind (Mirrors.refl (keeps_depth (· - 1)) t ht) fun _ u _ hu =>
    Mirrors.pure rfl u hu

/-- Every function of the two parsers, given as many turns. -/
structure AllAlike (n : Nat) : Prop where
  expr : Alike (Expr.tree encode) (Parser.expr n) (Reference.expr n)
  nestedExpr : Alike (Expr.tree encode) (Parser.nestedExpr n) (bounded (Reference.nestedExpr n))
  implies : Alike (Expr.tree encode) (Parser.implies n) (Reference.implies n)
  or' : Alike (Expr.tree encode) (Parser.or' n) (Reference.or_ n)
  orFrom : ∀ e, Alike (Expr.tree encode) (Parser.orFrom n e) (Reference.orFrom n (e.tree encode))
  and' : Alike (Expr.tree encode) (Parser.and' n) (Reference.and_ n)
  andFrom : ∀ e, Alike (Expr.tree encode) (Parser.andFrom n e)
    (Reference.andFrom n (e.tree encode))
  comparison : Alike (Expr.tree encode) (Parser.comparison n) (Reference.comparison n)
  compared : ∀ e, Alike (Expr.tree encode) (Parser.compared n e)
    (Reference.compared n (e.tree encode))
  additive : Alike (Expr.tree encode) (Parser.additive n) (Reference.additive n)
  additiveFrom : ∀ e, Alike (Expr.tree encode) (Parser.additiveFrom n e)
    (Reference.additiveFrom n (e.tree encode))
  multiplicative : Alike (Expr.tree encode) (Parser.multiplicative n) (Reference.multiplicative n)
  multiplicativeFrom : ∀ e, Alike (Expr.tree encode) (Parser.multiplicativeFrom n e)
    (Reference.multiplicativeFrom n (e.tree encode))
  unary : Alike (Expr.tree encode) (Parser.unary n) (Reference.unary n)
  negated : ∀ s : Parser, s.Lexical → ( s.at' "not" 0 || s.at' "-" 0) = true →
    AlikeAt (Expr.tree encode) (Parser.negated n) (bounded (Reference.negated n)) s
  postfixed : Alike (Expr.tree encode) (Parser.postfixed n) (Reference.postfixed n)
  postfixedFrom : ∀ e, Alike (Expr.tree encode) (Parser.postfixedFrom n e)
    (Reference.postfixedFrom n (e.tree encode))
  arguments : Alike (List.map (Expr.tree encode)) (Parser.arguments n) (Reference.arguments n)
  itemsUntil : ∀ close items, Alike (List.map (Expr.tree encode)) (Parser.itemsUntil n close items)
    (Reference.itemsUntil n close (items.map (Expr.tree encode)))
  primary : Alike (Expr.tree encode) (Parser.primary n) (Reference.primary n)
  call : ∀ function, Alike (Expr.tree encode) (Parser.call n function) (Reference.call n function)
  ownRows : ∀ kind : AggKind, Alike (Expr.tree encode) (Parser.ownRows n kind)
    (Reference.ownRows n kind.text)
  overItems : ∀ kind : AggKind, Alike (Expr.tree encode) (Parser.overItems n kind.text kind)
    (Reference.overItems n kind.text)
  metric : Alike (Expr.tree encode) (Parser.metric n) (Reference.metric n)
  metricFrom : ∀ given, Alike (Parser.Given.nodes encode) (Parser.metricFrom n given)
    (Reference.metricFrom n (treesBound encode given.binds) (treeGiven encode given.window)
      (treeGiven encode given.fresh))

section

variable {encode} {n : Nat} (h : AllAlike encode n)

include h

theorem nestedExpr_alike :
    Alike (Expr.tree encode) (Parser.nestedExpr (n + 1)) (bounded (Reference.nestedExpr (n + 1))) := by
  intro s hs
  unfold Parser.nestedExpr bounded
  refine MirrorsAt.read ?_
  dsimp only [id]
  by_cases hdeep : MAX_NESTING < s.depth
  · rw [if_pos hdeep, if_pos hdeep]
    exact alike_fail _ s hs
  · rw [if_neg hdeep, if_neg hdeep]
    unfold Reference.nestedExpr
    refine MirrorsAt.readSecond ?_
    dsimp only [id]
    split
    · refine (Mirrors.step keeps_take fun _ => Mirrors.bind h.expr fun c => ?_) s hs
      refine Mirrors.bind (alike_expect "then") fun _ => Mirrors.bind h.expr fun a => ?_
      refine Mirrors.bind (alike_expect "else") fun _ => Mirrors.bind h.expr fun b => ?_
      exact Mirrors.pure rfl
    · exact h.implies s hs

theorem implies_alike :
    Alike (Expr.tree encode) (Parser.implies (n + 1)) (Reference.implies (n + 1)) := by
  unfold Parser.implies Reference.implies
  refine Mirrors.bind h.or' fun left => Mirrors.step keeps_state fun p => ?_
  split
  · refine Mirrors.step keeps_take fun _ => Mirrors.bind h.implies fun right => ?_
    exact Mirrors.pure rfl
  · exact Mirrors.pure rfl

theorem orFrom_alike (left : Expr) : Alike (Expr.tree encode) (Parser.orFrom (n + 1) left)
    (Reference.orFrom (n + 1) (left.tree encode)) := by
  unfold Parser.orFrom Reference.orFrom
  refine Mirrors.step keeps_state fun p => ?_
  split
  · refine Mirrors.step keeps_take fun _ => Mirrors.bind h.and' fun right => ?_
    exact h.orFrom (.bin .or left right)
  · exact Mirrors.pure rfl

theorem andFrom_alike (left : Expr) : Alike (Expr.tree encode) (Parser.andFrom (n + 1) left)
    (Reference.andFrom (n + 1) (left.tree encode)) := by
  unfold Parser.andFrom Reference.andFrom
  refine Mirrors.step keeps_state fun p => ?_
  split
  · refine Mirrors.step keeps_take fun _ => Mirrors.bind h.comparison fun right => ?_
    exact h.andFrom (.bin .and left right)
  · exact Mirrors.pure rfl

theorem comparison_alike :
    Alike (Expr.tree encode) (Parser.comparison (n + 1)) (Reference.comparison (n + 1)) := by
  unfold Parser.comparison Reference.comparison
  refine Mirrors.bind h.additive fun left => Mirrors.step keeps_state fun p => ?_
  rw [← isComparison_eq]
  cases p.isComparison with
  | false => exact Mirrors.pure rfl
  | true =>
      refine Mirrors.bind (h.compared left) fun node => Mirrors.step keeps_state fun p => ?_
      rw [← isComparison_eq]
      cases p.isComparison with
      | false => exact Mirrors.pure rfl
      | true => exact alike_fail _

omit h in
/-- An operator's two sides, the operator taken and its right side read. -/
theorem operator_alike {of : String → Option BinOp} {texts : List String}
    (hof : Operators of texts) {left : Expr} {right : Parse Expr} {right' : Parse Node}
    (hright : Alike (Expr.tree encode) right right') {next : Expr → Parse Expr}
    {next' : Node → Parse Node}
    (hnext : ∀ e, Alike (Expr.tree encode) (next e) (next' (e.tree encode))) {other : Parse Expr}
    {other' : Parse Node} {s : Parser} (hs : s.Lexical)
    (hother : AlikeAt (Expr.tree encode) other other' s) :
    AlikeAt (Expr.tree encode)
      (match s.operator of with
        | some op => do
            let _ ← Parse.take
            let e ← right
            next (.bin op left e)
        | none => other)
      (if Reference.operator s texts then do
          let op ← Parse.take
          let e ← right'
          next' (Reference.bin op.text (left.tree encode) e)
        else other') s := by
  obtain ⟨hsome, htext⟩ := operator_eq hof s
  cases hop : s.operator of with
  | none =>
      rw [hop] at hsome
      rw [← hsome]
      exact hother
  | some op =>
      rw [hop] at hsome
      rw [← hsome]
      refine MirrorsAt.bind (Mirrors.refl keeps_take s hs) fun t u htake hu => ?_
      cases htake
      refine (Mirrors.bind hright fun e => ?_) _ hu
      have htree : Reference.bin (id (s.peek 0)).text (left.tree encode) (e.tree encode) =
          (Expr.bin op left e).tree encode := by
        rw [Expr.tree, htext op hop]
        rfl
      rw [htree]
      exact hnext _

theorem compared_alike (left : Expr) : Alike (Expr.tree encode) (Parser.compared (n + 1) left)
    (Reference.compared (n + 1) (left.tree encode)) := by
  intro s hs
  unfold Parser.compared Reference.compared
  refine MirrorsAt.read ?_
  refine operator_alike operators_comparison h.additive (fun _ => Mirrors.pure rfl) hs ?_
  dsimp only [id]
  split
  · refine (Mirrors.step keeps_take fun _ => Mirrors.bind h.additive fun right => ?_) s hs
    exact Mirrors.pure rfl
  · refine (Mirrors.step keeps_take fun _ => Mirrors.bind (alike_taken "not") fun was => ?_) s hs
    exact Mirrors.bind (alike_expect "null") fun _ => Mirrors.pure rfl

theorem additiveFrom_alike (left : Expr) : Alike (Expr.tree encode)
    (Parser.additiveFrom (n + 1) left) (Reference.additiveFrom (n + 1) (left.tree encode)) := by
  intro s hs
  unfold Parser.additiveFrom Reference.additiveFrom
  refine MirrorsAt.read ?_
  exact operator_alike operators_additive h.multiplicative h.additiveFrom hs (Mirrors.pure rfl s hs)

theorem multiplicativeFrom_alike (left : Expr) : Alike (Expr.tree encode)
    (Parser.multiplicativeFrom (n + 1) left)
    (Reference.multiplicativeFrom (n + 1) (left.tree encode)) := by
  intro s hs
  unfold Parser.multiplicativeFrom Reference.multiplicativeFrom
  refine MirrorsAt.read ?_
  exact operator_alike operators_multiplicative h.unary h.multiplicativeFrom hs
    (Mirrors.pure rfl s hs)

theorem unary_alike :
    Alike (Expr.tree encode) (Parser.unary (n + 1)) (Reference.unary (n + 1)) := by
  intro s hs
  unfold Parser.unary Reference.unary
  refine MirrorsAt.read ?_
  dsimp only [id]
  cases hnot : s.at' "not" 0 || s.at' "-" 0 with
  | false => exact h.postfixed s hs
  | true => exact alike_nested hs (h.negated _ hs hnot)

theorem negated_alike (s : Parser) (hs : s.Lexical) (hnot : ( s.at' "not" 0 || s.at' "-" 0) = true) :
    AlikeAt (Expr.tree encode) (Parser.negated (n + 1))
      (bounded (Reference.negated (n + 1))) s := by
  unfold Parser.negated bounded
  refine MirrorsAt.read ?_
  dsimp only [id]
  by_cases hdeep : MAX_NESTING < s.depth
  · rw [if_pos hdeep, if_pos hdeep]
    exact alike_fail _ s hs
  · rw [if_neg hdeep, if_neg hdeep]
    unfold Reference.negated
    have htext : s.at' "not" 0 = true ↔ (s.peek 0).text = "not" := by
      constructor
      · intro h
        simp only [Parser.at', Bool.and_eq_true, decide_eq_true_eq] at h
        exact h.1
      · intro h
        simp only [Parser.at', h, Bool.or_eq_true, Bool.and_eq_true] at hnot ⊢
        simpa using hnot
    split
    case isTrue hword =>
      refine MirrorsAt.bind (Mirrors.refl keeps_take s hs) fun t u htake hu => ?_
      cases htake
      refine MirrorsAt.bind (h.unary _ hu) fun e u _ => Mirrors.pure ?_ u
      show Reference.node (if (s.peek 0).text = "not" then _ else _) _ = _
      rw [if_pos (htext.mp hword)]
      rfl
    case isFalse hword =>
      refine MirrorsAt.bind (Mirrors.refl keeps_take s hs) fun t u htake hu => ?_
      cases htake
      refine MirrorsAt.bind (h.unary _ hu) fun e u _ => Mirrors.pure ?_ u
      show Reference.node (if (s.peek 0).text = "not" then _ else _) _ = _
      rw [if_neg fun heq => hword (htext.mpr heq)]
      rfl

theorem postfixedFrom_alike (node : Expr) : Alike (Expr.tree encode)
    (Parser.postfixedFrom (n + 1) node) (Reference.postfixedFrom (n + 1) (node.tree encode)) := by
  unfold Parser.postfixedFrom Reference.postfixedFrom
  refine Mirrors.step keeps_state fun p => ?_
  split
  · refine Mirrors.step keeps_take fun _ => Mirrors.step keeps_state fun p => ?_
    split
    · exact alike_fail _
    · exact Mirrors.step keeps_take fun member => h.postfixedFrom (.path node member.text)
  · rw [isPath_tree]
    split
    · refine Mirrors.bind h.arguments fun args => ?_
      rw [← trees_eq]
      exact h.postfixedFrom (.call node args)
    · exact Mirrors.pure rfl

theorem arguments_alike : Alike (List.map (Expr.tree encode)) (Parser.arguments (n + 1))
    (Reference.arguments (n + 1)) := by
  unfold Parser.arguments Reference.arguments
  refine Mirrors.bind (alike_expect "(") fun _ => Mirrors.bind (h.itemsUntil ")" []) fun args => ?_
  exact Mirrors.bind (alike_expect ")") fun _ => Mirrors.pure rfl

theorem itemsUntil_alike (close : String) (items : List Expr) : Alike (List.map (Expr.tree encode))
    (Parser.itemsUntil (n + 1) close items)
    (Reference.itemsUntil (n + 1) close (items.map (Expr.tree encode))) := by
  unfold Parser.itemsUntil Reference.itemsUntil
  refine Mirrors.step keeps_state fun p => ?_
  cases p.at' close 0 with
  | true => exact Mirrors.pure rfl
  | false =>
      refine Mirrors.bind h.expr fun e => Mirrors.bind (alike_separator close) fun _ => ?_
      have hnext := h.itemsUntil close (items ++ [e])
      rw [List.map_append] at hnext
      exact hnext

theorem primary_alike :
    Alike (Expr.tree encode) (Parser.primary (n + 1)) (Reference.primary (n + 1)) := by
  intro s hs
  unfold Parser.primary Reference.primary
  refine MirrorsAt.read ?_
  dsimp only [id]
  rw [hs.colon]
  refine (?_ : Alike (Expr.tree encode) _ _) s hs
  split
  · refine Mirrors.step keeps_take fun _ => Mirrors.step keeps_take fun name => ?_
    exact Mirrors.pure rfl
  · cases hkind : (s.peek 0).kind with
    | num =>
        simp only [↓reduceIte]
        refine Mirrors.step keeps_take fun _ => Mirrors.step keeps_state fun p => ?_
        split
        · refine Mirrors.step keeps_take fun unit => Mirrors.pure ?_
          rw [Expr.tree, number_read]
        · refine Mirrors.pure ?_
          rw [Expr.tree, number_read]
    | str =>
        simp only [reduceCtorEq, ↓reduceIte]
        exact Mirrors.step keeps_take fun _ => Mirrors.pure rfl
    | name =>
        simp only [reduceCtorEq, ↓reduceIte]
        split
        · exact Mirrors.step keeps_take fun _ => Mirrors.pure rfl
        · split
          · refine Mirrors.step keeps_take fun _ => Mirrors.step keeps_take fun amount => ?_
            exact Mirrors.pure rfl
          · split
            · exact alike_fail _
            · refine Mirrors.step keeps_take fun _ => Mirrors.step keeps_state fun p => ?_
              split
              · exact h.call _
              · exact Mirrors.pure rfl
    | op =>
        have hat : ∀ value, s.at' value 0 = decide ((s.peek 0).text = value) := by
          intro value
          simp [Parser.at', hkind]
        simp only [reduceCtorEq, ↓reduceIte, hat, decide_eq_true_eq]
        split
        · refine Mirrors.step keeps_take fun _ => Mirrors.bind h.expr fun e => ?_
          exact Mirrors.bind (alike_expect ")") fun _ => Mirrors.pure rfl
        · split
          · refine Mirrors.step keeps_take fun _ => Mirrors.bind (h.itemsUntil _ []) fun es => ?_
            refine Mirrors.bind (alike_expect _) fun _ => Mirrors.pure ?_
            rw [Expr.tree, trees_eq]
          · exact alike_fail _
    | end' =>
        have hat : ∀ value, s.at' value 0 = false := by
          intro value
          simp [Parser.at', hkind]
        simp only [reduceCtorEq, ↓reduceIte, hat, Bool.false_eq_true]
        exact alike_fail _

theorem metric_alike :
    Alike (Expr.tree encode) (Parser.metric (n + 1)) (Reference.metric (n + 1)) := by
  unfold Parser.metric Reference.metric
  refine Mirrors.bind (alike_expect "(") fun _ => Mirrors.bind h.additive fun name => ?_
  refine Mirrors.bind (h.metricFrom {}) fun given => ?_
  exact Mirrors.bind (alike_expect ")") fun _ => Mirrors.pure rfl

theorem metricFrom_alike (given : Parser.Given) : Alike (Parser.Given.nodes encode)
    (Parser.metricFrom (n + 1) given)
    (Reference.metricFrom (n + 1) (treesBound encode given.binds) (treeGiven encode given.window)
      (treeGiven encode given.fresh)) := by
  unfold Parser.metricFrom Reference.metricFrom
  refine Mirrors.step keeps_state fun p => ?_
  split
  case isFalse => exact Mirrors.pure rfl
  case isTrue =>
    refine Mirrors.step keeps_take fun _ => Mirrors.step keeps_state fun p => ?_
    split
    · refine Mirrors.step keeps_take fun _ => Mirrors.bind (alike_expect "last") fun _ => ?_
      exact Mirrors.bind h.primary fun window => h.metricFrom { given with window := some window }
    · split
      · refine Mirrors.step keeps_take fun _ => Mirrors.bind h.primary fun fresh => ?_
        exact h.metricFrom { given with fresh := some fresh }
      · refine Mirrors.step keeps_take fun dimension => ?_
        refine Mirrors.bind (alike_expect ":=") fun _ => Mirrors.bind h.expr fun e => ?_
        have hnext := h.metricFrom { given with binds := given.binds ++ [(dimension.text, e)] }
        have hbinds : treesBound encode (given.binds ++ [(dimension.text, e)]) =
            treesBound encode given.binds ++ [.tuple [.text dimension.text, e.tree encode]] := by
          rw [treesBound_eq, treesBound_eq, List.map_append]
          rfl
        dsimp only at hnext
        rw [hbinds] at hnext
        exact hnext

theorem ownRows_alike (kind : AggKind) : Alike (Expr.tree encode) (Parser.ownRows (n + 1) kind)
    (Reference.ownRows (n + 1) kind.text) := by
  unfold Parser.ownRows Reference.ownRows
  refine Mirrors.bind (alike_expect "(") fun _ => Mirrors.bind (alike_taken "distinct") fun was => ?_
  refine Mirrors.bind (alike_unlessNext encode "where" h.expr) fun body => ?_
  refine Mirrors.bind (alike_following encode "where" h.expr) fun filter => ?_
  exact Mirrors.bind (alike_expect ")") fun _ => Mirrors.pure rfl

theorem overItems_alike (kind : AggKind) : Alike (Expr.tree encode)
    (Parser.overItems (n + 1) kind.text kind) (Reference.overItems (n + 1) kind.text) := by
  unfold Parser.overItems Reference.overItems
  refine Mirrors.bind (alike_expect "(") fun _ => Mirrors.bind (alike_taken "distinct") fun was => ?_
  refine Mirrors.step keeps_take fun var => Mirrors.bind (alike_expect "in") fun _ => ?_
  refine Mirrors.bind h.additive fun collection => ?_
  refine Mirrors.bind (alike_following encode "where" h.expr) fun filter => ?_
  refine Mirrors.bind (alike_following encode ":" h.expr) fun body => ?_
  rw [isNone_given, bodied_text]
  dsimp only [id]
  split
  · exact alike_fail _
  · exact Mirrors.bind (alike_expect ")") fun _ => Mirrors.pure rfl

theorem call_alike (function : String) : Alike (Expr.tree encode) (Parser.call (n + 1) function)
    (Reference.call (n + 1) function) := by
  unfold Parser.call Reference.call
  refine Mirrors.step keeps_state fun p => ?_
  dsimp only
  have hplain : Alike (Expr.tree encode)
      (do
        let args ← Parser.arguments n
        return .call (.name function) args)
      (do
        let args ← Reference.arguments n
        return Reference.node "call" [Reference.node "name" [.text function], .list args]) := by
    refine Mirrors.bind h.arguments fun args => Mirrors.pure ?_
    rw [Expr.tree, trees_eq]
    rfl
  have hsome := named_isSome function
  generalize (( p.at' "distinct" 1 && decide ((p.peek 2).kind = .name) && p.at' "in" 3) ||
    (decide ((p.peek 1).kind = .name) && p.at' "in" 2)) = comprehension
  cases hkind : AggKind.named function with
  | some kind =>
      rw [hkind] at hsome
      have hmetric : function ≠ "metric" := by
        rintro rfl
        cases hkind
      have hchanged : function ≠ "changed_since" := by
        rintro rfl
        cases hkind
      obtain rfl := named_text hkind
      simp only [← hsome, Option.isSome_some, Bool.true_and, hmetric, hchanged, ↓reduceIte]
      split
      · exact h.ownRows kind
      · split
        · exact h.overItems kind
        · exact hplain
  | none =>
      rw [hkind] at hsome
      simp only [← hsome, Option.isSome_none, Bool.false_and, Bool.false_eq_true, ↓reduceIte]
      split
      · exact h.metric
      · split
        · refine Mirrors.bind (alike_expect "(") fun _ => Mirrors.bind (alike_expect "[") fun _ => ?_
          refine Mirrors.bind (alike_names n []) fun names => ?_
          refine Mirrors.bind (alike_expect "]") fun _ => Mirrors.bind (alike_expect ",") fun _ => ?_
          refine Mirrors.bind h.expr fun event => ?_
          exact Mirrors.bind (alike_expect ")") fun _ => Mirrors.pure rfl
        · exact hplain

end

/-- **From the same tokens**, with as many turns, every function of the
reference parser mirrors the core's. -/
theorem allAlike (n : Nat) : AllAlike encode n := by
  induction n with
  | zero =>
      exact
        { expr := alike_unfinished
          nestedExpr := alike_unfinished
          implies := alike_unfinished
          or' := alike_unfinished
          orFrom := fun _ => alike_unfinished
          and' := alike_unfinished
          andFrom := fun _ => alike_unfinished
          comparison := alike_unfinished
          compared := fun _ => alike_unfinished
          additive := alike_unfinished
          additiveFrom := fun _ => alike_unfinished
          multiplicative := alike_unfinished
          multiplicativeFrom := fun _ => alike_unfinished
          unary := alike_unfinished
          negated := fun s hs _ => alike_unfinished s hs
          postfixed := alike_unfinished
          postfixedFrom := fun _ => alike_unfinished
          arguments := alike_unfinished
          itemsUntil := fun _ _ => alike_unfinished
          primary := alike_unfinished
          call := fun _ => alike_unfinished
          ownRows := fun _ => alike_unfinished
          overItems := fun _ => alike_unfinished
          metric := alike_unfinished
          metricFrom := fun _ => alike_unfinished }
  | succ n ih =>
      exact
        { expr := fun s hs => alike_nested hs (ih.nestedExpr _ hs)
          nestedExpr := nestedExpr_alike ih
          implies := implies_alike ih
          or' := Mirrors.bind ih.and' ih.orFrom
          orFrom := orFrom_alike ih
          and' := Mirrors.bind ih.comparison ih.andFrom
          andFrom := andFrom_alike ih
          comparison := comparison_alike ih
          compared := compared_alike ih
          additive := Mirrors.bind ih.multiplicative ih.additiveFrom
          additiveFrom := additiveFrom_alike ih
          multiplicative := Mirrors.bind ih.unary ih.multiplicativeFrom
          multiplicativeFrom := multiplicativeFrom_alike ih
          unary := unary_alike ih
          negated := negated_alike ih
          postfixed := Mirrors.bind ih.primary ih.postfixedFrom
          postfixedFrom := postfixedFrom_alike ih
          arguments := arguments_alike ih
          itemsUntil := itemsUntil_alike ih
          primary := primary_alike ih
          call := call_alike ih
          ownRows := ownRows_alike ih
          overItems := overItems_alike ih
          metric := metric_alike ih
          metricFrom := metricFrom_alike ih }

end ObjectFlow
