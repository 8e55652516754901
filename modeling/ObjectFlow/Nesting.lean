import ObjectFlow.Levels

/-!
# What bounds a parse's nesting

The watched parser does what the parser does, and the strict one does so until
one parse too many would open: one lemma says so of each function, for as many
turns as it is given, and the induction is on the turns.
-/

namespace ObjectFlow

open Base Base.Program
open ObjectFlow.Parse ObjectFlow.Parser

/-! ### A tree's depth, counted without recursion -/

/-- How deep the trees of a stack reach. -/
def reached (stack : List (Expr × Nat)) : Nat :=
  (stack.map fun p => p.1.depth + p.2 - 1).foldr max 0

/-- A parse, watched and strict. -/
abbrev Stepped {α : Type} (p : Parse α) (q : Watching Halt α) (r : Watching (Option Halt) α) : Prop :=
  Watches MAX_NESTING p q r

namespace Watcher

variable {α : Type}

theorem stepped_alone (p : Parse α) : Stepped p (counting.alone p) (strict.alone p) :=
  Watches.alone p

theorem stepped_entered {p : Parse α} {q : Watching Halt α} {r : Watching (Option Halt) α}
    (h : Stepped p q r) : Stepped p (counting.entered q) (strict.entered r) :=
  Watches.entered h

theorem stepped_nested {p : Parse α} {q : Watching Halt α} {r : Watching (Option Halt) α}
    (h : Stepped p q r) : Stepped (Parser.nested p) (counting.nested q) (strict.nested r) := by
  apply Watches.bind (stepped_alone _)
  intro _
  apply Watches.bind h
  intro a
  apply Watches.bind (stepped_alone _)
  intro _
  exact Watches.pure a

theorem stepped_following (value : String) {p : Parse Expr} {q : Watching Halt Expr}
    {r : Watching (Option Halt) Expr} (h : Stepped p q r) :
    Stepped (Parser.following value p) (counting.following value q) (strict.following value r) := by
  apply Watches.bind (stepped_alone _)
  intro found
  apply Watches.ite
  · intro _
    exact Watches.bind h fun e => Watches.pure (some e)
  · intro _
    exact Watches.pure none

theorem stepped_unlessNext (value : String) {p : Parse Expr} {q : Watching Halt Expr}
    {r : Watching (Option Halt) Expr} (h : Stepped p q r) :
    Stepped (Parser.unlessNext value p) (counting.unlessNext value q)
      (strict.unlessNext value r) := by
  apply Watches.bind (stepped_alone _)
  intro s
  apply Watches.ite
  · intro _
    exact Watches.pure none
  · intro _
    exact Watches.bind h fun e => Watches.pure (some e)

/-- Every function of the parser, given as many turns. -/
structure AllStepped (n : Nat) : Prop where
  expr : Stepped (Parser.expr n) (counting.expr n) (strict.expr n)
  nestedExpr : Stepped (Parser.nestedExpr n) (counting.nestedExpr n) (strict.nestedExpr n)
  implies : Stepped (Parser.implies n) (counting.implies n) (strict.implies n)
  or' : Stepped (Parser.or' n) (counting.or' n) (strict.or' n)
  orFrom : ∀ e, Stepped (Parser.orFrom n e) (counting.orFrom n e) (strict.orFrom n e)
  and' : Stepped (Parser.and' n) (counting.and' n) (strict.and' n)
  andFrom : ∀ e, Stepped (Parser.andFrom n e) (counting.andFrom n e) (strict.andFrom n e)
  comparison : Stepped (Parser.comparison n) (counting.comparison n) (strict.comparison n)
  compared : ∀ e, Stepped (Parser.compared n e) (counting.compared n e) (strict.compared n e)
  additive : Stepped (Parser.additive n) (counting.additive n) (strict.additive n)
  additiveFrom : ∀ e, Stepped (Parser.additiveFrom n e) (counting.additiveFrom n e)
    (strict.additiveFrom n e)
  multiplicative : Stepped (Parser.multiplicative n) (counting.multiplicative n)
    (strict.multiplicative n)
  multiplicativeFrom : ∀ e, Stepped (Parser.multiplicativeFrom n e)
    (counting.multiplicativeFrom n e) (strict.multiplicativeFrom n e)
  unary : Stepped (Parser.unary n) (counting.unary n) (strict.unary n)
  negated : Stepped (Parser.negated n) (counting.negated n) (strict.negated n)
  postfixed : Stepped (Parser.postfixed n) (counting.postfixed n) (strict.postfixed n)
  postfixedFrom : ∀ e, Stepped (Parser.postfixedFrom n e) (counting.postfixedFrom n e)
    (strict.postfixedFrom n e)
  arguments : Stepped (Parser.arguments n) (counting.arguments n) (strict.arguments n)
  itemsUntil : ∀ close items, Stepped (Parser.itemsUntil n close items)
    (counting.itemsUntil n close items) (strict.itemsUntil n close items)
  primary : Stepped (Parser.primary n) (counting.primary n) (strict.primary n)
  call : ∀ function, Stepped (Parser.call n function) (counting.call n function)
    (strict.call n function)
  ownRows : ∀ kind, Stepped (Parser.ownRows n kind) (counting.ownRows n kind)
    (strict.ownRows n kind)
  overItems : ∀ function kind, Stepped (Parser.overItems n function kind)
    (counting.overItems n function kind) (strict.overItems n function kind)
  metric : Stepped (Parser.metric n) (counting.metric n) (strict.metric n)
  metricFrom : ∀ given, Stepped (Parser.metricFrom n given) (counting.metricFrom n given)
    (strict.metricFrom n given)

section

variable {n : Nat} (h : AllStepped n)

include h

theorem nestedExpr_stepped :
    Stepped (Parser.nestedExpr (n + 1)) (counting.nestedExpr (n + 1)) (strict.nestedExpr (n + 1)) := by
  unfold Parser.nestedExpr Watcher.nestedExpr
  apply Watches.bind (stepped_alone _)
  intro s
  apply Watches.ite
  · intro _
    exact stepped_alone _
  · intro _
    apply Watches.ite
    · intro _
      apply Watches.bind (stepped_alone _)
      intro _
      apply Watches.bind (stepped_entered h.expr)
      intro cond
      apply Watches.bind (stepped_alone _)
      intro _
      apply Watches.bind (stepped_entered h.expr)
      intro a
      apply Watches.bind (stepped_alone _)
      intro _
      apply Watches.bind (stepped_entered h.expr)
      intro b
      exact Watches.pure _
    · intro _
      exact h.implies

theorem implies_stepped :
    Stepped (Parser.implies (n + 1)) (counting.implies (n + 1)) (strict.implies (n + 1)) := by
  unfold Parser.implies Watcher.implies
  apply Watches.bind h.or'
  intro left
  apply Watches.bind (stepped_alone _)
  intro s
  apply Watches.ite
  · intro _
    apply Watches.bind (stepped_alone _)
    intro _
    exact Watches.bind (stepped_entered h.implies) fun right => Watches.pure _
  · intro _
    exact Watches.pure left

theorem or'_stepped :
    Stepped (Parser.or' (n + 1)) (counting.or' (n + 1)) (strict.or' (n + 1)) :=
  Watches.bind h.and' h.orFrom

theorem orFrom_stepped (left : Expr) : Stepped (Parser.orFrom (n + 1) left)
    (counting.orFrom (n + 1) left) (strict.orFrom (n + 1) left) := by
  unfold Parser.orFrom Watcher.orFrom
  apply Watches.bind (stepped_alone _)
  intro s
  apply Watches.ite
  · intro _
    apply Watches.bind (stepped_alone _)
    intro _
    apply Watches.bind h.and'
    intro right
    exact h.orFrom (.bin .or left right)
  · intro _
    exact Watches.pure left

theorem and'_stepped :
    Stepped (Parser.and' (n + 1)) (counting.and' (n + 1)) (strict.and' (n + 1)) :=
  Watches.bind h.comparison h.andFrom

theorem andFrom_stepped (left : Expr) : Stepped (Parser.andFrom (n + 1) left)
    (counting.andFrom (n + 1) left) (strict.andFrom (n + 1) left) := by
  unfold Parser.andFrom Watcher.andFrom
  apply Watches.bind (stepped_alone _)
  intro s
  apply Watches.ite
  · intro _
    apply Watches.bind (stepped_alone _)
    intro _
    apply Watches.bind h.comparison
    intro right
    exact h.andFrom (.bin .and left right)
  · intro _
    exact Watches.pure left

theorem comparison_stepped :
    Stepped (Parser.comparison (n + 1)) (counting.comparison (n + 1)) (strict.comparison (n + 1)) := by
  unfold Parser.comparison Watcher.comparison
  apply Watches.bind h.additive
  intro left
  apply Watches.bind (stepped_alone _)
  intro s
  apply Watches.ite
  · intro _
    exact Watches.pure left
  · intro _
    apply Watches.bind (h.compared left)
    intro node
    apply Watches.bind (stepped_alone _)
    intro s
    apply Watches.ite
    · intro _
      exact stepped_alone _
    · intro _
      exact Watches.pure node

theorem compared_stepped (left : Expr) : Stepped (Parser.compared (n + 1) left)
    (counting.compared (n + 1) left) (strict.compared (n + 1) left) := by
  unfold Parser.compared Watcher.compared
  apply Watches.bind (stepped_alone _)
  intro s
  cases s.operator BinOp.comparison with
  | some op =>
      apply Watches.bind (stepped_alone _)
      intro _
      exact Watches.bind h.additive fun right => Watches.pure _
  | none =>
      apply Watches.ite
      · intro _
        apply Watches.bind (stepped_alone _)
        intro _
        exact Watches.bind h.additive fun right => Watches.pure _
      · intro _
        apply Watches.bind (stepped_alone _)
        intro _
        apply Watches.bind (stepped_alone _)
        intro negated
        exact Watches.bind (stepped_alone _) fun _ => Watches.pure _

theorem additive_stepped :
    Stepped (Parser.additive (n + 1)) (counting.additive (n + 1)) (strict.additive (n + 1)) :=
  Watches.bind h.multiplicative h.additiveFrom

theorem additiveFrom_stepped (left : Expr) : Stepped (Parser.additiveFrom (n + 1) left)
    (counting.additiveFrom (n + 1) left) (strict.additiveFrom (n + 1) left) := by
  unfold Parser.additiveFrom Watcher.additiveFrom
  apply Watches.bind (stepped_alone _)
  intro s
  cases s.operator BinOp.additive with
  | none => exact Watches.pure left
  | some op =>
      apply Watches.bind (stepped_alone _)
      intro _
      apply Watches.bind h.multiplicative
      intro right
      exact h.additiveFrom (.bin op left right)

theorem multiplicative_stepped :
    Stepped (Parser.multiplicative (n + 1)) (counting.multiplicative (n + 1)) (strict.multiplicative (n + 1)) :=
  Watches.bind h.unary h.multiplicativeFrom

theorem multiplicativeFrom_stepped (left : Expr) : Stepped (Parser.multiplicativeFrom (n + 1) left)
    (counting.multiplicativeFrom (n + 1) left) (strict.multiplicativeFrom (n + 1) left) := by
  unfold Parser.multiplicativeFrom Watcher.multiplicativeFrom
  apply Watches.bind (stepped_alone _)
  intro s
  cases s.operator BinOp.multiplicative with
  | none => exact Watches.pure left
  | some op =>
      apply Watches.bind (stepped_alone _)
      intro _
      apply Watches.bind h.unary
      intro right
      exact h.multiplicativeFrom (.bin op left right)

theorem unary_stepped :
    Stepped (Parser.unary (n + 1)) (counting.unary (n + 1)) (strict.unary (n + 1)) := by
  unfold Parser.unary Watcher.unary
  apply Watches.bind (stepped_alone _)
  intro s
  apply Watches.ite
  · intro _
    exact stepped_entered (stepped_nested h.negated)
  · intro _
    exact h.postfixed

theorem negated_stepped :
    Stepped (Parser.negated (n + 1)) (counting.negated (n + 1)) (strict.negated (n + 1)) := by
  unfold Parser.negated Watcher.negated
  apply Watches.bind (stepped_alone _)
  intro s
  apply Watches.ite
  · intro _
    exact stepped_alone _
  · intro _
    apply Watches.ite
    · intro _
      apply Watches.bind (stepped_alone _)
      intro _
      exact Watches.bind h.unary fun e => Watches.pure _
    · intro _
      apply Watches.bind (stepped_alone _)
      intro _
      exact Watches.bind h.unary fun e => Watches.pure _

theorem postfixed_stepped :
    Stepped (Parser.postfixed (n + 1)) (counting.postfixed (n + 1)) (strict.postfixed (n + 1)) :=
  Watches.bind h.primary h.postfixedFrom

theorem postfixedFrom_stepped (node : Expr) : Stepped (Parser.postfixedFrom (n + 1) node)
    (counting.postfixedFrom (n + 1) node) (strict.postfixedFrom (n + 1) node) := by
  unfold Parser.postfixedFrom Watcher.postfixedFrom
  apply Watches.bind (stepped_alone _)
  intro s
  apply Watches.ite
  · intro _
    apply Watches.bind (stepped_alone _)
    intro _
    apply Watches.bind (stepped_alone _)
    intro s
    apply Watches.ite
    · intro _
      exact stepped_alone _
    · intro _
      exact Watches.bind (stepped_alone _) fun member => h.postfixedFrom _
  · intro _
    apply Watches.ite
    · intro _
      exact Watches.bind h.arguments fun args => h.postfixedFrom _
    · intro _
      exact Watches.pure node

theorem arguments_stepped :
    Stepped (Parser.arguments (n + 1)) (counting.arguments (n + 1)) (strict.arguments (n + 1)) := by
  unfold Parser.arguments Watcher.arguments
  apply Watches.bind (stepped_alone _)
  intro _
  apply Watches.bind (h.itemsUntil ")" [])
  intro args
  exact Watches.bind (stepped_alone _) fun _ => Watches.pure args

theorem itemsUntil_stepped (close : String) (items : List Expr) :
    Stepped (Parser.itemsUntil (n + 1) close items) (counting.itemsUntil (n + 1) close items)
      (strict.itemsUntil (n + 1) close items) := by
  unfold Parser.itemsUntil Watcher.itemsUntil
  apply Watches.bind (stepped_alone _)
  intro s
  apply Watches.ite
  · intro _
    exact Watches.pure items
  · intro _
    apply Watches.bind (stepped_entered h.expr)
    intro e
    exact Watches.bind (stepped_alone _) fun _ => h.itemsUntil close _

theorem primary_stepped :
    Stepped (Parser.primary (n + 1)) (counting.primary (n + 1)) (strict.primary (n + 1)) := by
  unfold Parser.primary Watcher.primary
  apply Watches.bind (stepped_alone _)
  intro s
  apply Watches.ite
  · intro _
    apply Watches.bind (stepped_alone _)
    intro _
    exact Watches.bind (stepped_alone _) fun name => Watches.pure _
  · intro _
    cases (s.peek 0).kind with
    | num =>
        apply Watches.bind (stepped_alone _)
        intro _
        apply Watches.bind (stepped_alone _)
        intro s
        apply Watches.ite
        · intro _
          exact Watches.bind (stepped_alone _) fun unit => Watches.pure _
        · intro _
          exact Watches.pure _
    | str => exact Watches.bind (stepped_alone _) fun _ => Watches.pure _
    | name =>
        apply Watches.ite
        · intro _
          exact Watches.bind (stepped_alone _) fun _ => Watches.pure _
        · intro _
          apply Watches.ite
          · intro _
            apply Watches.bind (stepped_alone _)
            intro _
            exact Watches.bind (stepped_alone _) fun amount => Watches.pure _
          · intro _
            apply Watches.ite
            · intro _
              exact stepped_alone _
            · intro _
              apply Watches.bind (stepped_alone _)
              intro _
              apply Watches.bind (stepped_alone _)
              intro s
              apply Watches.ite
              · intro _
                exact h.call _
              · intro _
                exact Watches.pure _
    | op =>
        apply Watches.ite
        · intro _
          apply Watches.bind (stepped_alone _)
          intro _
          apply Watches.bind (stepped_entered h.expr)
          intro node
          exact Watches.bind (stepped_alone _) fun _ => Watches.pure node
        · intro _
          apply Watches.ite
          · intro _
            apply Watches.bind (stepped_alone _)
            intro _
            apply Watches.bind (h.itemsUntil "\x7d" [])
            intro items
            exact Watches.bind (stepped_alone _) fun _ => Watches.pure _
          · intro _
            exact stepped_alone _
    | end' => exact stepped_alone _

theorem call_stepped (function : String) : Stepped (Parser.call (n + 1) function)
    (counting.call (n + 1) function) (strict.call (n + 1) function) := by
  unfold Parser.call Watcher.call
  apply Watches.bind (stepped_alone _)
  intro s
  cases AggKind.named function with
  | some kind =>
      apply Watches.ite
      · intro _
        exact h.ownRows kind
      · intro _
        apply Watches.ite
        · intro _
          exact h.overItems function kind
        · intro _
          exact Watches.bind h.arguments fun args => Watches.pure _
  | none =>
      apply Watches.ite
      · intro _
        exact h.metric
      · intro _
        apply Watches.ite
        · intro _
          apply Watches.bind (stepped_alone _)
          intro _
          apply Watches.bind (stepped_alone _)
          intro _
          apply Watches.bind (stepped_alone _)
          intro names
          apply Watches.bind (stepped_alone _)
          intro _
          apply Watches.bind (stepped_alone _)
          intro _
          apply Watches.bind (stepped_entered h.expr)
          intro event
          exact Watches.bind (stepped_alone _) fun _ => Watches.pure _
        · intro _
          exact Watches.bind h.arguments fun args => Watches.pure _

theorem ownRows_stepped (kind : AggKind) : Stepped (Parser.ownRows (n + 1) kind)
    (counting.ownRows (n + 1) kind) (strict.ownRows (n + 1) kind) := by
  unfold Parser.ownRows Watcher.ownRows
  apply Watches.bind (stepped_alone _)
  intro _
  apply Watches.bind (stepped_alone _)
  intro distinct
  apply Watches.bind (stepped_unlessNext "where" (stepped_entered h.expr))
  intro body
  apply Watches.bind (stepped_following "where" (stepped_entered h.expr))
  intro filter
  exact Watches.bind (stepped_alone _) fun _ => Watches.pure _

theorem overItems_stepped (function : String) (kind : AggKind) :
    Stepped (Parser.overItems (n + 1) function kind) (counting.overItems (n + 1) function kind)
      (strict.overItems (n + 1) function kind) := by
  unfold Parser.overItems Watcher.overItems
  apply Watches.bind (stepped_alone _)
  intro _
  apply Watches.bind (stepped_alone _)
  intro distinct
  apply Watches.bind (stepped_alone _)
  intro var
  apply Watches.bind (stepped_alone _)
  intro _
  apply Watches.bind (stepped_entered h.additive)
  intro collection
  apply Watches.bind (stepped_following "where" (stepped_entered h.expr))
  intro filter
  apply Watches.bind (stepped_following ":" (stepped_entered h.expr))
  intro body
  apply Watches.ite
  · intro _
    exact stepped_alone _
  · intro _
    exact Watches.bind (stepped_alone _) fun _ => Watches.pure _

theorem metric_stepped :
    Stepped (Parser.metric (n + 1)) (counting.metric (n + 1)) (strict.metric (n + 1)) := by
  unfold Parser.metric Watcher.metric
  apply Watches.bind (stepped_alone _)
  intro _
  apply Watches.bind (stepped_entered h.additive)
  intro name
  apply Watches.bind (h.metricFrom {})
  intro given
  exact Watches.bind (stepped_alone _) fun _ => Watches.pure _

theorem metricFrom_stepped (given : Given) : Stepped (Parser.metricFrom (n + 1) given)
    (counting.metricFrom (n + 1) given) (strict.metricFrom (n + 1) given) := by
  unfold Parser.metricFrom Watcher.metricFrom
  apply Watches.bind (stepped_alone _)
  intro s
  apply Watches.ite
  · intro _
    apply Watches.bind (stepped_alone _)
    intro _
    apply Watches.bind (stepped_alone _)
    intro s
    apply Watches.ite
    · intro _
      apply Watches.bind (stepped_alone _)
      intro _
      apply Watches.bind (stepped_alone _)
      intro _
      exact Watches.bind (stepped_entered h.primary) fun window => h.metricFrom _
    · intro _
      apply Watches.ite
      · intro _
        apply Watches.bind (stepped_alone _)
        intro _
        exact Watches.bind (stepped_entered h.primary) fun fresh => h.metricFrom _
      · intro _
        apply Watches.bind (stepped_alone _)
        intro dimension
        apply Watches.bind (stepped_alone _)
        intro _
        exact Watches.bind (stepped_entered h.expr) fun e => h.metricFrom _
  · intro _
    exact Watches.pure given

end

/-- **The parsers are in step**, whatever turns they are given. -/
theorem allStepped (n : Nat) : AllStepped n := by
  induction n with
  | zero => constructor <;> intros <;> exact stepped_alone unfinished
  | succ n ih =>
      exact {
        expr := stepped_nested ih.nestedExpr
        nestedExpr := nestedExpr_stepped ih
        implies := implies_stepped ih
        or' := or'_stepped ih
        orFrom := orFrom_stepped ih
        and' := and'_stepped ih
        andFrom := andFrom_stepped ih
        comparison := comparison_stepped ih
        compared := compared_stepped ih
        additive := additive_stepped ih
        additiveFrom := additiveFrom_stepped ih
        multiplicative := multiplicative_stepped ih
        multiplicativeFrom := multiplicativeFrom_stepped ih
        unary := unary_stepped ih
        negated := negated_stepped ih
        postfixed := postfixed_stepped ih
        postfixedFrom := postfixedFrom_stepped ih
        arguments := arguments_stepped ih
        itemsUntil := itemsUntil_stepped ih
        primary := primary_stepped ih
        call := call_stepped ih
        ownRows := ownRows_stepped ih
        overItems := overItems_stepped ih
        metric := metric_stepped ih
        metricFrom := metricFrom_stepped ih }

end Watcher

/-! ### A text's nesting -/

/-- A text's parse watched, its tokens given the turns its parse is. -/
def watched {ε : Type} (w : Watcher ε) (text : String) (params : Bool) (toks : List Token) :
    Except ε Expr × Watched Parser :=
  w.expr (turns toks) { state := { text, toks, params } }

/-- Watched, a text is parsed as it is. -/
theorem watched_value (text : String) (params : Bool) (toks : List Token) :
    (watched Watcher.counting text params toks).1 =
      (Parser.expr (turns toks) { text, toks, params }).1 :=
  ((Watcher.allStepped _).expr _).value

/-- The most parses open at once within the outermost expression's, at any
point of a text's parse. -/
def opened (text : String) (params : Bool) : Nat :=
  match tokenize text with
  | .error _ => 0
  | .ok toks => (watched Watcher.counting text params toks).2.most

section Chain

/-- A chain of implications. -/
def chained : Nat → List Char
  | 0 => ['a']
  | k + 1 => ['a', ' ', 'i', 'm', 'p', 'l', 'i', 'e', 's', ' '] ++ chained k

end Chain

end ObjectFlow
