import ObjectFlow.Base.Turns
import ObjectFlow.Parse

/-!
# A parse ends

Between two tokens taken the core's parser goes at most so deep, and each token
is taken once: the turns a text's parse is given are enough for it to end in a
tree or in a failure.
-/

namespace ObjectFlow

open Base Base.Program

/-- The tokens a parser has left, the last among them. -/
def Parser.left (p : Parser) : Nat := p.toks.length - p.i

/-- A parser of tokens of which the last is the text's end. -/
def Parser.Ended (p : Parser) : Prop := ∃ toks t, p.toks = toks ++ [t] ∧ t.kind = .end'

/-- A parse out of turns. -/
def Halt.IsUnfinished : Halt → Prop
  | .failed _ => False
  | .unfinished => True

/-- From one parser, a parse does not run out of turns, and takes at least so
many tokens. -/
abbrev Parser.TakesAt {α : Type} (k : Nat) (p : Parse α) (s : Parser) : Prop :=
  SpendsAt Parser.left Parser.Ended Halt.IsUnfinished k p s

namespace Parser

/-- A token that is not the last is one of two left at least. -/
theorem Ended.lt {s : Parser} (hs : s.Ended) {k : Nat} (h : (s.peek k).kind ≠ .end') :
    s.i + k + 1 < s.toks.length := by
  obtain ⟨toks, t, htoks, ht⟩ := hs
  by_contra hlast
  have hlength : s.toks.length = toks.length + 1 := by simp [htoks]
  refine h ?_
  rw [peek, show min (s.i + k) (s.toks.length - 1) = toks.length by omega, htoks]
  simpa using ht

theorem at'_kind {s : Parser} {value : String} {k : Nat} (h : s.at' value k = true) :
    (s.peek k).kind ≠ .end' := by
  intro hend
  simp [at', hend] at h

/-- Taking a token that is not the last leaves one fewer. -/
theorem takesAt_take {s : Parser} (hs : s.Ended) (h : (s.peek 0).kind ≠ .end') :
    TakesAt 1 Parse.take s where
  finished := by
    intro e t hrun
    cases hrun
  spends := by
    intro a t hrun
    cases hrun
    have := hs.lt h
    refine ⟨hs, ?_⟩
    show s.toks.length - (s.i + 1) + 1 ≤ s.toks.length - s.i
    omega

/-- Taking any token leaves no more. -/
theorem takesAt_any {s : Parser} (hs : s.Ended) : TakesAt 0 Parse.take s where
  finished := by
    intro e t hrun
    cases hrun
  spends := by
    intro a t hrun
    cases hrun
    refine ⟨hs, ?_⟩
    show s.toks.length - (s.i + 1) + 0 ≤ s.toks.length - s.i
    omega

theorem takesAt_fail {α : Type} {k : Nat} (what : String) (s : Parser) :
    TakesAt k (fail what : Parse α) s :=
  SpendsAt.stopped rfl id

theorem takesAt_expect {s : Parser} (hs : s.Ended) (value : String) :
    TakesAt 1 (expect value) s := by
  refine SpendsAt.read ?_
  dsimp only [id]
  split
  case isTrue hat => exact takesAt_take hs (at'_kind hat)
  case isFalse => exact SpendsAt.stopped rfl id

theorem takesAt_taken {s : Parser} (hs : s.Ended) (value : String) :
    TakesAt 0 (taken value) s := by
  refine SpendsAt.read ?_
  dsimp only [id]
  split
  case isTrue hat =>
    refine SpendsAt.mono ((takesAt_take hs (at'_kind hat)).bind (k := 0) fun _ t _ ht _ => ?_)
      (Nat.zero_le _)
    exact SpendsAt.pure ht
  case isFalse => exact SpendsAt.pure hs

/-- What follows a word that was taken has one token fewer left. -/
theorem takesAt_separator {s : Parser} (hs : s.Ended) (close : String) :
    TakesAt 0 (separator close) s := by
  refine SpendsAt.read ?_
  dsimp only [id]
  split
  · exact SpendsAt.pure hs
  · refine SpendsAt.mono ((takesAt_expect hs ",").bind (k := 0) fun _ t _ ht _ => ?_)
      (Nat.zero_le _)
    exact SpendsAt.pure ht

/-- A separator passed leaves a token to take. -/
theorem separator_left {s t : Parser} (hs : s.Ended) {close : String}
    (hrun : separator close s = (.ok (), t)) : 1 < s.left := by
  unfold separator at hrun
  obtain ⟨p, u, hread, hrest⟩ := bind_ok hrun
  cases hread
  by_cases hat : s.at' close 0 = true
  · have := hs.lt (at'_kind hat)
    unfold left
    omega
  · rw [show (id s) = s from rfl, if_neg hat] at hrest
    obtain ⟨tok, v, hexpect, -⟩ := bind_ok hrest
    unfold expect at hexpect
    obtain ⟨p, w, hread, hexpect⟩ := bind_ok hexpect
    cases hread
    by_cases hcomma : s.at' "," 0 = true
    · have := hs.lt (at'_kind hcomma)
      unfold left
      omega
    · rw [show (id s) = s from rfl, if_neg hcomma] at hexpect
      cases hexpect

/-- From one parser, a parse that is given so many turns beyond those its tokens
pay for does not run out, and takes at least so many tokens. -/
def EndsAt {α : Type} (n c k : Nat) (p : Parse α) (s : Parser) : Prop :=
  32 * s.left + c ≤ n → TakesAt k p s

/-- The same, from every parser of tokens that end. -/
def Ends {α : Type} (n c k : Nat) (p : Parse α) : Prop := ∀ s : Parser, s.Ended → EndsAt n c k p s

section Rules

variable {α β : Type} {n c k : Nat}

theorem Ends.unfinished (hc : 0 < c) : Ends 0 c k (Parse.unfinished : Parse α) := by
  intro s hs hturns
  omega

theorem Ends.mono {c' k' : Nat} {p : Parse α} (h : Ends n c k p) (hc : c ≤ c') (hk : k' ≤ k) :
    Ends n c' k' p :=
  fun s hs hturns => (h s hs (by omega)).mono hk

theorem EndsAt.fewer {k' : Nat} {p : Parse α} {s : Parser} (h : EndsAt n c k p s) (hk : k' ≤ k) :
    EndsAt n c k' p s :=
  fun hturns => (h hturns).mono hk

theorem Ends.pure (a : α) : Ends n c 0 (Pure.pure a : Parse α) := fun _ hs _ => SpendsAt.pure hs

theorem Ends.fail (what : String) : Ends n c k (Parser.fail what : Parse α) :=
  fun s _ _ => takesAt_fail what s

theorem Ends.expect (value : String) : Ends n c 1 (Parser.expect value) :=
  fun _ hs _ => takesAt_expect hs value

theorem Ends.taken (value : String) : Ends n c 0 (Parser.taken value) :=
  fun _ hs _ => takesAt_taken hs value

theorem Ends.take : Ends n c 0 Parse.take := fun _ hs _ => takesAt_any hs

/-- What follows a parse has the turns its tokens paid for. -/
theorem EndsAt.bind {j : Nat} {p : Parse α} {q : α → Parse β} {s : Parser}
    (hp : EndsAt n c j p s) (hq : ∀ a, Ends n (c + 32 * j) k (q a)) :
    EndsAt n c (j + k) (p >>= q) s := by
  intro hturns
  refine (hp hturns).bind fun a t _ ht hleft => hq a t ht ?_
  omega

theorem Ends.bind {j : Nat} {p : Parse α} {q : α → Parse β} (hp : Ends n c j p)
    (hq : ∀ a, Ends n (c + 32 * j) k (q a)) : Ends n c (j + k) (p >>= q) :=
  fun s hs => (hp s hs).bind hq

theorem EndsAt.read {q : Parser → Parse β} {s : Parser} (h : EndsAt n c k (q s) s) :
    EndsAt n c k (Parse.parser >>= q) s :=
  fun hturns => (h hturns).read (r := id)

/-- What follows a token taken that is not the last. -/
theorem EndsAt.taking {q : Token → Parse β} {s : Parser} (hs : s.Ended)
    (h : (s.peek 0).kind ≠ .end') (hq : ∀ t, Ends n (c + 32) 0 (q t)) :
    EndsAt n c 1 (Parse.take >>= q) s :=
  EndsAt.bind (fun _ => takesAt_take hs h) hq

/-- What follows a parse that takes a token. -/
theorem Ends.opens {p : Parse α} {q : α → Parse β} (hp : Ends n c 1 p)
    (hq : ∀ a, Ends n (c + 32) 0 (q a)) : Ends n c 1 (p >>= q) :=
  Ends.bind hp hq

/-- What follows a parse, of no more turns than it was given. -/
theorem Ends.next {p : Parse α} {q : α → Parse β} (hp : Ends n c 0 p)
    (hq : ∀ a, Ends n c 0 (q a)) : Ends n c 0 (p >>= q) :=
  Ends.bind (k := 0) hp hq

theorem Ends.word (value : String) : Ends n c 0 (Parser.expect value) :=
  (Ends.expect value).mono (Nat.le_refl _) (Nat.zero_le _)

end Rules

/-! ### Each function -/

theorem ends_nested {α : Type} {n c k : Nat} {p : Parse α} {s : Parser} (hs : s.Ended)
    (h : EndsAt n c k p { s with depth := s.depth + 1 }) : EndsAt n c k (nested p) s := by
  intro hturns
  have hkept : ∀ d : Nat → Nat, ∀ t : Parser, t.Ended →
      TakesAt 0 (Program.modify fun p => { p with depth := d p.depth } : Parse Unit) t := by
    intro d t ht
    exact ⟨fun e u hrun => (by cases hrun), fun a u hrun => (by
      cases hrun
      exact ⟨ht, Nat.le_refl _⟩)⟩
  have hbody := SpendsAt.bind (h hturns) (k := 0)
    (q := fun a => do
      Program.modify fun p : Parser => { p with depth := p.depth - 1 }
      return a)
    fun a t _ ht _ => (hkept (· - 1) t ht).bind (k := 0) fun _ u _ hu _ => SpendsAt.pure hu
  refine SpendsAt.mono ((hkept (· + 1) s hs).bind (k := k) fun _ t hrun _ _ => ?_) (by omega)
  cases hrun
  exact hbody

theorem ends_separator {n c : Nat} (close : String) : Ends n c 0 (separator close) :=
  fun _ hs _ => takesAt_separator hs close

theorem ends_following {n c k : Nat} (value : String) {p : Parse Expr} (h : Ends n c k p) :
    Ends n c 0 (following value p) := by
  refine Ends.bind (j := 0) (k := 0) (Ends.taken value) fun was => ?_
  cases was with
  | false => exact Ends.pure _
  | true =>
      exact (Ends.bind (k := 0) h fun _ => Ends.pure _).mono (Nat.le_refl _) (Nat.zero_le _)

theorem ends_unlessNext {n c k : Nat} (value : String) {p : Parse Expr} (h : Ends n c k p) :
    Ends n c 0 (unlessNext value p) := by
  intro s hs
  refine EndsAt.read ?_
  split
  · exact Ends.pure _ s hs
  · exact (Ends.bind (k := 0) h fun _ => Ends.pure _).mono (Nat.le_refl _) (Nat.zero_le _) s hs

theorem ends_names (n : Nat) (found : List String) : Ends n 1 0 (names n found) := by
  induction n generalizing found with
  | zero => exact Ends.unfinished Nat.one_pos
  | succ n ih =>
      intro s hs
      unfold names
      refine EndsAt.read ?_
      split
      · exact Ends.pure _ s hs
      · intro hturns
        refine SpendsAt.bind (j := 0) (k := 0) (takesAt_any hs) fun name t htake ht _ => ?_
        refine SpendsAt.bind (j := 0) (k := 0) (takesAt_separator ht "]") fun _ u hsep hu hleft => ?_
        refine ih _ u hu ?_
        -- the separator passed, so the name taken was not the last token
        have hmore := separator_left ht hsep
        cases htake
        have hleft' : u.left + 0 ≤ s.toks.length - (s.i + 1) := hleft
        have hmore' : 1 < s.toks.length - (s.i + 1) := hmore
        have hs' : s.left = s.toks.length - s.i := rfl
        omega

/-- Every function of the core's parser, given so many turns. -/
structure AllEnd (n : Nat) : Prop where
  expr : Ends n 11 1 (expr n)
  nestedExpr : Ends n 10 1 (nestedExpr n)
  implies : Ends n 9 1 (implies n)
  or' : Ends n 8 1 (or' n)
  orFrom : ∀ e, Ends n 1 0 (orFrom n e)
  and' : Ends n 7 1 (and' n)
  andFrom : ∀ e, Ends n 1 0 (andFrom n e)
  comparison : Ends n 6 1 (comparison n)
  compared : ∀ e, Ends n 1 0 (compared n e)
  additive : Ends n 5 1 (additive n)
  additiveFrom : ∀ e, Ends n 1 0 (additiveFrom n e)
  multiplicative : Ends n 4 1 (multiplicative n)
  multiplicativeFrom : ∀ e, Ends n 1 0 (multiplicativeFrom n e)
  unary : Ends n 3 1 (unary n)
  negated : ∀ s : Parser, s.Ended → (s.peek 0).kind ≠ .end' → EndsAt n 2 1 (negated n) s
  postfixed : Ends n 2 1 (postfixed n)
  postfixedFrom : ∀ e, Ends n 2 0 (postfixedFrom n e)
  arguments : Ends n 1 1 (arguments n)
  itemsUntil : ∀ close items, Ends n 12 0 (itemsUntil n close items)
  primary : Ends n 1 1 (primary n)
  call : ∀ function, Ends n 2 1 (call n function)
  ownRows : ∀ kind, Ends n 1 1 (ownRows n kind)
  overItems : ∀ function kind, Ends n 1 1 (overItems n function kind)
  metric : Ends n 1 1 (metric n)
  metricFrom : ∀ given, Ends n 1 0 (metricFrom n given)

section

variable {n : Nat} (h : AllEnd n)

include h

omit h in
/-- One turn taken, what it pays for. -/
theorem Ends.succ {α : Type} {n c k : Nat} {p : Parse α} (h : Ends n c k p) :
    Ends (n + 1) (c + 1) k p :=
  fun s hs hturns => h s hs (by omega)

theorem expr_ends : Ends (n + 1) 11 1 (expr (n + 1)) := by
  refine Ends.succ fun s hs => ?_
  exact ends_nested hs (h.nestedExpr _ hs)

/-- An expression, of turns enough for one. -/
theorem AllEnd.exprOf {c : Nat} (hc : 11 ≤ c) : Ends n c 0 (Parser.expr n) :=
  h.expr.mono hc (Nat.zero_le _)

theorem nestedExpr_ends : Ends (n + 1) 10 1 (nestedExpr (n + 1)) := by
  refine Ends.succ fun s hs => ?_
  unfold nestedExpr
  refine EndsAt.read ?_
  split
  · exact Ends.fail _ s hs
  · split
    case isTrue hat =>
      refine EndsAt.taking hs (at'_kind hat) fun _ => ?_
      refine Ends.next (h.exprOf (by omega)) fun cond => Ends.next (Ends.word _) fun _ => ?_
      refine Ends.next (h.exprOf (by omega)) fun a => Ends.next (Ends.word _) fun _ => ?_
      exact Ends.next (h.exprOf (by omega)) fun b => Ends.pure _
    case isFalse => exact h.implies s hs

theorem implies_ends : Ends (n + 1) 9 1 (implies (n + 1)) := by
  refine Ends.succ (Ends.opens h.or' fun left s hs => ?_)
  refine EndsAt.read ?_
  split
  · refine Ends.next Ends.take (fun _ => ?_) s hs
    exact Ends.next (h.implies.mono (by omega) (by omega)) fun right => Ends.pure _
  · exact Ends.pure _ s hs

theorem or'_ends : Ends (n + 1) 8 1 (or' (n + 1)) :=
  Ends.succ (Ends.opens h.and' fun left => (h.orFrom left).mono (by omega) (by omega))

theorem orFrom_ends (left : Expr) : Ends (n + 1) 1 0 (orFrom (n + 1) left) := by
  refine Ends.succ fun s hs => EndsAt.read ?_
  split
  case isTrue hat =>
    refine EndsAt.fewer (EndsAt.taking hs (at'_kind hat) fun _ => ?_) (Nat.zero_le _)
    refine Ends.next (h.and'.mono (by omega) (by omega)) fun right => ?_
    exact (h.orFrom _).mono (by omega) (by omega)
  case isFalse => exact Ends.pure _ s hs

theorem and'_ends : Ends (n + 1) 7 1 (and' (n + 1)) :=
  Ends.succ (Ends.opens h.comparison fun left => (h.andFrom left).mono (by omega) (by omega))

theorem andFrom_ends (left : Expr) : Ends (n + 1) 1 0 (andFrom (n + 1) left) := by
  refine Ends.succ fun s hs => EndsAt.read ?_
  split
  case isTrue hat =>
    refine EndsAt.fewer (EndsAt.taking hs (at'_kind hat) fun _ => ?_) (Nat.zero_le _)
    refine Ends.next (h.comparison.mono (by omega) (by omega)) fun right => ?_
    exact (h.andFrom _).mono (by omega) (by omega)
  case isFalse => exact Ends.pure _ s hs

theorem comparison_ends : Ends (n + 1) 6 1 (comparison (n + 1)) := by
  refine Ends.succ (Ends.opens h.additive fun left s hs => ?_)
  refine EndsAt.read ?_
  split
  · exact Ends.pure _ s hs
  · refine Ends.next ((h.compared left).mono (by omega) (by omega)) (fun node t ht => ?_) s hs
    refine EndsAt.read ?_
    split
    · exact Ends.fail _ t ht
    · exact Ends.pure _ t ht

omit h in
/-- An operator next is a token that is not the last. -/
theorem operator_kind {s : Parser} {of : String → Option BinOp} {op : BinOp}
    (hop : s.operator of = some op) : (s.peek 0).kind ≠ .end' := by
  intro hend
  simp [operator, hend] at hop

theorem compared_ends (left : Expr) : Ends (n + 1) 1 0 (compared (n + 1) left) := by
  refine Ends.succ fun s hs => ?_
  unfold compared
  refine EndsAt.read ?_
  split
  next op hop =>
    refine EndsAt.fewer (EndsAt.taking hs (operator_kind hop) fun _ => ?_) (Nat.zero_le _)
    exact Ends.next (h.additive.mono (by omega) (by omega)) fun right => Ends.pure _
  next =>
    split
    case isTrue hat =>
      refine EndsAt.fewer (EndsAt.taking hs (at'_kind hat) fun _ => ?_) (Nat.zero_le _)
      exact Ends.next (h.additive.mono (by omega) (by omega)) fun right => Ends.pure _
    case isFalse =>
      refine Ends.next Ends.take (fun _ => ?_) s hs
      refine Ends.next (Ends.taken _) fun negated => ?_
      exact Ends.next (Ends.word _) fun _ => Ends.pure _

theorem additive_ends : Ends (n + 1) 5 1 (additive (n + 1)) :=
  Ends.succ (Ends.opens h.multiplicative fun left =>
    (h.additiveFrom left).mono (by omega) (by omega))

theorem additiveFrom_ends (left : Expr) : Ends (n + 1) 1 0 (additiveFrom (n + 1) left) := by
  refine Ends.succ fun s hs => ?_
  unfold additiveFrom
  refine EndsAt.read ?_
  split
  next op hop =>
    refine EndsAt.fewer (EndsAt.taking hs (operator_kind hop) fun _ => ?_) (Nat.zero_le _)
    refine Ends.next (h.multiplicative.mono (by omega) (by omega)) fun right => ?_
    exact (h.additiveFrom _).mono (by omega) (by omega)
  next => exact Ends.pure _ s hs

theorem multiplicative_ends : Ends (n + 1) 4 1 (multiplicative (n + 1)) :=
  Ends.succ (Ends.opens h.unary fun left =>
    (h.multiplicativeFrom left).mono (by omega) (by omega))

theorem multiplicativeFrom_ends (left : Expr) :
    Ends (n + 1) 1 0 (multiplicativeFrom (n + 1) left) := by
  refine Ends.succ fun s hs => ?_
  unfold multiplicativeFrom
  refine EndsAt.read ?_
  split
  next op hop =>
    refine EndsAt.fewer (EndsAt.taking hs (operator_kind hop) fun _ => ?_) (Nat.zero_le _)
    refine Ends.next (h.unary.mono (by omega) (by omega)) fun right => ?_
    exact (h.multiplicativeFrom _).mono (by omega) (by omega)
  next => exact Ends.pure _ s hs

theorem unary_ends : Ends (n + 1) 3 1 (unary (n + 1)) := by
  refine Ends.succ fun s hs => ?_
  unfold unary
  refine EndsAt.read ?_
  split
  case isTrue hat =>
    have hkind : (s.peek 0).kind ≠ .end' := by
      rcases Bool.or_eq_true_iff.mp hat with hat | hat
      · exact at'_kind hat
      · exact at'_kind hat
    exact ends_nested hs (h.negated _ hs hkind)
  case isFalse => exact h.postfixed s hs

theorem negated_ends (s : Parser) (hs : s.Ended) (hkind : (s.peek 0).kind ≠ .end') :
    EndsAt (n + 1) 2 1 (negated (n + 1)) s := by
  have hunary : ∀ make : Expr → Expr,
      EndsAt n 1 1 (Parse.take >>= fun _ => unary n >>= fun e => Pure.pure (make e)) s :=
    fun make => EndsAt.taking hs hkind fun _ =>
      Ends.next (h.unary.mono (by omega) (by omega)) fun e => Ends.pure _
  suffices hbody : EndsAt n 1 1 (negated (n + 1)) s from fun hturns => hbody (by omega)
  unfold negated
  refine EndsAt.read ?_
  split
  · exact Ends.fail _ s hs
  · split
    · exact hunary .not
    · exact hunary .neg

theorem postfixed_ends : Ends (n + 1) 2 1 (postfixed (n + 1)) :=
  Ends.succ (Ends.opens h.primary fun node => (h.postfixedFrom node).mono (by omega) (by omega))

theorem postfixedFrom_ends (node : Expr) : Ends (n + 1) 2 0 (postfixedFrom (n + 1) node) := by
  refine Ends.succ fun s hs => ?_
  unfold postfixedFrom
  refine EndsAt.read ?_
  split
  case isTrue hat =>
    refine EndsAt.fewer (EndsAt.taking hs (at'_kind hat) fun _ t ht => ?_) (Nat.zero_le _)
    refine EndsAt.read ?_
    split
    · exact Ends.fail _ t ht
    · refine Ends.next Ends.take (fun member => ?_) t ht
      exact (h.postfixedFrom _).mono (by omega) (by omega)
  case isFalse =>
    split
    · refine EndsAt.fewer (Ends.opens h.arguments (fun args => ?_) s hs) (Nat.zero_le _)
      exact (h.postfixedFrom _).mono (by omega) (by omega)
    · exact Ends.pure _ s hs

theorem arguments_ends : Ends (n + 1) 1 1 (arguments (n + 1)) := by
  refine Ends.succ (Ends.opens (Ends.expect _) fun _ => ?_)
  refine Ends.next ((h.itemsUntil _ _).mono (by omega) (by omega)) fun args => ?_
  exact Ends.next (Ends.word _) fun _ => Ends.pure _

theorem itemsUntil_ends (close : String) (items : List Expr) :
    Ends (n + 1) 12 0 (itemsUntil (n + 1) close items) := by
  refine Ends.succ fun s hs => ?_
  unfold itemsUntil
  refine EndsAt.read ?_
  split
  · exact Ends.pure _ s hs
  · refine EndsAt.fewer (Ends.opens h.expr (fun e => ?_) s hs) (Nat.zero_le _)
    refine Ends.next (ends_separator close) fun _ => ?_
    exact (h.itemsUntil _ _).mono (by omega) (by omega)

theorem ownRows_ends (kind : AggKind) : Ends (n + 1) 1 1 (ownRows (n + 1) kind) := by
  refine Ends.succ (Ends.opens (Ends.expect _) fun _ => ?_)
  refine Ends.next (Ends.taken _) fun distinct => ?_
  refine Ends.next (ends_unlessNext _ (h.exprOf (by omega))) fun body => ?_
  refine Ends.next (ends_following _ (h.exprOf (by omega))) fun filter => ?_
  exact Ends.next (Ends.word _) fun _ => Ends.pure _

theorem overItems_ends (function : String) (kind : AggKind) :
    Ends (n + 1) 1 1 (overItems (n + 1) function kind) := by
  refine Ends.succ (Ends.opens (Ends.expect _) fun _ => ?_)
  refine Ends.next (Ends.taken _) fun distinct => Ends.next Ends.take fun var => ?_
  refine Ends.next (Ends.word _) fun _ => ?_
  refine Ends.next (h.additive.mono (by omega) (by omega)) fun collection => ?_
  refine Ends.next (ends_following _ (h.exprOf (by omega))) fun filter => ?_
  refine Ends.next (ends_following _ (h.exprOf (by omega))) fun body => ?_
  split
  · exact Ends.fail _
  · exact Ends.next (Ends.word _) fun _ => Ends.pure _

theorem metric_ends : Ends (n + 1) 1 1 (metric (n + 1)) := by
  refine Ends.succ (Ends.opens (Ends.expect _) fun _ => ?_)
  refine Ends.next (h.additive.mono (by omega) (by omega)) fun name => ?_
  refine Ends.next ((h.metricFrom _).mono (by omega) (by omega)) fun given => ?_
  exact Ends.next (Ends.word _) fun _ => Ends.pure _

theorem metricFrom_ends (given : Given) : Ends (n + 1) 1 0 (metricFrom (n + 1) given) := by
  have hprimary : Ends n 32 0 (primary n) := h.primary.mono (by omega) (by omega)
  have hrest : ∀ given', Ends n 32 0 (metricFrom n given') := fun given' =>
    (h.metricFrom given').mono (by omega) (by omega)
  refine Ends.succ fun s hs => ?_
  unfold metricFrom
  refine EndsAt.read ?_
  split
  case isTrue hat =>
    refine EndsAt.fewer (EndsAt.taking hs (at'_kind hat) fun _ t ht => ?_) (Nat.zero_le _)
    refine EndsAt.read ?_
    split
    · refine Ends.next Ends.take (fun _ => Ends.next (Ends.word _) fun _ => ?_) t ht
      exact Ends.next hprimary fun window => hrest _
    · split
      · refine Ends.next Ends.take (fun _ => ?_) t ht
        exact Ends.next hprimary fun fresh => hrest _
      · refine Ends.next Ends.take (fun dimension => Ends.next (Ends.word _) fun _ => ?_) t ht
        exact Ends.next (h.exprOf (by omega)) fun e => hrest _
  case isFalse => exact Ends.pure _ s hs

theorem call_ends (function : String) : Ends (n + 1) 2 1 (call (n + 1) function) := by
  have harguments : Ends n 1 1 (arguments n >>= fun args =>
      Pure.pure (Expr.call (.name function) args)) :=
    Ends.opens h.arguments fun args => Ends.pure _
  refine Ends.succ fun s hs => ?_
  unfold call
  refine EndsAt.read ?_
  split
  next kind _ =>
    dsimp only
    split
    · exact h.ownRows kind s hs
    · split
      · exact h.overItems function kind s hs
      · exact harguments s hs
  next =>
    split
    · exact h.metric s hs
    · split
      · refine Ends.opens (Ends.expect _) (fun _ => Ends.next (Ends.word _) fun _ => ?_) s hs
        refine Ends.next ((ends_names n []).mono (by omega) (by omega)) fun names => ?_
        refine Ends.next (Ends.word _) fun _ => Ends.next (Ends.word _) fun _ => ?_
        refine Ends.next (h.exprOf (by omega)) fun event => ?_
        exact Ends.next (Ends.word _) fun _ => Ends.pure _
      · exact harguments s hs

theorem primary_ends : Ends (n + 1) 1 1 (primary (n + 1)) := by
  refine Ends.succ fun s hs => ?_
  unfold primary
  refine EndsAt.read ?_
  dsimp only
  split
  case isTrue hparam =>
    have hkind : (s.peek 0).kind ≠ .end' := by
      intro hend
      simp [hend] at hparam
    refine EndsAt.taking hs hkind fun _ => ?_
    exact Ends.next Ends.take fun name => Ends.pure _
  case isFalse =>
    split
    next hkind =>
      refine EndsAt.taking hs (by rw [hkind]; simp) fun _ t ht => ?_
      refine EndsAt.read ?_
      split
      · exact Ends.next Ends.take (fun unit => Ends.pure _) t ht
      · exact Ends.pure _ t ht
    next hkind =>
      exact EndsAt.taking hs (by rw [hkind]; simp) fun _ => Ends.pure _
    next hkind =>
      have hkind : (s.peek 0).kind ≠ .end' := by rw [hkind]; simp
      split
      · exact EndsAt.taking hs hkind fun _ => Ends.pure _
      · split
        · exact EndsAt.taking hs hkind fun _ => Ends.next Ends.take fun amount => Ends.pure _
        · split
          · exact Ends.fail _ s hs
          · refine EndsAt.taking hs hkind fun _ t ht => EndsAt.read ?_
            split
            · exact (h.call _).mono (by omega) (by omega) t ht
            · exact Ends.pure _ t ht
    next hkind =>
      have hkind : (s.peek 0).kind ≠ .end' := by rw [hkind]; simp
      split
      · refine EndsAt.taking hs hkind fun _ => Ends.next (h.exprOf (by omega)) fun node => ?_
        exact Ends.next (Ends.word _) fun _ => Ends.pure _
      · split
        · refine EndsAt.taking hs hkind fun _ => ?_
          refine Ends.next ((h.itemsUntil _ _).mono (by omega) (by omega)) fun items => ?_
          exact Ends.next (Ends.word _) fun _ => Ends.pure _
        · exact Ends.fail _ s hs
    next => exact Ends.fail _ s hs

end

/-- **No function runs out of turns** that are enough for the tokens left. -/
theorem allEnd (n : Nat) : AllEnd n := by
  induction n with
  | zero =>
      have hnone : ∀ {α : Type} {c k : Nat}, 0 < c → Ends 0 c k (Parse.unfinished : Parse α) :=
        fun hc => Ends.unfinished hc
      constructor <;> intros <;> first | exact hnone (by omega) | skip
      exact hnone (by omega) _ ‹_›
  | succ n ih =>
      exact ⟨expr_ends ih, nestedExpr_ends ih, implies_ends ih, or'_ends ih, orFrom_ends ih,
        and'_ends ih, andFrom_ends ih, comparison_ends ih, compared_ends ih, additive_ends ih,
        additiveFrom_ends ih, multiplicative_ends ih, multiplicativeFrom_ends ih, unary_ends ih,
        negated_ends ih, postfixed_ends ih, postfixedFrom_ends ih, arguments_ends ih,
        itemsUntil_ends ih, primary_ends ih, call_ends ih, ownRows_ends ih, overItems_ends ih,
        metric_ends ih, metricFrom_ends ih⟩

/-- **A text's parse ends**: its expression's is a tree or a failure. -/
theorem expr_finished {s : Parser} (hs : s.Ended) (e : Halt) (t : Parser)
    (hrun : expr (turns s.toks) s = (.error e, t)) : ∃ failure, e = .failed failure := by
  have henough : 32 * s.left + 11 ≤ turns s.toks := by
    unfold left turns
    omega
  have hfinished := ((allEnd (turns s.toks)).expr s hs henough).finished e t hrun
  cases e with
  | failed failure => exact ⟨failure, rfl⟩
  | unfinished => exact absurd trivial hfinished

end Parser

end ObjectFlow
