import ObjectFlow.Rendering

/-!
# What is written is read back

The parser at the tokens of a tree written out reads that tree, and stands after
them.  Each level's statement follows from the next tighter one's, and a tree's
own from its parts', by recursion on it.
-/

namespace ObjectFlow

open Base Base.Program

namespace Parser

/-- The parser so many tokens on. -/
def past (p : Parser) (k : Nat) : Parser := { p with i := p.i + k }

/-- The tokens a parser has before it. -/
def Sees (p : Parser) (toks : List Lexeme) : Prop := (p.toks.drop p.i).map Token.lexeme = toks

@[simp] theorem past_depth (p : Parser) (k : Nat) : (p.past k).depth = p.depth := rfl

@[simp] theorem past_params (p : Parser) (k : Nat) : (p.past k).params = p.params := rfl

@[simp] theorem past_past (p : Parser) (j k : Nat) : (p.past j).past k = p.past (j + k) := by
  unfold past
  rw [Nat.add_assoc]

theorem past_congr {α : Type} (p : Parser) (a : α) {j k : Nat} (h : j = k) :
    ((.ok a, p.past j) : Except Halt α × Parser) = (.ok a, p.past k) := by
  rw [h]

@[simp] theorem past_zero (p : Parser) : p.past 0 = p := rfl

theorem Sees.past {p : Parser} {toks rest : List Lexeme} (h : p.Sees (toks ++ rest)) :
    (p.past toks.length).Sees rest := by
  unfold Sees Parser.past at *
  rw [← List.drop_drop, List.map_drop, h, List.drop_left]

theorem Sees.next {p : Parser} {l : Lexeme} {rest : List Lexeme} (h : p.Sees (l :: rest)) :
    (p.past 1).Sees rest :=
  Sees.past (show p.Sees ([l] ++ rest) from h)

/-- The token so many past the parser's is the one it sees there. -/
theorem Sees.peek {p : Parser} {toks : List Lexeme} (h : p.Sees toks) {k : Nat} {l : Lexeme}
    (hk : toks[k]? = some l) : (p.peek k).lexeme = l := by
  unfold Sees at h
  rw [← h, List.getElem?_map, List.getElem?_drop, Option.map_eq_some_iff] at hk
  obtain ⟨t, ht, hl⟩ := hk
  have hlt : p.i + k < p.toks.length := by
    by_contra hge
    rw [List.getElem?_eq_none (by omega)] at ht
    cases ht
  unfold Parser.peek
  rw [Nat.min_eq_left (by omega), ht]
  exact hl

theorem Sees.at' {p : Parser} {toks : List Lexeme} (h : p.Sees toks) {k : Nat} {l : Lexeme}
    (hk : toks[k]? = some l) (value : String) : p.at' value k = l.is value := by
  rw [← h.peek hk]
  rfl

theorem Sees.kind {p : Parser} {toks : List Lexeme} (h : p.Sees toks) {k : Nat} {l : Lexeme}
    (hk : toks[k]? = some l) : (p.peek k).kind = l.kind := by
  rw [← h.peek hk]
  rfl

theorem Sees.text {p : Parser} {toks : List Lexeme} (h : p.Sees toks) {k : Nat} {l : Lexeme}
    (hk : toks[k]? = some l) : (p.peek k).text = l.text := by
  rw [← h.peek hk]
  rfl

theorem Sees.first_kind {p : Parser} {l : Lexeme} {rest : List Lexeme} (h : p.Sees (l :: rest)) :
    (p.peek 0).kind = l.kind :=
  h.kind rfl

theorem Sees.first_text {p : Parser} {l : Lexeme} {rest : List Lexeme} (h : p.Sees (l :: rest)) :
    (p.peek 0).text = l.text :=
  h.text rfl

/-! ### Programs run -/

section Runs

variable {α β : Type}

theorem run_bind {P : Parse α} {p q : Parser} {a : α} (h : P p = (.ok a, q)) (f : α → Parse β) :
    (P >>= f) p = f a q := by
  rw [bind_run, h]

theorem run_current (f : Parser → Parse β) (p : Parser) : (Parse.parser >>= f) p = f p p := rfl

theorem run_take (f : Token → Parse β) (p : Parser) :
    (Parse.take >>= f) p = f (p.peek 0) (p.past 1) := rfl

theorem run_expect {p : Parser} {l : Lexeme} {rest : List Lexeme} (h : p.Sees (l :: rest))
    {value : String} (hl : l.is value = true) (f : Token → Parse β) :
    (expect value >>= f) p = f (p.peek 0) (p.past 1) := by
  have hexpect : expect value p = (.ok (p.peek 0), p.past 1) := by
    unfold expect
    rw [run_current, if_pos ((h.at' rfl value).trans hl)]
    rfl
  exact run_bind hexpect f

theorem run_taken {p : Parser} {l : Lexeme} {rest : List Lexeme} (h : p.Sees (l :: rest))
    {value : String} (hl : l.is value = true) (f : Bool → Parse β) :
    (taken value >>= f) p = f true (p.past 1) := by
  have htaken : taken value p = (.ok true, p.past 1) := by
    unfold taken
    rw [run_current, if_pos ((h.at' rfl value).trans hl)]
    rfl
  exact run_bind htaken f

theorem run_notTaken {p : Parser} {l : Lexeme} {rest : List Lexeme} (h : p.Sees (l :: rest))
    {value : String} (hl : l.is value = false) (f : Bool → Parse β) :
    (taken value >>= f) p = f false p := by
  have htaken : taken value p = (.ok false, p) := by
    unfold taken
    rw [run_current, if_neg (by rw [h.at' rfl value, hl]; exact Bool.false_ne_true)]
    rfl
  exact run_bind htaken f

/-- A parse one level deeper, from the parser at that level. -/
theorem run_nested {P : Parse α} {p : Parser} {a : α} {k : Nat}
    (h : P { p with depth := p.depth + 1 } =
      (.ok a, Parser.past { p with depth := p.depth + 1 } k)) :
    nested P p = (.ok a, p.past k) := by
  exact run_bind h fun a => do
    Program.modify fun p : Parser => { p with depth := p.depth - 1 }
    return a

end Runs

end Parser

/-! ### What may follow -/

/-- The place each token goes on in an expression before it, tighter ones
after. -/
def TIES : List (String × Nat) :=
  [("(", 10), (".", 9), ("*", 7), ("/", 7), ("+", 6), ("-", 6), ("==", 5), ("!=", 5), ("<", 5),
    ("<=", 5), (">", 5), (">=", 5), ("in", 5), ("is", 5), ("and", 4), ("or", 3), ("implies", 2)] ++
    UNITS.map (·, 10)

/-- The tightest place a token goes on in what stands before it. -/
def Lexeme.tie (l : Lexeme) : Nat :=
  match l.kind with
  | .num => 10
  | .str | .end' => 0
  | .op | .name => (TIES.lookup l.text).getD 0

def tieOf : List Lexeme → Nat
  | [] => 10
  | l :: _ => l.tie

theorem Lexeme.tie_is {l : Lexeme} {value : String} (h : l.is value = true) :
    l.tie = (TIES.lookup value).getD 0 := by
  unfold Lexeme.is at h
  unfold Lexeme.tie
  simp only [Bool.and_eq_true, decide_eq_true_eq, Bool.or_eq_true] at h
  obtain ⟨htext, hkind⟩ := h
  rw [htext]
  rcases hkind with hkind | hkind <;> rw [hkind]

/-- A token written one way is written no other. -/
theorem Lexeme.is_other {l : Lexeme} {value other : String} (h : l.is value = true)
    (hne : value ≠ other) : l.is other = false := by
  unfold Lexeme.is at *
  simp only [Bool.and_eq_true, decide_eq_true_eq] at h
  simp [h.1, hne]

/-- A token that goes on no further than a place is none that goes on past
it. -/
theorem Lexeme.is_of_tie {l : Lexeme} {k : Nat} (h : l.tie ≤ k) {value : String}
    (hvalue : k < (TIES.lookup value).getD 0) : l.is value = false := by
  by_contra hl
  rw [Bool.not_eq_false] at hl
  rw [Lexeme.tie_is hl] at h
  omega

/-! ### What a level's parse reads -/

namespace Parser

/-- The parse of a place. -/
def level : Nat → Nat → Parse Expr
  | 0, n => nestedExpr n
  | 1, n => implies n
  | 2, n => or' n
  | 3, n => and' n
  | 4, n => comparison n
  | 5, n => additive n
  | 6, n => multiplicative n
  | 7, n => unary n
  | 8, n => postfixed n
  | _, n => primary n

/-- What goes on after an operand, in the places that repeat. -/
def loop : Nat → Nat → Expr → Parse Expr
  | 2, n, e => orFrom n e
  | 3, n, e => andFrom n e
  | 5, n, e => additiveFrom n e
  | 6, n, e => multiplicativeFrom n e
  | _, n, e => postfixedFrom n e

/-- A parser before what is written, with the turns and the levels to read
it. -/
structure Before (params : Bool) (k n : Nat) (p : Parser) (w : Rendered) (rest : List Lexeme) :
    Prop where
  params : p.params = params
  sees : p.Sees (w.toks ++ rest)
  nests : p.depth + w.levels ≤ MAX_NESTING
  turns : 32 * w.toks.length ≤ n + k

/-- What may follow a tree in a place: nothing that goes on in it there, unless
a path's arguments. -/
def Closes (k : Nat) (e : Expr) (rest : List Lexeme) : Prop :=
  tieOf rest ≤ k ∨ (9 ≤ k ∧ e.isPath = true ∧ rest.head?.any (·.is "(") = true)

/-- What is written reads as the tree in a place. -/
def ReadsAs (params : Bool) (k : Nat) (e : Expr) (w : Rendered) : Prop :=
  ∀ p rest n, Before params k n p w rest → Closes k e rest →
    level k n p = (.ok e, p.past w.toks.length)

/-- What is written reads as the tree a repeating place goes on from. -/
def ReachesAs (params : Bool) (k : Nat) (e : Expr) (w : Rendered) : Prop :=
  ∀ p rest n, Before params k n p w rest → Closes (k + 1) e rest →
    ∃ m, n + 16 ≤ m + 32 * w.toks.length ∧ level k n p = loop k m e (p.past w.toks.length)

/-- Whether a place repeats. -/
def repeats (k : Nat) : Bool := k = 2 || k = 3 || k = 5 || k = 6 || k = 8

/-- What is written reads as the tree in its own place, and as one the place goes
on from where it repeats. -/
def Own (params : Bool) (k : Nat) (e : Expr) (w : Rendered) : Prop :=
  if repeats k then ReachesAs params k e w else ReadsAs params k e w

/-- The words no expression starts with. -/
def NEVER : List String := ["in", ")", "\x7d"]

/-- How what is written starts: as no expression of a looser place does. -/
structure Starts (k : Nat) (w : Rendered) : Prop where
  some : w.toks ≠ []
  never : ∀ value ∈ NEVER, w.toks.head?.any (·.is value) = false
  if' : 1 ≤ k → w.toks.head?.any (·.is "if") = false
  not : 8 ≤ k → w.toks.head?.any (·.is "not") = false
  minus : 8 ≤ k → w.toks.head?.any (·.is "-") = false

theorem operator_none {p : Parser} {l : Lexeme} {rest : List Lexeme} (h : p.Sees (l :: rest))
    {of : String → Option BinOp} {k : Nat} (hl : l.tie ≤ k)
    (hof : ∀ text, (of text).isSome → k < (TIES.lookup text).getD 0) : p.operator of = none := by
  unfold operator
  rw [h.kind rfl, h.text rfl]
  by_cases hkind : l.kind = .op
  · rw [if_pos hkind]
    by_contra hsome
    have htie : l.tie = (TIES.lookup l.text).getD 0 := by
      unfold Lexeme.tie
      rw [hkind]
    have hlt := hof l.text (Option.ne_none_iff_isSome.mp hsome)
    omega
  · rw [if_neg hkind]

theorem lookup_isSome {table : List (String × BinOp)} {P : String → Prop}
    (h : ∀ row ∈ table, P row.1) {text : String} (hsome : (table.lookup text).isSome) : P text := by
  induction table with
  | nil => cases hsome
  | cons row rest ih =>
      rw [List.lookup_cons] at hsome
      cases heq : text == row.1 with
      | true =>
          rw [beq_iff_eq.mp heq]
          exact h row List.mem_cons_self
      | false =>
          rw [heq] at hsome
          exact ih (fun row hrow => h row (List.mem_cons_of_mem _ hrow)) hsome

/-- **A repeating place ends** where nothing after goes on in it. -/
theorem loop_ends {k : Nat} (hk : repeats k = true) {p : Parser} {l : Lexeme}
    {rest : List Lexeme} (h : p.Sees (l :: rest)) (hl : l.tie ≤ k) (n : Nat) (e : Expr) :
    loop k (n + 1) e p = (.ok e, p) := by
  have hcases : k = 2 ∨ k = 3 ∨ k = 5 ∨ k = 6 ∨ k = 8 := by
    unfold repeats at hk
    simpa [or_assoc] using hk
  have hat : ∀ value, k < (TIES.lookup value).getD 0 → p.at' value 0 = false := by
    intro value hvalue
    rw [h.at' rfl value]
    exact Lexeme.is_of_tie hl hvalue
  rcases hcases with rfl | rfl | rfl | rfl | rfl
  · show orFrom (n + 1) e p = _
    unfold orFrom
    rw [run_current, hat "or" (by decide)]
    rfl
  · show andFrom (n + 1) e p = _
    unfold andFrom
    rw [run_current, hat "and" (by decide)]
    rfl
  · show additiveFrom (n + 1) e p = _
    unfold additiveFrom
    rw [run_current, operator_none h hl]
    · rfl
    · intro text htext
      exact lookup_isSome (P := fun text => 5 < (TIES.lookup text).getD 0) (by decide) htext
  · show multiplicativeFrom (n + 1) e p = _
    unfold multiplicativeFrom
    rw [run_current, operator_none h hl]
    · rfl
    · intro text htext
      exact lookup_isSome (P := fun text => 6 < (TIES.lookup text).getD 0) (by decide) htext
  · show postfixedFrom (n + 1) e p = _
    unfold postfixedFrom
    rw [run_current, hat "." (by decide), hat "(" (by decide)]
    rfl

/-! ### From a tighter place to a looser one -/

section Places

variable {params : Bool} {e : Expr} {w : Rendered}

theorem Closes.looser {k : Nat} {rest : List Lexeme} (h : Closes k e rest) :
    Closes (k + 1) e rest := by
  rcases h with h | ⟨hk, h⟩
  · exact .inl (by omega)
  · exact .inr ⟨by omega, h⟩

/-- Where nothing goes on past a place, a token stands that does not. -/
theorem exists_head {k : Nat} (hk : k < 10) {rest : List Lexeme} (h : tieOf rest ≤ k) :
    ∃ l more, rest = l :: more ∧ l.tie ≤ k := by
  cases rest with
  | nil => exact absurd (show 10 ≤ k from h) (by omega)
  | cons l more => exact ⟨l, more, rfl, h⟩

theorem Closes.head {k : Nat} (hk : k < 9) {rest : List Lexeme} (h : Closes k e rest) :
    ∃ l more, rest = l :: more ∧ l.tie ≤ k := by
  rcases h with h | ⟨hk', _⟩
  · exact exists_head (by omega) h
  · omega

theorem Before.tighter {k n : Nat} {p : Parser} {rest : List Lexeme}
    (h : Before params k (n + 1) p w rest) : Before params (k + 1) n p w rest :=
  ⟨h.params, h.sees, h.nests, by have := h.turns; omega⟩

theorem Starts.length {k : Nat} (h : Starts k w) : 1 ≤ w.toks.length := List.length_pos_iff.mpr h.some

theorem Starts.looser {j k : Nat} (h : Starts k w) (hjk : j ≤ k) : Starts j w where
  some := h.some
  never := h.never
  if' := fun hj => h.if' (by omega)
  not := fun hj => h.not (by omega)
  minus := fun hj => h.minus (by omega)

/-- What a parser sees first of what is written is no word it does not start
with. -/
theorem Before.at'_first {k n : Nat} {p : Parser} {rest : List Lexeme}
    (h : Before params k n p w rest) (hsome : w.toks ≠ []) {value : String}
    (hvalue : w.toks.head?.any (·.is value) = false) : p.at' value 0 = false := by
  obtain ⟨l, toks, htoks⟩ := List.exists_cons_of_ne_nil hsome
  have hsees := h.sees
  rw [htoks] at hsees hvalue
  rw [hsees.at' rfl value]
  exact hvalue

/-- **A repeating place goes on from an operand** of the next tighter one. -/
theorem reaches_of_reads {k : Nat} (hk : repeats k = true) (hstarts : Starts (k + 1) w)
    (h : ReadsAs params (k + 1) e w) : ReachesAs params k e w := by
  intro p rest n hbefore hcloses
  have hlength := hstarts.length
  have hturns := hbefore.turns
  have hcases : k = 2 ∨ k = 3 ∨ k = 5 ∨ k = 6 ∨ k = 8 := by
    unfold repeats at hk
    simpa [or_assoc] using hk
  obtain ⟨n, rfl⟩ : ∃ m, n = m + 1 := Nat.exists_eq_succ_of_ne_zero (by omega)
  refine ⟨n, by omega, ?_⟩
  have hread := h p rest n hbefore.tighter hcloses
  rcases hcases with rfl | rfl | rfl | rfl | rfl
  · exact run_bind hread (orFrom n)
  · exact run_bind hread (andFrom n)
  · exact run_bind hread (additiveFrom n)
  · exact run_bind hread (multiplicativeFrom n)
  · exact run_bind hread (postfixedFrom n)

/-- What a repeating place reads where nothing after goes on in it. -/
theorem reads_of_reaches {k : Nat} (hk : repeats k = true) (h : ReachesAs params k e w) :
    ReadsAs params k e w := by
  intro p rest n hbefore hcloses
  have hsmall : k < 9 := by
    unfold repeats at hk
    simp only [Bool.or_eq_true, decide_eq_true_eq] at hk
    omega
  obtain ⟨m, hm, hrun⟩ := h p rest n hbefore hcloses.looser
  obtain ⟨l, more, rfl, hl⟩ := hcloses.head hsmall
  have hturns := hbefore.turns
  obtain ⟨m, rfl⟩ : ∃ j, m = j + 1 := Nat.exists_eq_succ_of_ne_zero (by omega)
  rw [hrun, loop_ends hk hbefore.sees.past hl]

theorem Own.reads {k : Nat} (h : Own params k e w) : ReadsAs params k e w := by
  unfold Own at h
  by_cases hk : repeats k = true
  · rw [if_pos hk] at h
    exact reads_of_reaches hk h
  · rw [if_neg hk] at h
    exact h

/-- What nothing compares with is what its place reads. -/
theorem comparison_of_reads (hstarts : Starts 5 w) (h : ReadsAs params 5 e w) :
    ReadsAs params 4 e w := by
  intro p rest n hbefore hcloses
  have hlength := hstarts.length
  have hturns := hbefore.turns
  obtain ⟨n, rfl⟩ : ∃ m, n = m + 1 := Nat.exists_eq_succ_of_ne_zero (by omega)
  have hread := h p rest n hbefore.tighter hcloses.looser
  obtain ⟨l, more, rfl, hl⟩ := hcloses.head (by omega)
  have hsees := hbefore.sees.past
  have hnone : (p.past w.toks.length).isComparison = false := by
    unfold isComparison
    rw [hsees.at' rfl, hsees.at' rfl, Lexeme.is_of_tie hl (by decide),
      Lexeme.is_of_tie hl (by decide), operator_none hsees hl]
    · rfl
    · intro text htext
      exact lookup_isSome (P := fun text => 4 < (TIES.lookup text).getD 0) (by decide) htext
  show comparison (n + 1) p = _
  unfold comparison
  rw [run_bind (P := additive n) hread, run_current, hnone]
  rfl

/-- An operand that no `not` and no `-` starts. -/
theorem unary_of_reads (hstarts : Starts 8 w) (h : ReadsAs params 8 e w) :
    ReadsAs params 7 e w := by
  intro p rest n hbefore hcloses
  have hlength := hstarts.length
  have hturns := hbefore.turns
  obtain ⟨n, rfl⟩ : ∃ m, n = m + 1 := Nat.exists_eq_succ_of_ne_zero (by omega)
  have hread := h p rest n hbefore.tighter hcloses.looser
  show unary (n + 1) p = _
  unfold unary
  rw [run_current, hbefore.at'_first hstarts.some (hstarts.not (Nat.le_refl _)),
    hbefore.at'_first hstarts.some (hstarts.minus (Nat.le_refl _))]
  exact hread

theorem implies_of_reads (hstarts : Starts 2 w) (h : ReadsAs params 2 e w) :
    ReadsAs params 1 e w := by
  intro p rest n hbefore hcloses
  have hlength := hstarts.length
  have hturns := hbefore.turns
  obtain ⟨n, rfl⟩ : ∃ m, n = m + 1 := Nat.exists_eq_succ_of_ne_zero (by omega)
  have hread := h p rest n hbefore.tighter hcloses.looser
  obtain ⟨l, more, rfl, hl⟩ := hcloses.head (by omega)
  have hsees := hbefore.sees.past
  show implies (n + 1) p = _
  unfold implies
  rw [run_bind (P := or' n) hread, run_current, hsees.at' rfl, Lexeme.is_of_tie hl (by decide)]
  rfl

theorem nestedExpr_of_reads (hstarts : Starts 1 w) (h : ReadsAs params 1 e w) :
    ReadsAs params 0 e w := by
  intro p rest n hbefore hcloses
  have hlength := hstarts.length
  have hturns := hbefore.turns
  have hnests := hbefore.nests
  obtain ⟨n, rfl⟩ : ∃ m, n = m + 1 := Nat.exists_eq_succ_of_ne_zero (by omega)
  have hread := h p rest n hbefore.tighter hcloses.looser
  show nestedExpr (n + 1) p = _
  unfold nestedExpr
  rw [run_current, if_neg (by omega), hbefore.at'_first hstarts.some (hstarts.if' (Nat.le_refl _))]
  exact hread

/-- **What reads in a place reads in the next looser one.** -/
theorem Own.looser {k : Nat} (hk : k < 9) (hstarts : Starts (k + 1) w)
    (h : Own params (k + 1) e w) : Own params k e w := by
  have hreads := h.reads
  unfold Own
  by_cases hrepeats : repeats k = true
  · rw [if_pos hrepeats]
    exact reaches_of_reads hrepeats hstarts hreads
  · rw [if_neg hrepeats]
    unfold repeats at hrepeats
    simp only [Bool.or_eq_true, decide_eq_true_eq, not_or] at hrepeats
    have hcases : k = 0 ∨ k = 1 ∨ k = 4 ∨ k = 7 := by omega
    rcases hcases with rfl | rfl | rfl | rfl
    · exact nestedExpr_of_reads hstarts hreads
    · exact implies_of_reads hstarts hreads
    · exact comparison_of_reads hstarts hreads
    · exact unary_of_reads hstarts hreads

theorem Own.down {j k : Nat} (hjk : j ≤ k) (hk : k ≤ 9) (hstarts : Starts k w)
    (h : Own params k e w) : Own params j e w := by
  induction k with
  | zero =>
      obtain rfl : j = 0 := by omega
      exact h
  | succ k ih =>
      by_cases heq : j = k + 1
      · rw [heq]
        exact h
      · exact ih (by omega) (by omega) (hstarts.looser (by omega)) (h.looser (by omega) hstarts)

end Places

/-! ### Operands -/

end Parser

namespace Rendered

@[simp] theorem toks_append (a b : Rendered) : (a ++ b).toks = a.toks ++ b.toks := rfl

@[simp] theorem levels_append (a b : Rendered) : (a ++ b).levels = max a.levels b.levels := rfl

theorem append_assoc (a b c : Rendered) : a ++ b ++ c = a ++ (b ++ c) := by
  show Rendered.mk _ _ = Rendered.mk _ _
  rw [Rendered.mk.injEq]
  exact ⟨List.append_assoc _ _ _, Nat.max_assoc _ _ _⟩

@[simp] theorem toks_of (toks : List Lexeme) : (of toks).toks = toks := rfl

@[simp] theorem levels_of (toks : List Lexeme) : (of toks).levels = 0 := rfl

@[simp] theorem toks_deeper (w : Rendered) : w.deeper.toks = w.toks := rfl

@[simp] theorem levels_deeper (w : Rendered) : w.deeper.levels = w.levels + 1 := rfl

@[simp] theorem toks_inParens (w : Rendered) :
    w.inParens.toks = .op "(" :: (w.toks ++ [.op ")"]) := rfl

@[simp] theorem levels_inParens (w : Rendered) : w.inParens.levels = w.levels + 1 := by
  show max (max 0 (w.levels + 1)) 0 = w.levels + 1
  omega

end Rendered

namespace Parser

section Operands

variable {params : Bool} {e : Expr} {w : Rendered}

/-- What is written reads as the tree in its place, and starts as that place
does. -/
structure Holds (params : Bool) (k : Nat) (e : Expr) (w : Rendered) : Prop where
  own : Own params k e w
  starts : Starts k w

theorem Holds.down {j k : Nat} (h : Holds params k e w) (hjk : j ≤ k) (hk : k ≤ 9) :
    Holds params j e w :=
  ⟨h.own.down hjk hk h.starts, h.starts.looser hjk⟩

/-- What is written reads as an expression of its own. -/
structure Whole (params : Bool) (e : Expr) (w : Rendered) : Prop where
  reads : ∀ p rest n, Before params 0 n p w rest → tieOf rest = 0 →
    expr (n + 1) p = (.ok e, p.past w.toks.length)
  starts : Starts 0 w

theorem Holds.whole (h : Holds params 0 e w) : Whole params e w.deeper := by
  have hstarts := h.starts
  refine ⟨?_, ⟨hstarts.some, hstarts.never, hstarts.if', hstarts.not, hstarts.minus⟩⟩
  intro p rest n hbefore htie
  have hnests := hbefore.nests
  rw [Rendered.levels_deeper] at hnests
  have hdeeper : Before params 0 n { p with depth := p.depth + 1 } w rest :=
    ⟨hbefore.params, hbefore.sees, by
      show p.depth + 1 + w.levels ≤ MAX_NESTING
      omega, hbefore.turns⟩
  exact run_nested (h.own.reads _ rest n hdeeper (.inl (by omega)))

theorem starts_inParens (w : Rendered) : Starts 9 w.inParens where
  some := by
    rw [Rendered.toks_inParens]
    exact List.cons_ne_nil _ _
  never := by
    have hparen : ∀ value ∈ NEVER, (Lexeme.op "(").is value = false := by decide
    exact hparen
  if' := fun _ => rfl
  not := fun _ => rfl
  minus := fun _ => rfl

/-- **What stands in parentheses reads in the tightest place.** -/
theorem Holds.inParens (h : Holds params 0 e w) : Holds params 9 e w.inParens := by
  refine ⟨?_, starts_inParens w⟩
  show ReadsAs params 9 e w.inParens
  intro p rest n hbefore _
  have hturns := hbefore.turns
  have hnests := hbefore.nests
  have hsees := hbefore.sees
  simp only [Rendered.toks_inParens, Rendered.levels_inParens, List.length_cons,
    List.length_append, List.length_nil, List.cons_append, List.append_assoc,
    List.nil_append] at hturns hnests hsees
  obtain ⟨n, rfl⟩ : ∃ m, n = m + 2 := ⟨n - 2, by omega⟩
  have hwhole := h.whole.reads (p.past 1) (.op ")" :: rest) n
    ⟨hbefore.params, hsees.next, by
      rw [past_depth, Rendered.levels_deeper]
      omega, by
      rw [Rendered.toks_deeper]
      omega⟩ rfl
  have hclose := hsees.next.past
  have hkind : (p.peek 0).kind = .op := hsees.first_kind
  have htext : (p.peek 0).text = "(" := hsees.first_text
  show primary (n + 2) p = _
  unfold primary
  rw [run_current, hkind, htext, if_neg (by simp)]
  simp only [Rendered.toks_deeper] at hwhole hclose
  show (Parse.take >>= fun _ => expr (n + 1) >>= fun node => expect ")" >>= fun _ =>
    Pure.pure node) p = _
  rw [run_take, run_bind hwhole, run_expect hclose rfl]
  simp only [past_past, Rendered.toks_inParens, List.length_cons, List.length_append,
    List.length_nil]
  have hlength : 1 + w.toks.length + 1 = w.toks.length + (0 + 1) + 1 := by omega
  rw [hlength]
  rfl

/-- **An operand reads in its place.** -/
theorem Holds.operand (s : Style) {place : Nat} (hplace : place ≤ 9) (hrank : e.rank ≤ 9)
    (h : Holds params e.rank e w) : Holds params place e (s.operand place e w) := by
  unfold Style.operand
  by_cases hparens : (s.adds place e || decide (e.rank < place)) = true
  · rw [if_pos hparens]
    exact (h.down (Nat.zero_le _) hrank).inParens.down hplace (Nat.le_refl _)
  · rw [if_neg hparens]
    simp only [Bool.or_eq_true, decide_eq_true_eq, not_or] at hparens
    exact h.down (by omega) hrank

end Operands

end Parser

end ObjectFlow
