import ObjectFlow.Rereads

/-!
# Each form read back

One lemma for each construct of the expression language: where its parts, written
out, read as they are in their places, the construct does in its own.
-/

namespace ObjectFlow

open Base Base.Program

namespace Parser

variable {params : Bool}

/-! ### What follows -/

theorem Closes.of_tie {k : Nat} {e : Expr} {l : Lexeme} {rest : List Lexeme} (h : l.tie ≤ k) :
    Closes k e (l :: rest) :=
  .inl h

/-- What may follow a tree that is no path may follow any. -/
theorem Closes.other {k : Nat} {e : Expr} {rest : List Lexeme} (h : Closes k e rest)
    (hpath : e.isPath = false) : tieOf rest ≤ k := by
  rcases h with h | ⟨_, h, _⟩
  · exact h
  · rw [hpath] at h
    cases h

/-! ### Binary operators -/

theorem tie_lexeme (op : BinOp) : op.lexeme.tie = op.rank + 1 := by
  cases op <;> rfl

theorem rank_le (op : BinOp) : op.rank ≤ 6 := by
  cases op <;> decide

/-- A repeating place goes on at its operators. -/
theorem loop_operator {op : BinOp} (hop : repeats op.rank = true) {p : Parser}
    {rest : List Lexeme} (h : p.Sees (op.lexeme :: rest)) (n : Nat) (left : Expr) :
    loop op.rank (n + 1) left p =
      (level op.rightRank n >>= fun right => loop op.rank n (.bin op left right)) (p.past 1) := by
  have hat : ∀ value, p.at' value 0 = op.lexeme.is value := fun value => h.at' rfl value
  have hkind : (p.peek 0).kind = op.lexeme.kind := h.first_kind
  have htext : (p.peek 0).text = op.lexeme.text := h.first_text
  cases op with
  | or =>
      show orFrom (n + 1) left p = _
      unfold orFrom
      rw [run_current, hat]
      rfl
  | and =>
      show andFrom (n + 1) left p = _
      unfold andFrom
      rw [run_current, hat]
      rfl
  | add | sub =>
      show additiveFrom (n + 1) left p = _
      unfold additiveFrom operator
      rw [run_current, hkind, htext]
      rfl
  | mul | div =>
      show multiplicativeFrom (n + 1) left p = _
      unfold multiplicativeFrom operator
      rw [run_current, hkind, htext]
      rfl
  | _ => cases hop

theorem rightRank_repeats {op : BinOp} (hop : repeats op.rank = true) :
    op.leftRank = op.rank ∧ op.rightRank = op.rank + 1 := by
  cases op <;> first | exact ⟨rfl, rfl⟩ | cases hop

theorem Starts.append {k : Nat} {a : Rendered} (b : Rendered) (h : Starts k a) :
    Starts k (a ++ b) := by
  obtain ⟨l, toks, htoks⟩ := List.exists_cons_of_ne_nil h.some
  have hhead : (a ++ b).toks.head? = a.toks.head? := by
    rw [Rendered.toks_append, htoks]
    rfl
  have hsome : (a ++ b).toks ≠ [] := by
    rw [Rendered.toks_append, htoks]
    exact List.cons_ne_nil _ _
  exact ⟨hsome, by rw [hhead]; exact h.never, by rw [hhead]; exact h.if',
    by rw [hhead]; exact h.not, by rw [hhead]; exact h.minus⟩

/-- A parser before a sequence is before its first part. -/
theorem Before.first {k n : Nat} {p : Parser} {a b : Rendered} {rest : List Lexeme}
    (h : Before params k n p (a ++ b) rest) : Before params k n p a (b.toks ++ rest) := by
  have hsees := h.sees
  have hnests := h.nests
  have hturns := h.turns
  rw [Rendered.toks_append] at hsees hturns
  rw [Rendered.levels_append] at hnests
  rw [List.append_assoc] at hsees
  rw [List.length_append] at hturns
  exact ⟨h.params, hsees, by omega, by omega⟩

/-- Past its first part a parser is before the rest, with what turns are
left. -/
theorem Before.second {j k n m : Nat} {p : Parser} {a b : Rendered} {rest : List Lexeme}
    (h : Before params k n p (a ++ b) rest) (hm : 32 * b.toks.length ≤ m + j) :
    Before params j m (p.past a.toks.length) b rest := by
  have hsees := h.sees
  have hnests := h.nests
  rw [Rendered.toks_append, List.append_assoc] at hsees
  rw [Rendered.levels_append] at hnests
  exact ⟨h.params, hsees.past, by rw [past_depth]; omega, hm⟩

/-- **A repeating operator's chain** reads where its operands do. -/
theorem holds_chain {op : BinOp} (hop : repeats op.rank = true) {left right : Expr}
    {a b : Rendered} (ha : Holds params op.leftRank left a)
    (hb : Holds params op.rightRank right b) :
    Holds params op.rank (.bin op left right) (a ++ (.of [op.lexeme] ++ b)) := by
  obtain ⟨hleft, hright⟩ := rightRank_repeats hop
  rw [hleft] at ha
  refine ⟨?_, ha.starts.append _⟩
  unfold Own
  rw [if_pos hop]
  intro p rest n hbefore hcloses
  have hown := ha.own
  unfold Own at hown
  rw [if_pos hop] at hown
  have hturns := hbefore.turns
  simp at hturns
  obtain ⟨m, hm, hrun⟩ := hown p _ n hbefore.first
    (.of_tie (Nat.le_of_eq (tie_lexeme op)))
  have hsmall := rank_le op
  obtain ⟨m, rfl⟩ : ∃ j, m = j + 1 := Nat.exists_eq_succ_of_ne_zero (by omega)
  have hmiddle : Before params op.rank (m + 32) (p.past a.toks.length) (.of [op.lexeme] ++ b) rest :=
    hbefore.second (by simp; omega)
  have hlast : Before params op.rightRank m ((p.past a.toks.length).past 1) b rest :=
    hmiddle.second (by omega)
  have hread := hb.own.reads _ rest m hlast (.inl (by rw [hright]; exact hcloses.other rfl))
  refine ⟨m, by simp; omega, ?_⟩
  rw [hrun, loop_operator hop hmiddle.sees, run_bind hread, past_past, past_past]
  congr 2
  simp
  omega

/-- **`implies`** reads where its sides do, its right as far as it can. -/
theorem holds_implies {left right : Expr} {a b : Rendered} (ha : Holds params 2 left a)
    (hb : Holds params 1 right b) :
    Holds params 1 (.bin .implies left right) (a ++ (.of [BinOp.implies.lexeme] ++ b)) := by
  refine ⟨?_, (ha.starts.looser (by omega)).append _⟩
  show ReadsAs params 1 _ _
  intro p rest n hbefore hcloses
  have hlength := ha.starts.length
  have hturns := hbefore.turns
  simp at hturns
  obtain ⟨n, rfl⟩ : ∃ m, n = m + 1 := Nat.exists_eq_succ_of_ne_zero (by omega)
  have hfirst : Before params 2 n p a ((.of [BinOp.implies.lexeme] ++ b : Rendered).toks ++ rest) :=
    ⟨hbefore.params, hbefore.first.sees, hbefore.first.nests, by omega⟩
  have hleft := ha.own.reads p _ n hfirst (.of_tie (by decide))
  have hsees := hbefore.first.sees.past
  have hlast : Before params 1 n ((p.past a.toks.length).past 1) b rest :=
    Before.second (j := 1) (a := .of [BinOp.implies.lexeme])
      (hbefore.second (j := 1) (m := n + 32) (by simp; omega)) (by omega)
  have hright := hb.own.reads _ rest n hlast (.inl (hcloses.other rfl))
  show implies (n + 1) p = _
  unfold implies
  rw [run_bind (P := or' n) hleft, run_current, hsees.at' (l := .word "implies") rfl]
  show (Parse.take >>= fun _ => implies n >>= fun right =>
    Pure.pure (Expr.bin .implies left right)) (p.past a.toks.length) = _
  rw [run_take, run_bind (P := implies n) hright, past_past, past_past]
  exact past_congr p _ (by simp; omega)

/-! ### Comparisons -/

/-- A comparison reads where what it compares does, and what is compared with
ends it. -/
theorem holds_compared {left e : Expr} {a b : Rendered} {l : Lexeme} (more : List Lexeme)
    (ha : Holds params 5 left a) (hb : b.toks = l :: more) (hl : l.tie = 5)
    (hcompares : ∀ p rest n, Before params 5 n p b rest → tieOf rest ≤ 4 →
      p.isComparison = true ∧ compared (n + 1) left p = (.ok e, p.past b.toks.length))
    (hpath : e.isPath = false) : Holds params 4 e (a ++ b) := by
  refine ⟨?_, (ha.starts.append b).looser (by omega)⟩
  show ReadsAs params 4 e (a ++ b)
  intro p rest n hbefore hcloses
  have hturns := hbefore.turns
  simp [hb] at hturns
  have hlength := ha.starts.length
  have htie := hcloses.other hpath
  obtain ⟨n, rfl⟩ : ∃ m, n = m + 2 := ⟨n - 2, by omega⟩
  have hfirst : Before params 5 (n + 1) p a (b.toks ++ rest) :=
    ⟨hbefore.params, hbefore.first.sees, hbefore.first.nests, by omega⟩
  have hread := ha.own.reads p _ (n + 1) hfirst (by rw [hb]; exact .of_tie (by omega))
  have hsecond : Before params 5 n (p.past a.toks.length) b rest :=
    hbefore.second (by rw [hb]; simp; omega)
  obtain ⟨hcomparison, hcompared⟩ := hcompares _ rest n hsecond htie
  obtain ⟨after, tokens, rfl, hafter⟩ := exists_head (by omega) htie
  have hsees := hsecond.sees.past
  have hnone : ((p.past a.toks.length).past b.toks.length).isComparison = false := by
    unfold isComparison
    rw [hsees.at' rfl, hsees.at' rfl, Lexeme.is_of_tie hafter (by decide),
      Lexeme.is_of_tie hafter (by decide), operator_none hsees hafter]
    · rfl
    · intro text htext
      exact lookup_isSome (P := fun text => 4 < (TIES.lookup text).getD 0) (by decide) htext
  show comparison (n + 2) p = _
  unfold comparison
  rw [run_bind (P := additive (n + 1)) hread, run_current, hcomparison]
  show (compared (n + 1) left >>= _) (p.past a.toks.length) = _
  rw [run_bind hcompared, run_current, hnone]
  rw [Rendered.toks_append, List.length_append, ← past_past]
  rfl

theorem holds_comparison {op : BinOp} (hop : op.rank = 4) {left right : Expr} {a b : Rendered}
    (ha : Holds params 5 left a) (hb : Holds params 5 right b) :
    Holds params 4 (.bin op left right) (a ++ (.of [op.lexeme] ++ b)) := by
  have htie : op.lexeme.tie = 5 := by rw [tie_lexeme, hop]
  have hkind : op.lexeme.kind = .op ∧ BinOp.comparison op.lexeme.text = some op := by
    cases op <;> first | exact ⟨rfl, by decide⟩ | cases hop
  refine holds_compared b.toks ha (l := op.lexeme) rfl htie ?_ rfl
  intro p rest n hbefore hafter
  have hturns := hbefore.turns
  simp at hturns
  have hsees := hbefore.sees
  have hoperator : p.operator BinOp.comparison = some op := by
    unfold operator
    rw [hsees.first_kind, hsees.first_text, hkind.1, hkind.2]
    rfl
  refine ⟨by unfold isComparison; rw [hoperator]; rfl, ?_⟩
  have hlast : Before params 5 n (p.past 1) b rest := hbefore.second (by omega)
  have hread := hb.own.reads _ rest n hlast (.inl (by omega))
  unfold compared
  rw [run_current, hoperator]
  show (Parse.take >>= fun _ => additive n >>= fun right => Pure.pure (Expr.bin op left right)) p = _
  rw [run_take, run_bind (P := additive n) hread, past_past]
  exact past_congr p _ (by simp; omega)

theorem holds_in {left right : Expr} {a b : Rendered}
    (ha : Holds params 5 left a) (hb : Holds params 5 right b) :
    Holds params 4 (.in' left right) (a ++ (.of [.word "in"] ++ b)) := by
  refine holds_compared b.toks ha (l := .word "in") rfl rfl ?_ rfl
  intro p rest n hbefore hafter
  have hturns := hbefore.turns
  simp at hturns
  have hsees := hbefore.sees
  have hoperator : p.operator BinOp.comparison = none := by
    unfold operator
    rw [hsees.first_kind]
    rfl
  have hat : ∀ value, p.at' value 0 = (Lexeme.word "in").is value := fun value => hsees.at' rfl value
  refine ⟨by unfold isComparison; rw [hoperator, hat]; rfl, ?_⟩
  have hlast : Before params 5 n (p.past 1) b rest := hbefore.second (by omega)
  have hread := hb.own.reads _ rest n hlast (.inl (by omega))
  unfold compared
  rw [run_current, hoperator, hat]
  show (Parse.take >>= fun _ => additive n >>= fun right => Pure.pure (Expr.in' left right)) p = _
  rw [run_take, run_bind (P := additive n) hread, past_past]
  exact past_congr p _ (by simp; omega)

theorem holds_isNull {left : Expr} {a : Rendered} (ha : Holds params 5 left a) (negated : Bool) :
    Holds params 4 (.isNull left negated)
      (a ++ .of (.word "is" :: (if negated then [.word "not"] else []) ++ [.word "null"])) := by
  refine holds_compared _ ha (l := .word "is") rfl rfl ?_ rfl
  intro p rest n hbefore hafter
  have hsees := hbefore.sees
  have hoperator : p.operator BinOp.comparison = none := by
    unfold operator
    rw [hsees.first_kind]
    rfl
  have hat : ∀ value, p.at' value 0 = (Lexeme.word "is").is value := fun value => hsees.at' rfl value
  refine ⟨by unfold isComparison; rw [hoperator, hat, hat]; rfl, ?_⟩
  unfold compared
  rw [run_current, hoperator, hat]
  show (Parse.take >>= fun _ => taken "not" >>= fun negated => expect "null" >>= fun _ =>
    Pure.pure (Expr.isNull left negated)) p = _
  rw [run_take]
  have hnext := hsees.next
  cases negated with
  | false =>
      rw [run_notTaken hnext rfl, run_expect hnext rfl, past_past]
      rfl
  | true =>
      rw [run_taken hnext rfl, run_expect hnext.next rfl, past_past, past_past]
      rfl

/-! ### `not` and `-` -/

theorem negated_first {p : Parser} {l : Lexeme} {rest : List Lexeme} (h : p.Sees (l :: rest))
    (hdepth : p.depth ≤ MAX_NESTING) (n : Nat) :
    negated (n + 1) p =
      (unary n >>= fun e => Pure.pure (if l.is "not" then Expr.not e else .neg e)) (p.past 1) := by
  have hat : p.at' "not" 0 = l.is "not" := h.at' rfl "not"
  unfold negated
  rw [run_current, if_neg (by omega), hat]
  cases l.is "not" <;> rfl

/-- `not` and `-` read where what they are of does. -/
theorem holds_unary {e : Expr} {l : Lexeme} {w : Rendered} (h : Holds params 7 e w)
    (hl : l = .word "not" ∨ l = .op "-") :
    Holds params 7 (if l.is "not" then .not e else .neg e) (.of [l] ++ w).deeper := by
  have hstarts : Starts 7 (.of [l] ++ w).deeper := by
    have hnever : ∀ value ∈ NEVER, l.is value = false := by
      rcases hl with rfl | rfl <;> decide
    have hif : l.is "if" = false := by rcases hl with rfl | rfl <;> rfl
    exact ⟨List.cons_ne_nil _ _, hnever, fun _ => hif, fun hk => absurd hk (by omega),
      fun hk => absurd hk (by omega)⟩
  have hfirst : (l.is "not" || l.is "-") = true := by rcases hl with rfl | rfl <;> rfl
  refine ⟨?_, hstarts⟩
  show ReadsAs params 7 _ _
  intro p rest n hbefore hcloses
  have hturns := hbefore.turns
  have hnests := hbefore.nests
  simp at hturns hnests
  obtain ⟨n, rfl⟩ : ∃ m, n = m + 2 := ⟨n - 2, by omega⟩
  have hsees := hbefore.sees
  let deeper : Parser := { p with depth := p.depth + 1 }
  have hlast : Before params 7 n (deeper.past 1) w rest :=
    ⟨hbefore.params, Sees.next (p := deeper) hsees, by
      show p.depth + 1 + w.levels ≤ MAX_NESTING
      omega, by omega⟩
  have hread := h.own.reads _ rest n hlast (.inl (hcloses.other (by split <;> rfl)))
  have hnegated : negated (n + 1) deeper =
      (.ok (if l.is "not" then .not e else .neg e), deeper.past (w.toks.length + 1)) := by
    rw [negated_first (p := deeper) hsees (by show p.depth + 1 ≤ MAX_NESTING; omega),
      run_bind (P := unary n) hread, past_past]
    exact past_congr deeper _ (by omega)
  show unary (n + 2) p = _
  unfold unary
  rw [run_current, hsees.at' rfl, hsees.at' rfl, hfirst]
  exact run_nested hnegated

/-! ### Parts in a row -/

section Parts

variable {k n m : Nat} {p : Parser} {a b w : Rendered} {rest : List Lexeme} {e : Expr}

/-- Past its first part a parser is before the rest. -/
theorem Before.after (h : Before params k n p (a ++ b) rest) :
    Before params k n (p.past a.toks.length) b rest := by
  have hturns := h.turns
  rw [Rendered.toks_append, List.length_append] at hturns
  exact h.second (by omega)

/-- Past an operator or a word. -/
theorem Before.next {l : Lexeme} (h : Before params k n p (.of [l] ++ b) rest) :
    Before params k n (p.past 1) b rest :=
  h.after

theorem run_whole {β : Type} (h : Whole params e w) (hbefore : Before params k n p w rest)
    (hm : 32 * w.toks.length < m) (htie : tieOf rest = 0) (f : Expr → Parse β) :
    (expr m >>= f) p = f e (p.past w.toks.length) := by
  obtain ⟨m, rfl⟩ : ∃ j, m = j + 1 := Nat.exists_eq_succ_of_ne_zero (by omega)
  exact run_bind (h.reads p _ m ⟨hbefore.params, hbefore.sees, hbefore.nests, by omega⟩ htie) f

theorem run_additive {β : Type} (h : Holds params 5 e w) (hbefore : Before params k n p w rest)
    (hm : 32 * w.toks.length ≤ m) (htie : tieOf rest = 0) (f : Expr → Parse β) :
    (additive m >>= f) p = f e (p.past w.toks.length) :=
  run_bind (P := additive m) (h.own.reads p _ m
    ⟨hbefore.params, hbefore.sees, hbefore.nests, by omega⟩ (.inl (by omega))) f

theorem run_primary {β : Type} (h : Holds params 9 e w) (hbefore : Before params k n p w rest)
    (hm : 32 * w.toks.length ≤ m) (htie : tieOf rest = 0) (f : Expr → Parse β) :
    (primary m >>= f) p = f e (p.past w.toks.length) :=
  run_bind (P := primary m) (h.own.reads p _ m
    ⟨hbefore.params, hbefore.sees, hbefore.nests, by omega⟩ (.inl (by omega))) f

/-- An operator or a word that stands next, taken. -/
theorem run_word {l : Lexeme} {value : String} {β : Type}
    (hbefore : Before params k n p (.of [l] ++ b) rest) (hl : l.is value = true)
    (f : Token → Parse β) : (expect value >>= f) p = f (p.peek 0) (p.past 1) :=
  run_expect hbefore.sees hl f

end Parts

/-! ### Lists -/

/-- Trees and what is written for each. -/
abbrev Wholes (params : Bool) : List Expr → List Rendered → Prop :=
  List.Forall₂ (Whole params)

theorem tie_close {close : String} (h : close = ")" ∨ close = "\x7d") :
    (Lexeme.op close).tie = 0 := by
  rcases h with rfl | rfl <;> rfl

theorem run_separated {p : Parser} {rest : List Lexeme} {close : String} {β : Type}
    (h : p.Sees (.op close :: rest)) (f : Unit → Parse β) : (separator close >>= f) p = f () p := by
  have hseparator : separator close p = (.ok (), p) := by
    unfold separator
    rw [run_current, h.at' rfl, show (Lexeme.op close).is close = true by simp [Lexeme.is, Lexeme.op]]
    rfl
  exact run_bind hseparator f

theorem run_comma {p : Parser} {rest : List Lexeme} {close : String} {β : Type}
    (hclose : close = ")" ∨ close = "]" ∨ close = "\x7d") (h : p.Sees (.op "," :: rest))
    (f : Unit → Parse β) : (separator close >>= f) p = f () (p.past 1) := by
  have hnot : (Lexeme.op ",").is close = false := by
    rcases hclose with rfl | rfl | rfl <;> rfl
  have hseparator : separator close p = (.ok (), p.past 1) := by
    unfold separator
    rw [run_current, h.at' rfl, hnot]
    show (expect "," >>= fun _ => Pure.pure ()) p = _
    rw [run_expect h rfl]
    rfl
  exact run_bind hseparator f

/-- **A list's items** read one after the other, up to what closes it. -/
theorem itemsUntil_reads {close : String} (hclose : close = ")" ∨ close = "\x7d")
    {es : List Expr} {ws : List Rendered} (h : Wholes params es ws) (p : Parser)
    (rest : List Lexeme) (n : Nat) (items : List Expr)
    (hbefore : Before params 30 n p (.commas ws ++ .of [.op close]) rest) :
    itemsUntil n close items p =
      (.ok (items ++ es), p.past (Rendered.commas ws).toks.length) := by
  induction h generalizing p n items with
  | nil =>
      have hturns := hbefore.turns
      simp at hturns
      obtain ⟨n, rfl⟩ : ∃ m, n = m + 1 := Nat.exists_eq_succ_of_ne_zero (by omega)
      have hcloses : (Lexeme.op close).is close = true := by simp [Lexeme.is, Lexeme.op]
      have hsees : p.Sees (.op close :: rest) := hbefore.sees
      unfold itemsUntil
      rw [run_current, hsees.at' rfl, hcloses, List.append_nil]
      rfl
  | @cons e w es ws hw hmore ih =>
      have hturns := hbefore.turns
      simp at hturns
      obtain ⟨n, rfl⟩ : ∃ m, n = m + 2 := ⟨n - 2, by omega⟩
      have hnever : w.toks.head?.any (·.is close) = false := by
        rcases hclose with rfl | rfl
        · exact hw.starts.never ")" (by decide)
        · exact hw.starts.never "\x7d" (by decide)
      cases hmore with
      | nil =>
          have hlast : Before params 30 (n + 2) p (w ++ .of [.op close]) rest := hbefore
          have hend : Before params 30 (n + 1) (p.past w.toks.length)
              (.commas [] ++ .of [.op close]) rest :=
            hlast.second (by
              have hlength := hw.starts.length
              have hturns := hlast.turns
              simp at hturns
              simp
              omega)
          unfold itemsUntil
          rw [run_current, hlast.first.at'_first hw.starts.some hnever]
          show (expr (n + 1) >>= fun e => separator close >>= fun _ =>
            itemsUntil (n + 1) close (items ++ [e])) p = _
          rw [run_whole hw hlast.first (by have := hlast.turns; simp at this; omega)
            (tie_close hclose), run_separated hlast.first.sees.past,
            ih _ (n + 1) _ hend, List.append_assoc, past_past]
          rfl
      | @cons e' w' es ws hw' hmore =>
          have hlast : Before params 30 (n + 2) p
              (w ++ (.of [.op ","] ++ (.commas (w' :: ws) ++ .of [.op close]))) rest := by
            rw [← Rendered.append_assoc, ← Rendered.append_assoc]
            exact hbefore
          have hcomma : Before params 30 (n + 32) (p.past w.toks.length)
              (.of [.op ","] ++ (.commas (w' :: ws) ++ .of [.op close])) rest :=
            hlast.second (by have := hlast.turns; simp at this; simp; omega)
          have hend : Before params 30 (n + 1) ((p.past w.toks.length).past 1)
              (.commas (w' :: ws) ++ .of [.op close]) rest :=
            hcomma.second (by have := hlast.turns; simp at this; simp; omega)
          unfold itemsUntil
          rw [run_current, hlast.first.at'_first hw.starts.some hnever]
          show (expr (n + 1) >>= fun e => separator close >>= fun _ =>
            itemsUntil (n + 1) close (items ++ [e])) p = _
          rw [run_whole hw hlast.first (by have := hlast.turns; simp at this; omega) rfl,
            run_comma (hclose.imp id .inr) hcomma.first.sees, ih _ (n + 1) _ hend,
            List.append_assoc, past_past, past_past]
          exact past_congr p _ (by simp [Rendered.commas]; omega)

/-- What is written between parentheses after what is called. -/
def argumentsWritten (ws : List Rendered) : Rendered :=
  .of [.op "("] ++ (.commas ws ++ .of [.op ")"])

theorem arguments_read {es : List Expr} {ws : List Rendered} (h : Wholes params es ws)
    {p : Parser} {rest : List Lexeme} {n : Nat}
    (hbefore : Before params 30 n p (argumentsWritten ws) rest) :
    arguments n p = (.ok es, p.past (argumentsWritten ws).toks.length) := by
  have hturns := hbefore.turns
  unfold argumentsWritten at hbefore hturns ⊢
  simp at hturns
  obtain ⟨n, rfl⟩ : ∃ m, n = m + 1 := Nat.exists_eq_succ_of_ne_zero (by omega)
  have hitems : Before params 30 n (p.past 1) (.commas ws ++ .of [.op ")"]) rest :=
    hbefore.second (by simp; omega)
  have hread := itemsUntil_reads (.inl rfl) h (p.past 1) rest n [] hitems
  unfold arguments
  rw [run_expect hbefore.sees rfl]
  show (itemsUntil n ")" [] >>= fun args => expect ")" >>= fun _ => Pure.pure args) (p.past 1) = _
  rw [run_bind hread, run_expect hitems.first.sees.past rfl, List.nil_append, past_past, past_past]
  exact past_congr p _ (by simp; omega)

/-! ### Paths and what is called -/

/-- **A member** reads after what it is of. -/
theorem holds_path {b : Expr} {w : Rendered} (h : Holds params 8 b w) (member : String) :
    Holds params 8 (.path b member) (w ++ .of [.op ".", .word member]) := by
  refine ⟨?_, h.starts.append _⟩
  show ReachesAs params 8 _ _
  intro p rest n hbefore hcloses
  have hturns := hbefore.turns
  simp at hturns
  obtain ⟨m, hm, hrun⟩ := (show ReachesAs params 8 b w from h.own) p _ n hbefore.first
    (.of_tie (by decide))
  obtain ⟨m, rfl⟩ : ∃ j, m = j + 1 := Nat.exists_eq_succ_of_ne_zero (by omega)
  refine ⟨m, by simp; omega, ?_⟩
  have hsees : (p.past w.toks.length).Sees (.op "." :: .word member :: rest) :=
    hbefore.first.sees.past
  have hkind : (((p.past w.toks.length).past 1).peek 0).kind = .name := hsees.next.first_kind
  have htext : (((p.past w.toks.length).past 1).peek 0).text = member := hsees.next.first_text
  rw [hrun]
  show postfixedFrom (m + 1) b (p.past w.toks.length) = _
  unfold postfixedFrom
  rw [run_current, hsees.at' rfl]
  show (Parse.take >>= fun _ => Parse.parser >>= fun p =>
    if (p.peek 0).kind ≠ .name then fail "a member name follows `.`"
    else Parse.take >>= fun member => postfixedFrom m (.path b member.text))
    (p.past w.toks.length) = _
  rw [run_take, run_current, if_neg (by rw [hkind]; simp), run_take, htext, past_past, past_past]
  congr 2
  simp

/-- **A call of a path** reads as its arguments do. -/
theorem holds_pathCall {b : Expr} {member : String} {w : Rendered} {es : List Expr}
    {ws : List Rendered} (h : Holds params 8 (.path b member) w) (hargs : Wholes params es ws) :
    Holds params 8 (.call (.path b member) es) (w ++ argumentsWritten ws) := by
  refine ⟨?_, h.starts.append _⟩
  show ReachesAs params 8 _ _
  intro p rest n hbefore hcloses
  have hturns := hbefore.turns
  simp at hturns
  obtain ⟨m, hm, hrun⟩ := (show ReachesAs params 8 (.path b member) w from h.own) p _ n
    hbefore.first (.inr ⟨by omega, rfl, rfl⟩)
  have hlength : 2 ≤ (argumentsWritten ws).toks.length := by
    unfold argumentsWritten
    simp
  obtain ⟨m, rfl⟩ : ∃ j, m = j + 1 := Nat.exists_eq_succ_of_ne_zero (by omega)
  refine ⟨m, by simp; omega, ?_⟩
  have hlast : Before params 30 m (p.past w.toks.length) (argumentsWritten ws) rest :=
    hbefore.second (by omega)
  have hsees := hlast.sees
  rw [hrun]
  show postfixedFrom (m + 1) (.path b member) (p.past w.toks.length) = _
  unfold postfixedFrom
  rw [run_current, hsees.at' rfl, hsees.at' rfl]
  show (arguments m >>= fun args => postfixedFrom m (.call (.path b member) args))
    (p.past w.toks.length) = _
  rw [run_bind (arguments_read hargs hlast), past_past]
  congr 2
  simp

/-! ### `if` -/

/-- **An `if`** reads where its parts do, its last as far as it can. -/
theorem holds_if {c a b : Expr} {u v w : Rendered} (hc : Whole params c u) (ha : Whole params a v)
    (hb : Whole params b w) :
    Holds params 0 (.if' c a b)
      (.of [.word "if"] ++ (u ++ (.of [.word "then"] ++ (v ++ (.of [.word "else"] ++ w))))) := by
  have hstarts : Starts 0 (.of [.word "if"]) :=
    ⟨List.cons_ne_nil _ _, by decide, fun h => absurd h (by omega), fun h => absurd h (by omega),
      fun h => absurd h (by omega)⟩
  refine ⟨?_, hstarts.append _⟩
  show ReadsAs params 0 _ _
  intro p rest n hbefore hcloses
  have hturns := hbefore.turns
  have hnests := hbefore.nests
  simp at hturns
  obtain ⟨n, rfl⟩ : ∃ m, n = m + 1 := Nat.exists_eq_succ_of_ne_zero (by omega)
  have hcond := hbefore.next
  have hthen := hcond.after
  have helse := hthen.next.after
  have htie := hcloses.other rfl
  show nestedExpr (n + 1) p = _
  unfold nestedExpr
  rw [run_current, if_neg (by omega), hbefore.sees.at' rfl]
  show (Parse.take >>= fun _ => expr n >>= fun c => expect "then" >>= fun _ => expr n >>= fun a =>
    expect "else" >>= fun _ => expr n >>= fun b => Pure.pure (Expr.if' c a b)) p = _
  rw [run_take, run_whole hc hcond.first (by omega) rfl, run_word hthen rfl,
    run_whole ha hthen.next.first (by omega) rfl, run_word helse rfl,
    run_whole hb helse.next (by omega) (by omega)]
  simp only [past_past]
  exact past_congr p _ (by simp; omega)

end Parser

end ObjectFlow
