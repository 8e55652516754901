import ObjectFlow.RereadTrees

/-!
# From a tree to its text and back

The tokens of what is written are the text's own, a blank after each, and so the
text of a tree parses to the tree: fully parenthesised, or with every parenthesis
left out that neither an operand's binding nor an aggregate's forms need.
-/

namespace ObjectFlow

/-- Whether a token is what its text is read as. -/
def Lexeme.isSpelled (l : Lexeme) : Bool := tokenKind l.text = some l.kind

/-- What is written is made of tokens as they are read. -/
def Rendered.Spelled (w : Rendered) : Prop := ∀ l ∈ w.toks, l.isSpelled = true

/-! ### A token before a blank -/

/-- A string ends at its own quote, whatever follows. -/
theorem stringLength_append (xs ys : List Char) {n : Nat} (h : stringLength xs = some n) :
    stringLength (xs ++ ys) = some n := by
  induction xs using stringLength.induct generalizing n with
  | case1 => cases h
  | case2 rest =>
      rw [stringLength.eq_def] at h ⊢
      simpa using h
  | case3 hquote =>
      rw [stringLength.eq_def] at h
      simp [hquote] at h
  | case4 d more hquote ih =>
      rw [stringLength.eq_def] at h ⊢
      simp only [List.cons_append, hquote, if_true, if_false, Option.map_eq_some_iff] at h ⊢
      obtain ⟨m, hm, rfl⟩ := h
      exact ⟨m, ih hm, rfl⟩
  | case5 c rest hquote hback ih =>
      rw [stringLength.eq_def] at h ⊢
      simp only [List.cons_append, hquote, hback, if_false, Option.map_eq_some_iff] at h ⊢
      obtain ⟨m, hm, rfl⟩ := h
      exact ⟨m, ih hm, rfl⟩

/-- What a character class takes of a text ends at a blank. -/
theorem takeWhile_blank {P : Char → Bool} (hblank : P ' ' = false) (xs ys : List Char) :
    (xs ++ ' ' :: ys).takeWhile P = xs.takeWhile P := by
  induction xs with
  | nil => rw [List.nil_append, List.takeWhile_cons_of_neg (by simp [hblank]), List.takeWhile_nil]
  | cons c xs ih =>
      rw [List.cons_append, List.takeWhile_cons, List.takeWhile_cons, ih]

theorem numLength_blank (xs ys : List Char) : numLength (xs ++ ' ' :: ys) = numLength xs := by
  have hdigits : (xs ++ ' ' :: ys).takeWhile Char.isDigit = xs.takeWhile Char.isDigit :=
    takeWhile_blank rfl xs ys
  have hdrop : (xs ++ ' ' :: ys).drop (xs.takeWhile Char.isDigit).length =
      xs.drop (xs.takeWhile Char.isDigit).length ++ ' ' :: ys :=
    List.drop_append_of_le_length (List.takeWhile_prefix _).length_le
  unfold numLength
  dsimp only
  rw [hdigits, hdrop]
  cases xs.drop (xs.takeWhile Char.isDigit).length with
  | nil => rfl
  | cons c rest =>
      by_cases hc : c = '.'
      · subst hc
        cases rest with
        | nil => rfl
        | cons d more =>
            have hmore : (d :: (more ++ ' ' :: ys)).takeWhile Char.isDigit =
                (d :: more).takeWhile Char.isDigit :=
              takeWhile_blank rfl (d :: more) ys
            simp only [List.cons_append, hmore]
      · simp [hc]

/-- **A token before a blank** is scanned as it is alone. -/
theorem scan_blank_after {xs : List Char} {kind : TokenKind}
    (h : scan xs = some (some kind, xs.length)) (ys : List Char) :
    scan (xs ++ ' ' :: ys) = some (some kind, xs.length) := by
  cases xs with
  | nil => cases h
  | cons c rest =>
      rw [List.cons_append]
      rw [scan] at h ⊢
      by_cases hblank : isWhitespace c = true
      · rw [if_pos hblank] at h
        cases h
      rw [if_neg hblank] at h ⊢
      by_cases hquote : c = QUOTE
      · rw [if_pos hquote] at h ⊢
        obtain ⟨n, hn, heq⟩ := Option.map_eq_some_iff.mp h
        rw [stringLength_append _ _ hn, Option.map_some, heq]
      rw [if_neg hquote] at h ⊢
      by_cases hdigit : c.isDigit = true
      · rw [if_pos hdigit] at h ⊢
        rw [← List.cons_append, numLength_blank]
        exact h
      rw [if_neg hdigit] at h ⊢
      by_cases hname : (c.isAlpha || decide (c = '_')) = true
      · rw [if_pos hname] at h ⊢
        rw [← List.cons_append, takeWhile_blank (P := nameChar) rfl]
        exact h
      rw [if_neg hname] at h ⊢
      by_cases htwo : TWO.contains ((c :: rest).take 2) = true
      · rw [if_pos htwo] at h
        cases rest with
        | nil => cases h
        | cons d more =>
            rw [List.cons_append]
            have htake : (c :: d :: (more ++ ' ' :: ys)).take 2 = (c :: d :: more).take 2 := rfl
            rw [htake, if_pos htwo]
            exact h
      rw [if_neg htwo] at h
      by_cases hone : ONE.contains c = true
      · rw [if_pos hone] at h
        cases rest with
        | nil =>
            have hpairs : ∀ two ∈ TWO, two[1]? ≠ some ' ' := by decide
            have hnot : TWO.contains ((c :: ([] ++ ' ' :: ys)).take 2) = false := by
              rw [List.contains_eq_mem, decide_eq_false_iff_not]
              intro hmem
              exact hpairs _ hmem rfl
            rw [hnot, if_neg Bool.false_ne_true, if_pos hone]
            exact h
        | cons d more => simp at h
      · rw [if_neg hone] at h
        cases h

/-! ### The tokens of what is written -/

theorem scan_of_spelled {l : Lexeme} (h : l.isSpelled = true) :
    scan l.text.toList = some (some l.kind, l.text.toList.length) := by
  unfold Lexeme.isSpelled tokenKind at h
  simp only [decide_eq_true_eq] at h
  rcases hscan : scan l.text.toList with _ | ⟨kind, n⟩
  · rw [hscan] at h
    cases h
  · rw [hscan] at h
    dsimp only at h
    by_cases hn : n = l.text.toList.length
    · rw [if_pos hn] at h
      rw [h, hn]
    · rw [if_neg hn] at h
      cases h

/-- A token's other characters are skipped. -/
theorem tokenizeFrom_skip (text : String) (xs ys : List Char) (i : Nat) :
    tokenizeFrom text xs.length i (xs ++ ys) = tokenizeFrom text 0 (i + xs.length) ys := by
  induction xs generalizing i with
  | nil => rfl
  | cons c xs ih =>
      rw [List.length_cons, List.cons_append, tokenizeFrom, ih]
      congr 1
      omega

theorem tokenizeFrom_blank (text : String) (ys : List Char) (i : Nat) :
    tokenizeFrom text 0 i (' ' :: ys) = tokenizeFrom text 0 (i + 1) ys := by
  have hblank : scan (' ' :: ys) = some (none, 1) := rfl
  rw [tokenizeFrom, hblank]

/-- **The tokens of what is written** are those written, and the end. -/
theorem tokenizeFrom_spaced (text : String) (toks : List Lexeme)
    (h : ∀ l ∈ toks, l.isSpelled = true) (i : Nat) :
    ∃ ts, tokenizeFrom text 0 i (toks.flatMap fun l => l.text.toList ++ [' ']) = .ok ts ∧
      ts.map Token.lexeme = toks ++ [Lexeme.last] := by
  induction toks generalizing i with
  | nil => exact ⟨[.endOf text], rfl, rfl⟩
  | cons l toks ih =>
      have hscan := scan_of_spelled (h l List.mem_cons_self)
      have hmore : ∀ l ∈ toks, l.isSpelled = true := fun l hl => h l (List.mem_cons_of_mem _ hl)
      cases htext : l.text.toList with
      | nil =>
          rw [htext] at hscan
          cases hscan
      | cons c cs =>
          obtain ⟨ts, hts, hlexemes⟩ := ih hmore (i + 1 + cs.length + 1)
          rw [htext] at hscan
          have hafter := scan_blank_after hscan (toks.flatMap fun l => l.text.toList ++ [' '])
          rw [List.cons_append] at hafter
          refine ⟨⟨l.kind, l.text, i⟩ :: ts, ?_, ?_⟩
          · rw [List.flatMap_cons, htext, List.append_assoc, List.cons_append, List.singleton_append,
              tokenizeFrom, hafter]
            dsimp only [List.length_cons]
            rw [Nat.add_sub_cancel, tokenizeFrom_skip, tokenizeFrom_blank, hts]
            have htake : (c :: (cs ++ ' ' :: toks.flatMap fun l => l.text.toList ++ [' '])).take
                (cs.length + 1) = l.text.toList := by
              rw [htext]
              simp
            rw [htake, String.ofList_toList]
            rfl
          · rw [List.map_cons, hlexemes]
            rfl

/-! ### What is written of a tree -/

namespace Rendered

@[simp] theorem spelled_append (a b : Rendered) : (a ++ b).Spelled ↔ a.Spelled ∧ b.Spelled := by
  unfold Spelled
  rw [toks_append]
  exact List.forall_mem_append

@[simp] theorem spelled_nil : (of []).Spelled := fun l hl => by cases hl

@[simp] theorem spelled_cons (l : Lexeme) (toks : List Lexeme) :
    (of (l :: toks)).Spelled ↔ l.isSpelled = true ∧ (of toks).Spelled :=
  List.forall_mem_cons

@[simp] theorem spelled_deeper (w : Rendered) : w.deeper.Spelled ↔ w.Spelled := Iff.rfl

@[simp] theorem spelled_inParens (w : Rendered) : w.inParens.Spelled ↔ w.Spelled := by
  have hopen : (Lexeme.op "(").isSpelled = true := by decide
  have hclose : (Lexeme.op ")").isSpelled = true := by decide
  simp [inParens, hopen, hclose]

theorem spelled_commas {ws : List Rendered} (h : ∀ w ∈ ws, w.Spelled) : (commas ws).Spelled := by
  have hcomma : (Lexeme.op ",").isSpelled = true := by decide
  induction ws with
  | nil => exact spelled_nil
  | cons w ws ih =>
      cases ws with
      | nil => exact h w List.mem_cons_self
      | cons w' ws =>
          have hmore := ih fun w hw => h w (List.mem_cons_of_mem _ hw)
          simp [commas, hcomma, h w List.mem_cons_self, hmore]

end Rendered

namespace Style

variable (s : Style) (e : Expr) (w : Rendered)

@[simp] theorem spelled_operand (place : Nat) : (s.operand place e w).Spelled ↔ w.Spelled := by
  unfold operand
  split
  · exact w.spelled_inParens
  · exact Iff.rfl

@[simp] theorem spelled_whole : (s.whole e w).Spelled ↔ w.Spelled := s.spelled_operand e w 0

@[simp] theorem spelled_guarded (opens : List Lexeme → Bool) :
    (s.guarded opens e w).Spelled ↔ w.Spelled := by
  unfold guarded
  dsimp only
  split <;> simp

@[simp] theorem spelled_callee : (s.callee e w).Spelled ↔ w.Spelled := by
  unfold callee
  split
  · exact Iff.rfl
  · exact s.spelled_operand e w 8

end Style

theorem spelled_word {n : String} (h : isNamed n = true) : (Lexeme.word n).isSpelled = true := h

theorem spelled_names {ns : List String} (h : ∀ n ∈ ns, (tokenKind n).isSome) :
    (Rendered.of (namesWritten ns)).Spelled := by
  have hcomma : (Lexeme.op ",").isSpelled = true := by decide
  have hname : ∀ n ∈ ns, (lexemeOf n).isSpelled = true := by
    intro n hn
    obtain ⟨kind, hkind⟩ := Option.isSome_iff_exists.mp (h n hn)
    simp [Lexeme.isSpelled, lexemeOf, hkind]
  induction ns with
  | nil => exact Rendered.spelled_nil
  | cons n ns ih =>
      have hmore := ih (fun n hn => h n (List.mem_cons_of_mem _ hn))
        (fun n hn => hname n (List.mem_cons_of_mem _ hn))
      cases ns with
      | nil => simp [namesWritten, hname n List.mem_cons_self]
      | cons n' ns => simp [namesWritten, hcomma, hname n List.mem_cons_self] at hmore ⊢; exact hmore

section

variable {s : Style} {params : Bool}

mutual

/-- **Each token written** of a tree the grammar produces is one as it is read. -/
theorem spelled_rendered :
    ∀ e : Expr, e.grammatical params = true → (e.rendered s).Spelled
  | .num n, h => by
      unfold Expr.grammatical Number.isRead at h
      simp only [Bool.and_eq_true, decide_eq_true_eq] at h
      simp [Expr.rendered, Lexeme.isSpelled, h.1]
  | .str t, h => by
      unfold Expr.grammatical at h
      simp only [decide_eq_true_eq] at h
      simp [Expr.rendered, Lexeme.isSpelled, h]
  | .bool b, _ => by
      cases b <;> simp +decide [Expr.rendered]
  | .dur n unit, h => by
      unfold Expr.grammatical Number.isRead at h
      simp only [Bool.and_eq_true, decide_eq_true_eq, List.contains_eq_mem] at h
      have hunits : ∀ unit ∈ UNITS, (Lexeme.word unit).isSpelled = true := by decide
      simp [Expr.rendered, hunits unit h.2]
      simp [Lexeme.isSpelled, h.1.1]
  | .money currency amount, h => by
      unfold Expr.grammatical at h
      simp only [Bool.and_eq_true, decide_eq_true_eq] at h
      simp [Expr.rendered, spelled_word h.1.2]
      simp [Lexeme.isSpelled, h.2]
  | .name n, h => by
      unfold Expr.grammatical isBare at h
      simp only [Bool.and_eq_true] at h
      simp [Expr.rendered, spelled_word h.1]
  | .path b member, h => by
      unfold Expr.grammatical at h
      simp only [Bool.and_eq_true] at h
      simp +decide [Expr.rendered, spelled_rendered b h.1, spelled_word h.2]
  | .call (.name f) args, h => by
      unfold Expr.grammatical isBare at h
      simp only [Bool.and_eq_true, Bool.not_eq_true', decide_eq_true_eq] at h
      obtain ⟨⟨⟨⟨hname, _⟩, _⟩, _⟩, hargs⟩ := h
      have hcommas := Rendered.spelled_commas (args_spelled (Expr.name f).namesAggregate args hargs)
      simp +decide [Expr.rendered, spelled_word hname, hcommas]
  | .call (.path b member) args, h => by
      unfold Expr.grammatical at h
      simp only [Bool.and_eq_true] at h
      have hcommas := Rendered.spelled_commas
        (args_spelled (Expr.path b member).namesAggregate args h.2)
      simp +decide [Expr.rendered, spelled_rendered b h.1.1, spelled_word h.1.2, hcommas]
  | .call (.num _) _, h | .call (.str _) _, h | .call (.bool _) _, h | .call (.dur ..) _, h
  | .call (.money ..) _, h | .call (.call ..) _, h | .call (.agg ..) _, h | .call (.metric ..) _, h
  | .call (.changed ..) _, h | .call (.set _) _, h | .call (.not _) _, h | .call (.neg _) _, h
  | .call (.isNull ..) _, h | .call (.in' ..) _, h | .call (.bin ..) _, h | .call (.if' ..) _, h
  | .call (.param _) _, h | .call (.lit _) _, h => by
      unfold Expr.grammatical at h
      cases h
  | .agg kind distinct (some var) (some collection) filter body, h => by
      unfold Expr.grammatical at h
      simp only [Bool.and_eq_true] at h
      obtain ⟨⟨⟨⟨⟨hname, _⟩, hcollection⟩, hfilter⟩, hbody⟩, _⟩ := h
      have hkind : (Lexeme.word kind.text).isSpelled = true := spelled_word (Parser.named_text kind).2.2
      have hfilter := part_spelled (fun e w => .of [.word "where"] ++ s.whole e w)
        (fun e w hw => by simp +decide [hw]) filter hfilter
      have hbody := part_spelled (fun e w => .of [.op ":"] ++ s.whole e w)
        (fun e w hw => by simp +decide [hw]) body hbody
      cases distinct <;>
        simp +decide [Expr.rendered, givenRendered, hkind, spelled_word hname,
          spelled_rendered collection hcollection, hfilter, hbody]
  | .agg kind distinct (some var) none filter body, h => by
      unfold Expr.grammatical at h
      cases h
  | .agg kind distinct none none filter body, h => by
      unfold Expr.grammatical at h
      simp only [Bool.and_eq_true] at h
      obtain ⟨⟨⟨hfilter, hbody⟩, _⟩, _⟩ := h
      have hkind : (Lexeme.word kind.text).isSpelled = true := spelled_word (Parser.named_text kind).2.2
      have hfilter := part_spelled (fun e w => .of [.word "where"] ++ s.whole e w)
        (fun e w hw => by simp +decide [hw]) filter hfilter
      have hbody := part_spelled (s.guarded opensItems) (fun e w hw => by simp [hw]) body hbody
      cases distinct <;> simp +decide [Expr.rendered, hkind, hfilter, hbody]
  | .agg kind distinct none (some collection) filter body, h => by
      unfold Expr.grammatical at h
      cases h
  | .metric name binds window fresh, h => by
      unfold Expr.grammatical at h
      simp only [Bool.and_eq_true] at h
      obtain ⟨⟨⟨hname, hbinds⟩, hwindow⟩, hfresh⟩ := h
      have hwindow := part_spelled
        (fun e w => .of [.op ",", .word "over", .word "last"] ++ s.operand 9 e w)
        (fun e w hw => by simp +decide [hw]) window hwindow
      have hfresh := part_spelled (fun e w => .of [.op ",", .word "fresh"] ++ s.operand 9 e w)
        (fun e w hw => by simp +decide [hw]) fresh hfresh
      simp +decide [Expr.rendered, spelled_rendered name hname, binds_spelled binds hbinds, hwindow,
        hfresh]
  | .changed names e, h => by
      unfold Expr.grammatical at h
      simp only [Bool.and_eq_true, List.all_eq_true] at h
      have hnames := spelled_names fun n hn => (h.1 n hn).1
      simp +decide [Expr.rendered, Rendered.of_append, spelled_rendered e h.2, hnames]
  | .set items, h => by
      unfold Expr.grammatical at h
      have hcommas := Rendered.spelled_commas (args_spelled false items h)
      simp +decide [Expr.rendered, hcommas]
  | .not e, h | .neg e, h => by
      unfold Expr.grammatical at h
      simp +decide [Expr.rendered, spelled_rendered e h]
  | .isNull e negated, h => by
      unfold Expr.grammatical at h
      cases negated <;> simp +decide [Expr.rendered, spelled_rendered e h]
  | .in' l r, h => by
      unfold Expr.grammatical at h
      simp only [Bool.and_eq_true] at h
      simp +decide [Expr.rendered, spelled_rendered l h.1, spelled_rendered r h.2]
  | .bin op l r, h => by
      unfold Expr.grammatical at h
      simp only [Bool.and_eq_true] at h
      have hop : op.lexeme.isSpelled = true := by cases op <;> decide
      simp [Expr.rendered, spelled_rendered l h.1, spelled_rendered r h.2, hop]
  | .if' c a b, h => by
      unfold Expr.grammatical at h
      simp only [Bool.and_eq_true] at h
      simp +decide [Expr.rendered, spelled_rendered c h.1.1, spelled_rendered a h.1.2,
        spelled_rendered b h.2]
  | .param n, h => by
      unfold Expr.grammatical at h
      simp only [Bool.and_eq_true] at h
      simp +decide [Expr.rendered, spelled_word h.2]
  | .lit v, h => by
      unfold Expr.grammatical at h
      cases h

theorem args_spelled (guard : Bool) :
    ∀ es : List Expr, allGrammatical params es = true → ∀ w ∈ argsRendered s guard es, w.Spelled
  | [], _ => by
      intro w hw
      rw [argsRendered] at hw
      cases hw
  | e :: rest, h => by
      unfold allGrammatical at h
      simp only [Bool.and_eq_true] at h
      have he := spelled_rendered e h.1
      have hrest := args_spelled false rest h.2
      intro w hw
      rw [argsRendered] at hw
      rcases List.mem_cons.mp hw with rfl | hw
      · cases guard <;> simp [he]
      · exact hrest w hw

theorem binds_spelled :
    ∀ bs : List (String × Expr), bindsGrammatical params bs = true → (bindsRendered s bs).Spelled
  | [], _ => by
      rw [bindsRendered]
      exact Rendered.spelled_nil
  | (d, e) :: rest, h => by
      unfold bindsGrammatical at h
      simp only [Bool.and_eq_true, decide_eq_true_eq] at h
      obtain ⟨⟨⟨⟨hd, _⟩, _⟩, he⟩, hrest⟩ := h
      have hname : (Rendered.of (namesWritten [d])).Spelled :=
        spelled_names fun n hn => by rw [List.mem_singleton.mp hn]; exact hd
      simp only [namesWritten, Rendered.spelled_cons] at hname
      simp +decide [bindsRendered, hname.1, spelled_rendered e he, binds_spelled rest hrest]

theorem part_spelled (place : Expr → Rendered → Rendered)
    (hplace : ∀ e w, w.Spelled → (place e w).Spelled) :
    ∀ part : Option Expr, givenGrammatical params part = true →
      (givenRendered s place part).Spelled
  | none, _ => by
      rw [givenRendered]
      exact Rendered.spelled_nil
  | some e, h => by
      unfold givenGrammatical at h
      rw [givenRendered]
      exact hplace e _ (spelled_rendered e h)

end

end

/-! ### A tree's text parses to it -/

/-- **A tree's text parses to the tree**: each the grammar produces, written with
whatever parentheses beside those its operands' binding and its aggregates' forms
need, where neither limit of the parser is passed. -/
theorem parsed_rendering (s : Style) (hs : s.guards = true) (params : Bool) (e : Expr)
    (h : e.grammatical params = true) (hlevels : (e.rendering s).levels ≤ MAX_NESTING)
    (hdepth : e.depth ≤ MAX_DEPTH) :
    parsed (spaced (e.rendering s).toks) params = .ok e := by
  have hwhole : Parser.Whole params e (e.rendering s) := (Parser.holds_rendered hs e h).wholeOf s
  have hspelled : (e.rendering s).Spelled := (s.spelled_whole e _).mpr (spelled_rendered e h)
  obtain ⟨ts, hts, hlexemes⟩ :=
    tokenizeFrom_spaced (spaced (e.rendering s).toks) _ hspelled 0
  have htokens : tokenize (spaced (e.rendering s).toks) = .ok ts := by
    unfold tokenize
    rw [show (spaced (e.rendering s).toks).toList =
      (e.rendering s).toks.flatMap fun l => l.text.toList ++ [' '] from String.toList_ofList]
    exact hts
  have hcount : ts.length = (e.rendering s).toks.length + 1 := by
    have hlength := congrArg List.length hlexemes
    simpa using hlength
  let p : Parser := { text := spaced (e.rendering s).toks, toks := ts, params }
  have hsees : p.Sees ((e.rendering s).toks ++ [Lexeme.last]) := hlexemes
  have hread := hwhole.reads p [Lexeme.last] (32 * ts.length + 31)
    ⟨rfl, hsees, by show 0 + _ ≤ _; omega, by omega⟩ rfl
  have hend : ((p.past (e.rendering s).toks.length).peek 0).kind = .end' := hsees.past.first_kind
  have hturns : turns ts = 32 * ts.length + 31 + 1 := by
    unfold turns
    omega
  have hexpr : Parser.expr (turns ts) p = (.ok e, p.past (e.rendering s).toks.length) := by
    rw [hturns, hread]
  unfold parsed
  rw [htokens]
  dsimp only [Except.mapError, bind, Except.bind]
  rw [hexpr]
  dsimp only
  rw [if_neg (by simp [hend]), if_neg (by omega)]

/-- **Both renderings of a tree parse to it**: the fully parenthesised one, and the
one that leaves out every parenthesis its operands' binding and its aggregates'
forms allow. -/
theorem renderings_parse (params : Bool) (e : Expr) (h : e.grammatical params = true)
    (hdepth : e.depth ≤ MAX_DEPTH) :
    ((e.rendering .full).levels ≤ MAX_NESTING →
      parsed (spaced (e.rendering .full).toks) params = .ok e) ∧
    ((e.rendering .minimal).levels ≤ MAX_NESTING →
      parsed (spaced (e.rendering .minimal).toks) params = .ok e) :=
  ⟨fun hlevels => parsed_rendering .full rfl params e h hlevels hdepth,
    fun hlevels => parsed_rendering .minimal rfl params e h hlevels hdepth⟩

/-- `count((x in {a}))`: a call whose argument is a membership. -/
def memberCounted : Expr := .call (.name "count") [.in' (.name "x") (.set [.name "a"])]

/-- `count(x in {a})`: an aggregate over a set's items. -/
def memberItems : Expr := .agg .count false (some "x") (some (.set [.name "a"])) none none

theorem renderings_parse_memberCounted :
    parsed (spaced (memberCounted.rendering .full).toks) false = .ok memberCounted ∧
      parsed (spaced (memberCounted.rendering .minimal).toks) false = .ok memberCounted :=
  let h := renderings_parse false memberCounted (by decide) (by decide)
  ⟨h.1 (by decide), h.2 (by decide)⟩

/-- An argument's parentheses, which binding lets out, keep an aggregate's name from
being read as its aggregate over items. -/
theorem member_uncounted :
    memberCounted.grammatical false = true ∧ memberCounted.depth ≤ MAX_DEPTH ∧
      (memberCounted.rendering .bare).levels ≤ MAX_NESTING ∧
      parsed (spaced (memberCounted.rendering .full).toks) false = .ok memberCounted ∧
      parsed (spaced (memberCounted.rendering .bare).toks) false ≠ .ok memberCounted := by
  have hsame : (memberCounted.rendering .bare).toks = (memberItems.rendering .minimal).toks := by
    decide
  have hitems := parsed_rendering .minimal rfl false memberItems (by decide) (by decide) (by decide)
  refine ⟨by decide, by decide, by decide,
    parsed_rendering .full rfl false memberCounted (by decide) (by decide) (by decide), ?_⟩
  rw [hsame, hitems]
  intro heq
  cases heq

end ObjectFlow
