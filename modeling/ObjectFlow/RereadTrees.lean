import ObjectFlow.RereadAlone

/-!
# Every tree read back

Each tree the grammar produces, written in a style that keeps the parentheses its
aggregates need, reads as itself: by recursion on the tree, a form's lemma at each
construct.
-/

namespace ObjectFlow

open Base Base.Program

namespace Rendered

theorem of_append (xs ys : List Lexeme) : of (xs ++ ys) = of xs ++ of ys := rfl

theorem of_cons (l m : Lexeme) (toks : List Lexeme) :
    of (l :: m :: toks) = of [l] ++ of (m :: toks) :=
  rfl

end Rendered

namespace Parser

variable {params : Bool}

theorem rank_le_nine (e : Expr) : e.rank ≤ 9 := by
  unfold Expr.rank
  split
  case h_2 op l r =>
    have h := rank_le op
    omega
  all_goals omega

theorem Holds.wholeOf (s : Style) {e : Expr} {w : Rendered} (h : Holds params e.rank e w) :
    Whole params e (s.whole e w) :=
  (h.operand s (Nat.zero_le _) (rank_le_nine e)).whole

/-- What is not to open another form does not, in a style that guards it. -/
theorem Holds.guardedOf {s : Style} (hs : s.guards = true) {opens : List Lexeme → Bool}
    (hopens : ∀ toks, opens (.op "(" :: toks) = false) {e : Expr} {w : Rendered}
    (h : Holds params e.rank e w) :
    Whole params e (s.guarded opens e w) ∧ opens (s.guarded opens e w).toks = false := by
  have hoperand := h.operand s (Nat.zero_le _) (rank_le_nine e)
  unfold Style.guarded
  dsimp only
  by_cases hguard : (s.guards && opens (s.operand 0 e w).toks) = true
  · rw [if_pos hguard]
    exact ⟨(hoperand.inParens.down (Nat.zero_le _) (Nat.le_refl _)).whole, hopens _⟩
  · rw [if_neg hguard]
    rw [hs, Bool.true_and, Bool.not_eq_true] at hguard
    exact ⟨hoperand.whole, hguard⟩

theorem opensRows_paren (toks : List Lexeme) : opensRows (.op "(" :: toks) = false := by
  cases toks <;> rfl

theorem opensItems_paren (toks : List Lexeme) : opensItems (.op "(" :: toks) = false := by
  cases toks <;> rfl

/-- An aggregate's parenthesis before what it holds. -/
theorem of_rows (distinct : Bool) :
    Rendered.of (.op "(" :: if distinct then [.word "distinct"] else []) =
      .of [.op "("] ++ .of (if distinct then [.word "distinct"] else []) :=
  rfl

theorem leftRank_le (op : BinOp) : op.leftRank ≤ 9 := by
  cases op <;> decide

theorem rightRank_le (op : BinOp) : op.rightRank ≤ 9 := by
  cases op <;> decide

/-- **A binary operator** reads where its operands do. -/
theorem holds_bin {op : BinOp} {left right : Expr} {a b : Rendered}
    (ha : Holds params op.leftRank left a) (hb : Holds params op.rightRank right b) :
    Holds params op.rank (.bin op left right) (a ++ (.of [op.lexeme] ++ b)) := by
  cases op with
  | implies => exact holds_implies ha hb
  | or | and | add | sub | mul | div => exact holds_chain rfl ha hb
  | eq | ne | lt | le | gt | ge => exact holds_comparison rfl ha hb

section

variable {s : Style}

mutual

theorem holds_rendered (hs : s.guards = true) :
    ∀ e : Expr, e.grammatical params = true → Holds params e.rank e (e.rendered s)
  | .num n, h => by
      unfold Expr.grammatical Number.isRead at h
      simp only [Bool.and_eq_true, decide_eq_true_eq] at h
      rw [Expr.rendered]
      exact holds_num h.2
  | .str t, _ => by
      rw [Expr.rendered]
      exact holds_str t
  | .bool b, _ => by
      rw [Expr.rendered]
      exact holds_bool b
  | .dur n unit, h => by
      unfold Expr.grammatical Number.isRead at h
      simp only [Bool.and_eq_true, decide_eq_true_eq] at h
      rw [Expr.rendered]
      exact holds_dur h.1.2 h.2
  | .money currency amount, h => by
      unfold Expr.grammatical at h
      simp only [Bool.and_eq_true, decide_eq_true_eq] at h
      rw [Expr.rendered]
      exact holds_money h.1.1.1 h.1.1.2
  | .name n, h => by
      unfold Expr.grammatical isBare at h
      simp only [Bool.and_eq_true, Bool.not_eq_true'] at h
      rw [Expr.rendered]
      exact holds_name h.1 h.2
  | .path b member, h => by
      unfold Expr.grammatical at h
      simp only [Bool.and_eq_true] at h
      have hb := holds_rendered hs b h.1
      rw [Expr.rendered]
      exact holds_path (hb.operand s (by omega) (rank_le_nine b)) member
  | .call (.name f) args, h => by
      unfold Expr.grammatical isBare at h
      simp only [Bool.and_eq_true, Bool.not_eq_true', decide_eq_true_eq] at h
      obtain ⟨⟨⟨⟨hname, hf⟩, hmetric⟩, hchanged⟩, hargs⟩ := h
      obtain ⟨hwholes, hopens⟩ := wholes_rendered hs (Expr.name f).namesAggregate args hargs
      have h : Holds params (Expr.call (.name f) args).rank _ _ :=
        holds_call hname hf hmetric hchanged hwholes hopens
      simpa only [Expr.rendered, Style.callee, argumentsWritten, Rendered.append_assoc] using h
  | .call (.path b member) args, h => by
      unfold Expr.grammatical at h
      simp only [Bool.and_eq_true] at h
      have hpath := holds_rendered hs (.path b member) (by
        unfold Expr.grammatical
        simp [h.1.1, h.1.2])
      obtain ⟨hwholes, _⟩ := wholes_rendered hs false args h.2
      have h : Holds params (Expr.call (.path b member) args).rank _ _ :=
        holds_pathCall (hpath.operand s (by omega) (rank_le_nine _)) hwholes
      simpa only [Expr.rendered, Style.callee, argumentsWritten, Rendered.append_assoc,
        Expr.namesAggregate] using h
  | .call (.num _) _, h | .call (.str _) _, h | .call (.bool _) _, h | .call (.dur ..) _, h
  | .call (.money ..) _, h | .call (.call ..) _, h | .call (.agg ..) _, h | .call (.metric ..) _, h
  | .call (.changed ..) _, h | .call (.set _) _, h | .call (.not _) _, h | .call (.neg _) _, h
  | .call (.isNull ..) _, h | .call (.in' ..) _, h | .call (.bin ..) _, h | .call (.if' ..) _, h
  | .call (.param _) _, h | .call (.lit _) _, h => by
      unfold Expr.grammatical at h
      cases h
  | .agg kind distinct (some var) (some collection) filter body, h => by
      unfold Expr.grammatical at h
      simp only [Bool.and_eq_true] at h
      obtain ⟨⟨⟨⟨⟨_, hvar⟩, hcollection⟩, hfilter⟩, hbody⟩, hbodied⟩ := h
      have hcollection : Holds params 5 collection _ :=
        (holds_rendered hs collection hcollection).operand s (by omega) (rank_le_nine _)
      have hfilter := part_rendered hs (.word "where") filter hfilter
      have hbody := part_rendered hs (.op ":") body hbody
      have h : Holds params (Expr.agg kind distinct (some var) (some collection) filter body).rank _ _ :=
        holds_items hvar hcollection hfilter hbody hbodied
      simpa only [Expr.rendered, givenRendered, distinctWritten, Rendered.append_assoc,
        Rendered.of_cons, of_rows] using h
  | .agg kind distinct (some var) none filter body, h => by
      unfold Expr.grammatical at h
      cases h
  | .agg kind distinct none none filter body, h => by
      unfold Expr.grammatical at h
      simp only [Bool.and_eq_true] at h
      obtain ⟨⟨⟨hfilter, hbody⟩, hdistinct⟩, hsome⟩ := h
      have hfilter := part_rendered hs (.word "where") filter hfilter
      have hbody := body_rendered hs body hbody
      have h : Holds params (Expr.agg kind distinct none none filter body).rank
          (.agg kind distinct none none filter body) _ :=
        holds_rows hbody hfilter hdistinct hsome
      simpa only [Expr.rendered, distinctWritten, Rendered.append_assoc, Rendered.of_cons,
        of_rows] using h
  | .agg kind distinct none (some collection) filter body, h => by
      unfold Expr.grammatical at h
      cases h
  | .metric name binds window fresh, h => by
      unfold Expr.grammatical at h
      simp only [Bool.and_eq_true] at h
      obtain ⟨⟨⟨hname, hbinds⟩, hwindow⟩, hfresh⟩ := h
      have hname : Holds params 5 name _ :=
        (holds_rendered hs name hname).operand s (by omega) (rank_le_nine _)
      have h : Holds params (Expr.metric name binds window fresh).rank _ _ :=
        holds_metric hname (binds_rendered hs binds hbinds)
          (span_rendered hs [.word "over", .word "last"] window hwindow)
          (span_rendered hs [.word "fresh"] fresh hfresh)
      simpa only [Expr.rendered, Rendered.append_assoc, Rendered.of_cons] using h
  | .changed names e, h => by
      unfold Expr.grammatical at h
      simp only [Bool.and_eq_true, List.all_eq_true, decide_eq_true_eq] at h
      have hnames : ∀ n ∈ names, n ≠ "]" := fun n hn => (h.1 n hn).2
      have h : Holds params (Expr.changed names e).rank _ _ :=
        holds_changed hnames ((holds_rendered hs e h.2).wholeOf s)
      simpa only [Expr.rendered, Rendered.append_assoc, Rendered.of_append, Rendered.of_cons] using h
  | .set items, h => by
      unfold Expr.grammatical at h
      obtain ⟨hwholes, _⟩ := wholes_rendered hs false items h
      have h : Holds params (Expr.set items).rank _ _ := holds_set hwholes
      simpa only [Expr.rendered, Rendered.append_assoc] using h
  | .not e, h => by
      unfold Expr.grammatical at h
      have he : Holds params 7 e _ :=
        (holds_rendered hs e h).operand s (by omega) (rank_le_nine _)
      rw [Expr.rendered]
      exact holds_unary he (.inl rfl)
  | .neg e, h => by
      unfold Expr.grammatical at h
      have he : Holds params 7 e _ :=
        (holds_rendered hs e h).operand s (by omega) (rank_le_nine _)
      rw [Expr.rendered]
      exact holds_unary he (.inr rfl)
  | .isNull e negated, h => by
      unfold Expr.grammatical at h
      have he : Holds params 5 e _ :=
        (holds_rendered hs e h).operand s (by omega) (rank_le_nine _)
      rw [Expr.rendered]
      exact holds_isNull he negated
  | .in' l r, h => by
      unfold Expr.grammatical at h
      simp only [Bool.and_eq_true] at h
      have hl : Holds params 5 l _ :=
        (holds_rendered hs l h.1).operand s (by omega) (rank_le_nine _)
      have hr : Holds params 5 r _ :=
        (holds_rendered hs r h.2).operand s (by omega) (rank_le_nine _)
      rw [Expr.rendered, Rendered.append_assoc]
      exact holds_in hl hr
  | .bin op l r, h => by
      unfold Expr.grammatical at h
      simp only [Bool.and_eq_true] at h
      have hl := holds_rendered hs l h.1
      have hr := holds_rendered hs r h.2
      rw [Expr.rendered, Rendered.append_assoc]
      exact holds_bin (hl.operand s (leftRank_le op) (rank_le_nine _))
        (hr.operand s (rightRank_le op) (rank_le_nine _))
  | .if' c a b, h => by
      unfold Expr.grammatical at h
      simp only [Bool.and_eq_true] at h
      have h : Holds params (Expr.if' c a b).rank _ _ :=
        holds_if ((holds_rendered hs c h.1.1).wholeOf s) ((holds_rendered hs a h.1.2).wholeOf s)
          ((holds_rendered hs b h.2).wholeOf s)
      simpa only [Expr.rendered, Rendered.append_assoc] using h
  | .param n, h => by
      unfold Expr.grammatical at h
      simp only [Bool.and_eq_true] at h
      rw [Expr.rendered]
      exact holds_param h.1
  | .lit v, h => by
      unfold Expr.grammatical at h
      cases h

theorem wholes_rendered (hs : s.guards = true) :
    ∀ (guard : Bool) (es : List Expr), allGrammatical params es = true →
      Wholes params es (argsRendered s guard es) ∧
        (guard = true → ∀ w ∈ (argsRendered s guard es).head?, opensRows w.toks = false)
  | guard, [], _ => by
      rw [argsRendered]
      exact ⟨.nil, fun _ w hw => by cases hw⟩
  | guard, e :: rest, h => by
      unfold allGrammatical at h
      simp only [Bool.and_eq_true] at h
      have he := holds_rendered hs e h.1
      obtain ⟨hrest, _⟩ := wholes_rendered hs false rest h.2
      rw [argsRendered]
      cases guard with
      | true =>
          obtain ⟨hwhole, hopens⟩ := he.guardedOf hs opensRows_paren
          refine ⟨.cons hwhole hrest, ?_⟩
          intro _ w hw
          obtain rfl := Option.some.inj hw
          exact hopens
      | false => exact ⟨.cons (he.wholeOf s) hrest, fun hfalse => by cases hfalse⟩

theorem binds_rendered (hs : s.guards = true) :
    ∀ bs : List (String × Expr), bindsGrammatical params bs = true →
      BindsWritten params bs (bindsRendered s bs)
  | [], _ => by
      rw [bindsRendered]
      exact .nil
  | (d, e) :: rest, h => by
      unfold bindsGrammatical at h
      simp only [Bool.and_eq_true, decide_eq_true_eq] at h
      obtain ⟨⟨⟨⟨_, hover⟩, hfresh⟩, he⟩, hrest⟩ := h
      have h : BindsWritten params ((d, e) :: rest) _ :=
        .cons hover hfresh ((holds_rendered hs e he).wholeOf s) (binds_rendered hs rest hrest)
      simpa only [bindsRendered, Rendered.append_assoc, Rendered.of_cons] using h

theorem part_rendered (hs : s.guards = true) (word : Lexeme) :
    ∀ part : Option Expr, givenGrammatical params part = true →
      PartWritten params word part (givenRendered s (fun e w => .of [word] ++ s.whole e w) part)
  | none, _ => by
      rw [givenRendered]
      exact .inl ⟨rfl, rfl⟩
  | some e, h => by
      unfold givenGrammatical at h
      rw [givenRendered]
      exact .inr ⟨e, _, rfl, rfl, (holds_rendered hs e h).wholeOf s⟩

theorem body_rendered (hs : s.guards = true) :
    ∀ part : Option Expr, givenGrammatical params part = true →
      BodyWritten params part (givenRendered s (s.guarded opensItems) part)
  | none, _ => by
      rw [givenRendered]
      exact .inl ⟨rfl, rfl⟩
  | some e, h => by
      unfold givenGrammatical at h
      rw [givenRendered]
      obtain ⟨hwhole, hopens⟩ := (holds_rendered hs e h).guardedOf hs opensItems_paren
      exact .inr ⟨e, rfl, hwhole, hopens⟩

theorem span_rendered (hs : s.guards = true) (words : List Lexeme) :
    ∀ part : Option Expr, givenGrammatical params part = true →
      SpanWritten params (.of words) part
        (givenRendered s (fun e w => .of (.op "," :: words) ++ s.operand 9 e w) part)
  | none, _ => by
      rw [givenRendered]
      exact .inl ⟨rfl, rfl⟩
  | some e, h => by
      unfold givenGrammatical at h
      rw [givenRendered]
      exact .inr ⟨e, _, rfl, rfl,
        (holds_rendered hs e h).operand s (Nat.le_refl _) (rank_le_nine _)⟩

end

end

end Parser

end ObjectFlow
