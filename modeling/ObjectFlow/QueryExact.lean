import ObjectFlow.Equality
import ObjectFlow.MannerAlike
import ObjectFlow.QueryPages
import ObjectFlow.Supersession

/-!
# A query's narrowing loses nothing

What a query reads is narrowed to the states and the column values its filter
requires through its conjuncts.  An object the filter is true of is in those states
and holds those values, or none in those columns, so reading the narrowed objects and
then judging them gives what judging every object of the type would.
-/

namespace ObjectFlow

open Base

/-! ### What a true condition requires -/

section Holds

variable {m : MetricReader} {ev : Evaluator}

/-- A condition an evaluator finds true. -/
def Holds (m : MetricReader) (ev : Evaluator) (e : Expr) : Prop :=
  ((Evaluator.meaning m e).truth ev []).outcome = .ok (some true)

/-- A value an expression evaluates to. -/
def Gives (m : MetricReader) (ev : Evaluator) (e : Expr) (v : Value) : Prop :=
  ((Evaluator.meaning m e).value ev []).outcome = .ok v

theorem Gives.unique {e : Expr} {u v : Value} (hu : Gives m ev e u) (hv : Gives m ev e v) :
    u = v := Except.ok.inj (Eq.trans (Eq.symm hu) hv)

theorem truth_true {v : Value} (h : (truth v).outcome = .ok (some true)) : v = .bool true := by
  unfold truth at h
  cases v with
  | bool b =>
      cases b with
      | true => rfl
      | false => cases h
  | _ => cases h

/-- A conjunction holds where both of its sides do. -/
theorem Holds.both {l r : Expr} (h : Holds m ev (.bin .and l r)) : Holds m ev l ∧ Holds m ev r := by
  obtain ⟨v, hv, htrue⟩ := Noted.bind_outcome_ok.mp h
  obtain rfl := truth_true htrue
  obtain ⟨term, hterm, hvalue⟩ := Noted.bind_outcome_ok.mp hv
  change (logic .and (Evaluator.meaning m l) (Evaluator.meaning m r) ev []).outcome = .ok term at hterm
  unfold logic at hterm
  obtain ⟨a, ha, hterm⟩ := Noted.bind_outcome_ok.mp hterm
  -- a false side decides alone, and then nothing is true
  have hdecided : (decide (BinOp.and ≠ BinOp.and)) = false := rfl
  rw [hdecided] at hterm
  cases a with
  | none =>
      obtain ⟨b, -, hterm⟩ := Noted.bind_outcome_ok.mp hterm
      obtain rfl := (Except.ok.inj hterm).symm
      cases b with
      | none => cases hvalue
      | some b => cases b <;> cases hvalue
  | some a =>
      cases a with
      | false =>
          obtain ⟨-, -, hterm⟩ := Noted.bind_outcome_ok.mp hterm
          obtain rfl := (Except.ok.inj hterm).symm
          cases hvalue
      | true =>
          obtain ⟨b, hb, hterm⟩ := Noted.bind_outcome_ok.mp hterm
          obtain rfl := (Except.ok.inj hterm).symm
          cases b with
          | none => cases hvalue
          | some b =>
              cases b with
              | false => cases hvalue
              | true => exact ⟨ha, hb⟩

theorem combine_eq (a b : Value) :
    combine .eq a b = .ok (if (zeroAs a b).isAbsent || (zeroAs b a).isAbsent then .absent
      else .bool ((zeroAs a b).equals (zeroAs b a))) := by
  unfold combine
  rw [if_neg (by simp)]
  dsimp only
  split <;> rfl

theorem combined_eq_true {a b : Value} (h : (ev.combined .eq a b).outcome = .ok (.bool true)) :
    (zeroAs a b).equals (zeroAs b a) = true := by
  unfold Evaluator.combined at h
  rw [combine_eq] at h
  cases habsent : (zeroAs a b).isAbsent || (zeroAs b a).isAbsent with
  | false =>
      rw [habsent] at h
      exact Value.bool.inj (Except.ok.inj h)
  | true =>
      rw [habsent] at h
      dsimp only at h
      rw [if_pos rfl] at h
      -- an absent value is no truth, and one out of range none at all
      cases hpresent : (Value.absent.isAbsent && !a.isAbsent && !b.isAbsent) with
      | true =>
          rw [hpresent, if_pos rfl, if_neg (by simp)] at h
          cases h
      | false =>
          rw [hpresent, if_neg (by decide)] at h
          cases h

/-- An equation holds where its sides evaluate to present values that are equal. -/
theorem Holds.equal {l r : Expr} (h : Holds m ev (.bin .eq l r)) (hl : l.isDecimalLiteral = false)
    (hr : r.isDecimalLiteral = false) :
    ∃ a b, Gives m ev l a ∧ Gives m ev r b ∧ (zeroAs a b).equals (zeroAs b a) = true := by
  obtain ⟨v, hv, htrue⟩ := Noted.bind_outcome_ok.mp h
  obtain rfl := truth_true htrue
  obtain ⟨term, hterm, hvalue⟩ := Noted.bind_outcome_ok.mp hv
  obtain ⟨⟨a, b⟩, hpair, hterm⟩ := Noted.bind_outcome_ok.mp hterm
  obtain ⟨u, hu, hterm⟩ := Noted.bind_outcome_ok.mp hterm
  obtain rfl := (Except.ok.inj hterm).symm
  obtain rfl := Except.ok.inj hvalue
  -- neither operand is a decimal literal, so neither is widened
  obtain ⟨a', ha, hpair⟩ := Noted.bind_outcome_ok.mp hpair
  obtain ⟨b', hb, hpair⟩ := Noted.bind_outcome_ok.mp hpair
  rw [hl, hr] at hpair
  obtain ⟨rfl, rfl⟩ := Prod.mk.inj (Except.ok.inj hpair)
  refine ⟨a', b', ha, hb, ?_⟩
  exact combined_eq_true hu

/-- An equation written either way round. -/
theorem Holds.equal_either {l r : Expr}
    (h : Holds m ev (.bin .eq l r) ∨ Holds m ev (.bin .eq r l)) (hl : l.isDecimalLiteral = false)
    (hr : r.isDecimalLiteral = false) :
    ∃ a b, Gives m ev l a ∧ Gives m ev r b ∧
      ((zeroAs a b).equals (zeroAs b a) = true ∨ (zeroAs b a).equals (zeroAs a b) = true) := by
  rcases h with h | h
  · obtain ⟨a, b, ha, hb, hequal⟩ := h.equal hl hr
    exact ⟨a, b, ha, hb, .inl hequal⟩
  · obtain ⟨b, a, hb, ha, hequal⟩ := h.equal hr hl
    exact ⟨a, b, ha, hb, .inr hequal⟩

end Holds

/-! ### What an object's own members give -/

section Members

variable {m : MetricReader} {ev : Evaluator} {below : Evaluator → Expr → Evaluated Value}

theorem nameTerm_free {n : String} {term : Term}
    (h : (ev.nameTerm m below n []).outcome = .ok term) :
    (ev.freeName m below n).outcome = .ok term := by
  obtain ⟨free, hfree, h⟩ := Noted.bind_outcome_ok.mp h
  dsimp only at h
  rw [if_pos (show (Table.get? ([] : Env) n).isNone = true from rfl)] at h
  obtain ⟨-, -, h⟩ := Noted.bind_outcome_ok.mp h
  obtain rfl := Except.ok.inj h
  exact hfree

/-- A path gives the member of what its base reads as, where the object exists. -/
theorem path_member {base : Expr} {member : String} {term : Term} (hthis : ev.this.isSome)
    (h : (pathTerm m below base (base.meaning m below) member ev []).outcome = .ok term) :
    ∃ b, (base.meaning m below ev []).outcome = .ok b ∧
      (ev.member m below b member).outcome = .ok term := by
  have hcreated : ev.readsCreated base member [] = false := by
    simp [Evaluator.readsCreated, Option.isNone_eq_false_iff.mpr hthis]
  unfold pathTerm at h
  dsimp only at h
  rw [hcreated, if_neg (by decide)] at h
  obtain ⟨b, hb, h⟩ := Noted.bind_outcome_ok.mp h
  obtain ⟨found, hfound, h⟩ := Noted.bind_outcome_ok.mp h
  obtain ⟨-, -, h⟩ := Noted.bind_outcome_ok.mp h
  obtain rfl := Except.ok.inj h
  exact ⟨b, hb, hfound⟩

theorem noteRead_ok (id : String) : (ev.noteRead id).outcome = .ok () := by
  unfold Evaluator.noteRead
  split
  · split <;> rfl
  · rfl

/-- A stored attribute gives what the object holds in it. -/
theorem memberOf_stored {id a : String} {o : Object} {t : FlowType} {spec : Attribute} {v : Value}
    (hget : ev.world.get id = some o) (htype : ev.world.lib.type? o.type = some t)
    (hspec : t.attribute? a = some spec) (hstate : a ≠ "state")
    (hother : OBJECT_MEMBERS.contains a = false) (hv : Table.get? o.attrs a = some v) :
    (ev.memberOf m below id a).outcome = .ok (.value v) := by
  have hdeclares : t.declaresMember a = true := by simp [FlowType.declaresMember, hspec]
  have hbuiltin : ev.builtin? o t a = none := by
    unfold Evaluator.builtin?
    rw [hother, hdeclares, Bool.not_true, Bool.and_false, Bool.or_false, Bool.or_false,
      decide_eq_false hstate, if_neg (by simp)]
  unfold Evaluator.memberOf
  rw [Noted.bind_of_ok (noteRead_ok id)]
  simp only [hget, htype, hbuiltin, hspec, hv]
  rfl

end Members

/-- A store as the reads of a type rely on it: each object the world holds is the
one stored, of a type that has the members it holds and names none as a reserved
word, and every value is fitted to its declared type. -/
structure Query.Sound (w : World) (s : StoredObjects) : Prop where
  keyed : ∀ id x, w.get id = some x → x.id = id
  held : ∀ o ∈ s.rows, w.get o.id = some o.toObject
  typed : ∀ o ∈ s.rows, ∃ t, w.lib.type? o.type = some t ∧
    ∀ a, (o.attr a).isAbsent = false → (t.attribute? a).isSome
  named : ∀ n t a, w.lib.type? n = some t → (t.attribute? a).isSome →
    RESERVED.contains a = false ∧ a ≠ "state" ∧ OBJECT_MEMBERS.contains a = false
  types : ∀ n, RESERVED.contains n → w.lib.type? n = none
  fitted : ∀ o ∈ s.rows, ∀ n t a spec, w.lib.isA o.type n → w.lib.type? n = some t →
    t.attribute? a = some spec → fitValue spec.declared spec.many (o.attr a) = some (o.attr a)

section Required

variable {m : MetricReader} {w : World} {s : StoredObjects} {o : HeldObject} {t : FlowType}

/-- The evaluator a query judges an object by. -/
def Query.judge (w : World) (o : HeldObject) (t : FlowType) : Evaluator :=
  { world := w, this := some o.id, type := some t }

/-- What the evaluator reads by a member's name is the object's own member. -/
theorem judge_member {n : String} {below : Evaluator → Expr → Evaluated Value}
    (hfree : RESERVED.contains n = false) (hmember : t.hasMember n = true) :
    (Query.judge w o t).freeName m below n = (Query.judge w o t).memberOf m below o.id n :=
  Evaluator.freeName_member rfl rfl hfree hmember

/-- The `state` an object's own name gives is its own. -/
theorem gives_state (h : Query.Sound w s) (ho : o ∈ s.rows) (ht : w.lib.type? o.type = some t)
    {v : Value} (hv : Gives m (Query.judge w o t) (.name "state") v) :
    v = .state o.type o.state := by
  obtain ⟨term, hterm, hvalue⟩ := Noted.bind_outcome_ok.mp hv
  have hfree := nameTerm_free hterm
  rw [judge_member (by decide) (by simp [FlowType.hasMember])] at hfree
  unfold Evaluator.memberOf at hfree
  rw [Noted.bind_of_ok (noteRead_ok _)] at hfree
  have hget : (Query.judge w o t).world.get o.id = some o.toObject := h.held o ho
  have htype : (Query.judge w o t).world.lib.type? o.toObject.type = some t := ht
  have hbuiltin : (Query.judge w o t).builtin? o.toObject t "state" =
      some (pure (.value (.state o.type o.state))) := rfl
  simp only [hget, htype, hbuiltin] at hfree
  obtain rfl := Except.ok.inj hfree
  exact (Except.ok.inj hvalue).symm

/-- What a bare name that is no member of its own reads as: a state, a category, an
actor's kind, or a type. -/
inductive FreeTerm (t : FlowType) (n : String) : Term → Prop where
  | timestamp (x : Int) : FreeTerm t n (.value (.timestamp x))
  | int (x : Int) : FreeTerm t n (.value (.int x))
  | kind : FreeTerm t n (.value (.text n))
  | state (h : (t.state? n).isSome) : FreeTerm t n (.value (.state t.name n))
  | category : FreeTerm t n (.category n)
  | type : FreeTerm t n (.typeRef n)

/-- A name no type of the family reads as a member. -/
theorem not_member {family : List FlowType} {n : String} (hfamily : t ∈ family)
    (h : familyMember family n = false) (hmember : t.hasMember n = true) :
    n = "recorded_from" ∨ n = "declaration_version" := by
  have hnone := List.any_eq_false.mp h t hfamily
  have hentry : ∀ {α : Type} (entries : List (String × α)), (Table.get? entries n).isSome = true →
      entries.any (·.1 = n) = true := by
    intro α entries hsome
    obtain ⟨v, hv⟩ := Option.isSome_iff_exists.mp hsome
    exact List.any_eq_true.mpr ⟨(n, v), Table.mem_of_get? hv, decide_eq_true rfl⟩
  have hderived := hentry t.derived
  have hobservations := hentry t.observations
  simp only [FlowType.hasMember, FlowType.declaresMember, FlowType.derived?, named?,
    OBJECT_MEMBERS, List.contains_cons, List.contains_nil] at hmember hnone
  grind

theorem freeName_free {n : String} (h : Query.Sound w s) (ho : o ∈ s.rows)
    (ht : w.lib.type? o.type = some t) (hreserved : RESERVED.contains n = false)
    (hmember : t.hasMember n = true → n = "recorded_from" ∨ n = "declaration_version")
    {below : Evaluator → Expr → Evaluated Value} {term : Term}
    (hterm : ((Query.judge w o t).freeName m below n).outcome = .ok term) : FreeTerm t n term := by
  by_cases hhas : t.hasMember n = true
  · rw [judge_member hreserved hhas] at hterm
    unfold Evaluator.memberOf at hterm
    rw [Noted.bind_of_ok (noteRead_ok _)] at hterm
    have hget : (Query.judge w o t).world.get o.id = some o.toObject := h.held o ho
    have htype : (Query.judge w o t).world.lib.type? o.toObject.type = some t := ht
    simp only [hget, htype] at hterm
    rcases hmember hhas with rfl | rfl <;> obtain rfl := Except.ok.inj hterm
    · exact .timestamp _
    · exact .int _
  · unfold Evaluator.freeName at hterm
    split at hterm
    case h_7 =>
      simp only [Query.judge, hhas, Bool.false_eq_true, if_false] at hterm
      split at hterm
      case isTrue hstate =>
        obtain rfl := Except.ok.inj hterm
        exact .state hstate
      case isFalse =>
        split at hterm
        · obtain rfl := Except.ok.inj hterm
          exact .category
        · split at hterm <;> obtain rfl := Except.ok.inj hterm
          · exact .kind
          · exact .type
    all_goals exact absurd hreserved (by decide)

theorem referrers_set (ev : Evaluator) : ∃ items, ev.referrers = .set items := by
  unfold Evaluator.referrers
  split
  · exact ⟨_, rfl⟩
  · exact ⟨_, rfl⟩

/-- A reserved name gives no state. -/
theorem reserved_no_state {n : String} (hreserved : RESERVED.contains n = true)
    {below : Evaluator → Expr → Evaluated Value} {term : Term}
    (hterm : ((Query.judge w o t).freeName m below n).outcome = .ok term) {type state : String} :
    term.toValue.outcome ≠ .ok (.state type state) := by
  intro hvalue
  unfold Evaluator.freeName at hterm
  split at hterm
  case h_5 =>
    obtain rfl := Except.ok.inj hterm
    obtain ⟨items, hitems⟩ := referrers_set (Query.judge w o t)
    rw [hitems] at hvalue
    cases hvalue
  case h_6 => cases hterm
  case h_7 hnow hthis hinputs hactor hreferrers hevent =>
    simp [RESERVED] at hreserved
    rcases hreserved with rfl | rfl | rfl | rfl | rfl | rfl <;> contradiction
  all_goals
    obtain rfl := Except.ok.inj hterm
    cases hvalue

/-- An expression that names a state of a filter's type, and gives one, gives that. -/
theorem stateNamed_gives (h : Query.Sound w s) (ho : o ∈ s.rows) (ht : w.lib.type? o.type = some t)
    {family : List FlowType} (hfamily : t ∈ family) {side other : Expr} {named : String}
    (hnamed : stateNamed w.lib family side other = some named) :
    side = .name "state" ∧ other.isDecimalLiteral = false ∧ ∀ type state,
      Gives m (Query.judge w o t) other (.state type state) → state = named := by
  unfold stateNamed at hnamed
  split at hnamed
  case h_2 => cases hnamed
  split at hnamed
  case h_3 => cases hnamed
  case h_1 n =>
    split at hnamed
    case isFalse => cases hnamed
    case isTrue hn =>
      obtain rfl := Option.some.inj hnamed
      refine ⟨rfl, rfl, fun type state hgives => ?_⟩
      obtain ⟨term, hterm, hvalue⟩ := Noted.bind_outcome_ok.mp hgives
      have hfree := nameTerm_free hterm
      cases hreserved : RESERVED.contains n with
      | true => exact absurd hvalue (reserved_no_state hreserved hfree)
      | false =>
          rw [Bool.and_eq_true, Bool.not_eq_true'] at hn
          cases freeName_free h ho ht hreserved (not_member hfamily hn.1) hfree with
          | state _ =>
              have := Except.ok.inj hvalue
              simp only [Value.state.injEq] at this
              exact this.2.symm
          | timestamp _ => cases hvalue
          | int _ => cases hvalue
          | kind => cases hvalue
          | category => cases hvalue
          | type => cases hvalue
  case h_2 n state' =>
    split at hnamed
    case isFalse => cases hnamed
    case isTrue hn =>
      obtain rfl := Option.some.inj hnamed
      refine ⟨rfl, rfl, fun type state hgives => ?_⟩
      simp only [Bool.and_eq_true, Bool.not_eq_true', List.all_eq_true] at hn
      obtain ⟨⟨hmember, hstates⟩, htype⟩ := hn
      -- the type it names is one the library has, so its name is not reserved
      have hreserved : RESERVED.contains n = false := by
        cases hreserved : RESERVED.contains n with
        | false => rfl
        | true =>
            rw [h.types n hreserved] at htype
            cases htype
      obtain ⟨term, hterm, hvalue⟩ := Noted.bind_outcome_ok.mp hgives
      obtain ⟨b, hb, hterm⟩ := path_member rfl hterm
      cases freeName_free h ho ht hreserved (not_member hfamily hmember) (nameTerm_free hb) with
      | state hstate =>
          have := hstates t hfamily
          rw [Option.isNone_iff_eq_none] at this
          rw [this] at hstate
          cases hstate
      | timestamp _ => cases hterm
      | int _ => cases hterm
      | kind => cases hterm
      | category => cases hterm
      | type =>
          unfold Evaluator.member at hterm
          dsimp only at hterm
          split at hterm
          · obtain rfl := Except.ok.inj hterm
            cases hvalue
          · split at hterm
            · obtain rfl := Except.ok.inj hterm
              have := Except.ok.inj hvalue
              simp only [Value.state.injEq] at this
              exact this.2.symm
            · cases hterm

/-- Only a zero met by a duration or an amount is read as theirs. -/
theorem zeroAs_self {v other : Value}
    (h : v ≠ .int 0 ∨ (∀ n, other ≠ .duration n) ∧ ∀ c d, other ≠ .money c d) :
    zeroAs v other = v := by
  unfold zeroAs
  split
  · exact h.elim (fun hv => absurd rfl hv) fun ho => absurd rfl (ho.1 _)
  · exact h.elim (fun hv => absurd rfl hv) fun ho => absurd rfl (ho.2 _ _)
  · rfl

/-- What equals a state, on either side, is that state. -/
theorem equals_state {type state : String} {v : Value}
    (h : (zeroAs (.state type state) v).equals (zeroAs v (.state type state)) = true ∨
      (zeroAs v (.state type state)).equals (zeroAs (.state type state) v) = true) :
    v = .state type state := by
  rw [zeroAs_self (.inl (by simp)), zeroAs_self (.inr (by simp))] at h
  cases v <;> simp [Value.equals, Value.number, Value.same] at h
  rcases h with ⟨rfl, rfl⟩ | ⟨rfl, rfl⟩ <;> rfl

/-- An object a filter is true of is in the states the filter requires. -/
theorem statesRequired_sound (h : Query.Sound w s) (ho : o ∈ s.rows)
    (ht : w.lib.type? o.type = some t) {family : List FlowType} (hfamily : t ∈ family) {e : Expr}
    {states : List String} (hrequired : statesRequired w.lib family e = some states)
    (he : Holds m (Query.judge w o t) e) : o.state ∈ states := by
  induction e using statesRequired.induct w.lib family generalizing states with
  | case1 l r a b hb ha ihl ihr =>
      obtain ⟨hl, hr⟩ := he.both
      rw [statesRequired, ha, hb] at hrequired
      obtain rfl := Option.some.inj hrequired
      exact List.mem_filter.mpr ⟨ihl ha hl, List.contains_iff_mem.mpr (ihr hb hr)⟩
  | case2 l r hnotBoth ihl ihr =>
      obtain ⟨hl, hr⟩ := he.both
      unfold statesRequired at hrequired
      split at hrequired
      case h_1 a b ha hb => exact (hnotBoth a b ha hb).elim
      case h_2 =>
        rcases Option.or_eq_some_iff.mp hrequired with ha | ⟨-, hb⟩
        · exact ihl ha hl
        · exact ihr hb hr
  | case3 l r =>
      unfold statesRequired at hrequired
      obtain ⟨named, hnamed, rfl⟩ := Option.map_eq_some_iff.mp hrequired
      rw [List.mem_singleton]
      rcases Option.or_eq_some_iff.mp hnamed with hleft | ⟨-, hright⟩
      · obtain ⟨rfl, hplain, hgives⟩ := stateNamed_gives h ho ht hfamily hleft
        obtain ⟨a, b, ha, hb, hequal⟩ := he.equal rfl hplain
        obtain rfl := gives_state h ho ht ha
        obtain rfl := equals_state (.inl hequal)
        exact hgives _ _ hb
      · obtain ⟨rfl, hplain, hgives⟩ := stateNamed_gives h ho ht hfamily hright
        obtain ⟨a, b, ha, hb, hequal⟩ := he.equal hplain rfl
        obtain rfl := gives_state h ho ht hb
        obtain rfl := equals_state (.inr hequal)
        exact hgives _ _ ha
  | case4 e hand heq =>
      unfold statesRequired at hrequired
      split at hrequired
      case h_1 l r => exact (hand l r rfl).elim
      case h_2 l r => exact (heq l r rfl).elim
      case h_3 => cases hrequired

/-- A stored attribute's name gives what the object holds in it. -/
theorem gives_attr (h : Query.Sound w s) (ho : o ∈ s.rows) (ht : w.lib.type? o.type = some t)
    {a : String} (hpresent : (o.attr a).isAbsent = false) {term : Term}
    (hterm : ((Query.judge w o t).freeName m (derivedValue m DERIVED_HOPS) a).outcome = .ok term) :
    term = .value (o.attr a) := by
  obtain ⟨t', ht', hdeclared⟩ := h.typed o ho
  obtain rfl : t = t' := Option.some.inj (ht.symm.trans ht')
  have hspec := hdeclared a hpresent
  obtain ⟨hreserved, hstate, hother⟩ := h.named o.type t a ht hspec
  obtain ⟨spec, hspec⟩ := Option.isSome_iff_exists.mp hspec
  obtain ⟨v, hv⟩ : ∃ v, Table.get? o.attrs a = some v := by
    cases hv : Table.get? o.attrs a with
    | some v => exact ⟨v, rfl⟩
    | none =>
        rw [Object.attr, hv] at hpresent
        cases hpresent
  have hmember : t.hasMember a = true := by simp [FlowType.hasMember, FlowType.declaresMember, hspec]
  rw [judge_member hreserved hmember,
    memberOf_stored (h.held o ho) ht hspec hstate hother hv] at hterm
  rw [Object.attr, hv]
  exact (Except.ok.inj hterm).symm

/-- The `id` of what an attribute refers to is the id it holds. -/
theorem gives_reference (h : Query.Sound w s) (ho : o ∈ s.rows) (ht : w.lib.type? o.type = some t)
    {a id : String} (hv : o.attr a = .object id) {v : Value}
    (hgives : Gives m (Query.judge w o t) (.path (.name a) "id") v) : v = .text id := by
  obtain ⟨term, hterm, hvalue⟩ := Noted.bind_outcome_ok.mp hgives
  obtain ⟨b, hb, hterm⟩ := path_member rfl hterm
  obtain rfl := gives_attr h ho ht (by rw [hv]; rfl) (nameTerm_free hb)
  rw [hv] at hterm
  unfold Evaluator.member Evaluator.memberOf at hterm
  dsimp only at hterm
  rw [Noted.bind_of_ok (noteRead_ok _)] at hterm
  dsimp only at hterm
  split at hterm
  case h_1 => cases hterm
  case h_2 x hx =>
    split at hterm
    case h_1 => cases hterm
    case h_2 =>
      obtain rfl := Except.ok.inj hterm
      rw [h.keyed id x hx] at hvalue
      exact (Except.ok.inj hvalue).symm

/-- A present value fitted to a reference refers to an object. -/
theorem fitted_reference {spec : Attribute} {v : Value} {target : String}
    (hfit : fitValue spec.declared spec.many v = some v) (hpresent : v.isAbsent = false)
    (hsingle : spec.many = false) (hdeclared : spec.declared = .reference target) :
    ∃ id, v = .object id := by
  rw [hsingle, hdeclared] at hfit
  cases v with
  | object id => exact ⟨id, rfl⟩
  | absent => cases hpresent
  | _ => cases hfit

/-- A value fitted to an integer is no duration and no amount. -/
theorem fitted_int {spec : Attribute} {v : Value}
    (hfit : fitValue spec.declared spec.many v = some v) (hsingle : spec.many = false)
    (hdeclared : spec.declared = .scalar (.named "int")) :
    (∀ n, v ≠ .duration n) ∧ ∀ c d, v ≠ .money c d := by
  rw [hsingle, hdeclared] at hfit
  refine ⟨fun n hv => ?_, fun c d hv => ?_⟩ <;> subst hv <;> cases hfit

/-- **A column a filter requires** holds the value required, or none, in an object the
filter is true of. -/
theorem columnHeld_sound (h : Query.Sound w s) (ho : o ∈ s.rows) (ht : w.lib.type? o.type = some t)
    {n : String} {asked : FlowType} (hisA : w.lib.isA o.type n = true)
    (hasked : w.lib.type? n = some asked) {side other : Expr} {a : String} {v : Value}
    (hheld : columnHeld asked side other = some (a, v))
    (he : Holds m (Query.judge w o t) (.bin .eq side other) ∨
      Holds m (Query.judge w o t) (.bin .eq other side)) :
    ((o.attr a).isAbsent || (o.attr a).equals v) = true := by
  cases hpresent : (o.attr a).isAbsent with
  | true => rfl
  | false =>
      rw [Bool.false_or]
      unfold columnHeld at hheld
      split at hheld
      case h_4 => cases hheld
      case h_1 r x =>
        obtain ⟨spec, hspec, heq⟩ := Option.map_eq_some_iff.mp hheld
        obtain ⟨rfl, rfl⟩ := Prod.mk.inj heq
        obtain ⟨hspec, hsingle⟩ := Option.filter_eq_some_iff.mp hspec
        rw [Bool.and_eq_true, Bool.not_eq_true'] at hsingle
        obtain ⟨hsingle, hreference⟩ := hsingle
        obtain ⟨target, htarget⟩ : ∃ target, spec.declared = .reference target := by
          split at hreference
          case h_1 target htarget => exact ⟨target, htarget⟩
          case h_2 => cases hreference
        obtain ⟨id, hid⟩ := fitted_reference (h.fitted o ho n asked r spec hisA hasked hspec)
          hpresent hsingle htarget
        obtain ⟨u, v, hu, hv, hequal⟩ := Holds.equal_either he rfl rfl
        obtain rfl := gives_reference h ho ht hid hu
        obtain rfl := (Except.ok.inj hv).symm
        rw [hid]
        simpa [zeroAs, Value.equals, Value.number, Value.same, eq_comm] using hequal
      case h_2 a x =>
        obtain ⟨spec, -, heq⟩ := Option.map_eq_some_iff.mp hheld
        obtain ⟨rfl, rfl⟩ := Prod.mk.inj heq
        obtain ⟨u, v, hu, hv, hequal⟩ := Holds.equal_either he rfl rfl
        obtain ⟨term, hterm, hvalue⟩ := Noted.bind_outcome_ok.mp hu
        obtain rfl := gives_attr h ho ht hpresent (nameTerm_free hterm)
        obtain rfl := Except.ok.inj hvalue
        obtain rfl := (Except.ok.inj hv).symm
        rw [zeroAs_self (.inr (by simp)), zeroAs_self (.inl (by simp))] at hequal
        generalize o.attr a = v at hequal ⊢
        cases v <;> simp [Value.equals, Value.number, Value.same] at hequal ⊢
        exact hequal.elim id Eq.symm
      case h_3 a k =>
        obtain ⟨spec, hspec, heq⟩ := Option.map_eq_some_iff.mp hheld
        obtain ⟨rfl, rfl⟩ := Prod.mk.inj heq
        obtain ⟨hspec, hint⟩ := Option.filter_eq_some_iff.mp hspec
        rw [Bool.and_eq_true, Bool.not_eq_true', decide_eq_true_eq] at hint
        have hplain := fitted_int (h.fitted o ho n asked a spec hisA hasked hspec) hint.1 hint.2
        obtain ⟨u, v, hu, hv, hequal⟩ := Holds.equal_either he rfl rfl
        obtain ⟨term, hterm, hvalue⟩ := Noted.bind_outcome_ok.mp hu
        obtain rfl := gives_attr h ho ht hpresent (nameTerm_free hterm)
        obtain rfl := Except.ok.inj hvalue
        obtain rfl := (Except.ok.inj hv).symm
        rw [zeroAs_self (.inr (by simp)), zeroAs_self (.inr hplain)] at hequal
        exact hequal.elim id Value.equals_symm

theorem columnsRequired_sound (h : Query.Sound w s) (ho : o ∈ s.rows)
    (ht : w.lib.type? o.type = some t) {n : String} {asked : FlowType}
    (hisA : w.lib.isA o.type n = true) (hasked : w.lib.type? n = some asked) {e : Expr}
    (he : Holds m (Query.judge w o t) e) :
    ∀ c ∈ columnsRequired asked e, ((o.attr c.1).isAbsent || (o.attr c.1).equals c.2) = true := by
  induction e using columnsRequired.induct with
  | case1 l r ihr ihl =>
      obtain ⟨hl, hr⟩ := he.both
      intro c hc
      rcases List.mem_append.mp hc with hc | hc
      · exact ihr hr c hc
      · exact ihl hl c hc
  | case2 l r =>
      intro c hc
      rcases Option.or_eq_some_iff.mp (Option.mem_toList.mp hc) with hleft | ⟨-, hright⟩
      · exact columnHeld_sound h ho ht hisA hasked hleft (.inl he)
      · exact columnHeld_sound h ho ht hisA hasked hright (.inr he)
  | case3 e hand heq =>
      intro c hc
      unfold columnsRequired at hc
      split at hc
      case h_1 l r => exact (hand l r rfl).elim
      case h_2 l r => exact (heq l r rfl).elim
      case h_3 => cases hc

/-- What selects an object is a filter true of it. -/
theorem holds_of_selects {e : Expr} (ht : w.lib.type? o.type = some t)
    (h : Query.selects m w (some e) o = .ok true) : Holds m (Query.judge w o t) e := by
  unfold Query.selects at h
  rw [ht] at h
  dsimp only at h
  split at h
  case h_2 => cases h
  case h_3 => cases h
  case h_1 b hb =>
    obtain rfl : b = some true := by simpa using h
    obtain ⟨v, hv, htrue⟩ := Noted.bind_outcome_ok.mp hb
    obtain rfl := truth_true htrue
    obtain ⟨term, hterm, hanswer⟩ := Noted.bind_outcome_ok.mp hv
    -- a category's answer is a text, so the term is the value itself
    cases term with
    | value v =>
        obtain rfl := Except.ok.inj hanswer
        exact Noted.bind_outcome_ok.mpr
          ⟨.bool true, Noted.bind_outcome_ok.mpr ⟨_, hterm, rfl⟩, rfl⟩
    | _ => cases hanswer

/-- **Narrowing a query's read loses nothing its filter selects.** -/
theorem filterNarrows_sound (h : Query.Sound w s) (ho : o ∈ s.rows) {n : String}
    (hisA : w.lib.isA o.type n = true) {filter : Option Expr}
    (hselects : Query.selects m w filter o = .ok true) :
    (filterNarrows w.lib n filter).selects o.toObject = true := by
  obtain ⟨t, ht, -⟩ := h.typed o ho
  cases filter with
  | none => rfl
  | some e =>
      have he := holds_of_selects ht hselects
      have hfamily : t ∈ familyTypes w.lib n :=
        List.mem_map.mpr ⟨(o.type, t), List.mem_filter.mpr ⟨Table.mem_of_get? ht, hisA⟩, rfl⟩
      rw [Narrowed.selects, Bool.and_eq_true]
      constructor
      · cases hrequired : statesRequired w.lib (familyTypes w.lib n) e with
        | none => simp [filterNarrows, hrequired]
        | some states =>
            have := statesRequired_sound h ho ht hfamily hrequired he
            simpa [filterNarrows, hrequired] using this
      · unfold filterNarrows
        dsimp only
        cases hasked : w.lib.type? n with
        | none => rfl
        | some asked =>
            rw [List.all_eq_true]
            exact fun c hc => columnsRequired_sound h ho ht hisA hasked he c hc

end Required

namespace Query

/-- The objects a query is of: those of its type or one extending it that its filter
is true of, in creation order. -/
def matching (m : MetricReader) (w : World) (s : StoredObjects) (q : Query)
    (filter : Option Expr) : List HeldObject :=
  s.rows.filter fun o => w.lib.isA o.type q.type &&
    match selects m w filter o with
    | .ok b => b
    | .error _ => false

variable {m : MetricReader} {w : World} {s : StoredObjects} {summary : List String} {q : Query}
  {t : FlowType} {filter : Option Expr} {keys : List (OrderKey × Bool)} {p : HeldObject → Bool}
  {item : HeldObject → Item}

/-- What a query selects of the objects it reads is what its filter is true of in its
type. -/
theorem selected_matching (hs : Sound w s)
    (h : Answerable s m w summary q t filter keys p item) :
    selected w s q filter p = matching m w s q filter := by
  unfold selected matching StoredObjects.narrowed
  rw [List.filter_filter]
  refine List.filter_congr fun o ho => ?_
  cases hisA : w.lib.isA o.type q.type with
  | false => simp
  | true =>
      cases hnarrowed : (filterNarrows w.lib q.type filter).selects o.toObject with
      | true =>
          have hread : o ∈ s.narrowed w.lib q.type (filterNarrows w.lib q.type filter) :=
            List.mem_filter.mpr ⟨ho, by rw [hisA, hnarrowed]; rfl⟩
          rw [h.judges o hread]
          simp
      | false =>
          cases hselects : selects m w filter o with
          | error e => simp
          | ok b =>
              cases b with
              | false => simp
              | true =>
                  rw [filterNarrows_sound hs ho hisA hselects] at hnarrowed
                  cases hnarrowed

/-- **Query pages are exact.**  Read page by page to the last, a query gives each
object of its type its filter is true of once, in the query's order, whatever limits
its pages were asked with, whatever the reads before each left held, and however it
was narrowed: none is given twice and none is left out. -/
theorem query_pages_exact {wireBytes : Value → Nat} {sha : String → List (Fin 256)}
    (hs : Sound w s) (h : Answerable s m w summary q t filter keys p item)
    {limits : Nat → Nat} (hlimits : ∀ k, 0 < limits k) {helds : Nat → Held}
    (hm : ∀ k, (helds k).Mirrors s) :
    ∃ objects : List HeldObject, objects.Perm (matching m w s q filter) ∧
      objects.Pairwise (fun a b => inOrderOf s w.lib keys a b = .lt) ∧
      ∃ fuel, followPages (fun k cursor => answered
        (page m w s summary wireBytes sha q cursor (limits k) (helds k)).1) fuel 0 none =
          some (objects.map item) := by
  obtain ⟨objects, hperm, hordered, hpages⟩ := @pages_read_to_end s m w summary wireBytes sha q t
    filter keys p item h limits hlimits helds hm
  rw [selected_matching hs h] at hperm
  exact ⟨objects, hperm, hordered, hpages⟩

/-! Three items, of which the first two are listed, asked for by rank. -/

/-- An item and its rank. -/
def anItem (id state : String) (rank order : Int) : HeldObject where
  id
  type := "Item"
  state
  attrs := [("rank", .int rank)]
  order

/-- The items stored. -/
def threeItems : StoredObjects where
  rows := [anItem "i1" "LISTED" 7 1, anItem "i2" "LISTED" 3 2, anItem "i3" "SOLD" 5 3]
  ascending := by unfold Ascending; decide
  ids := by decide
  placed := by decide
  fits := by decide

/-- The type of the items, listed until sold. -/
def itemType : FlowType where
  name := "Item"
  attributes := [("rank", { declared := .scalar (.named "int") })]
  states := [("LISTED", {}), ("SOLD", {})]

/-- The items as a read finds them. -/
def itemsWorld : World where
  lib := { types := [("Item", itemType)] }
  objects := threeItems.rows.map fun o => (o.id, o.toObject)

/-- The items listed, by rank. -/
def listed : Query where
  type := "Item"
  filter := some (.ok (.bin .eq (.name "state") (.name "LISTED")))
  order := ["rank"]
  fields := some ["rank"]

theorem itemsWorld_type {n : String} {t : FlowType} (h : itemsWorld.lib.type? n = some t) :
    n = "Item" ∧ t = itemType := by
  have := Table.mem_of_get? h
  simpa [itemsWorld] using this

theorem itemType_attribute {a : String} {spec : Attribute} (h : itemType.attribute? a = some spec) :
    a = "rank" ∧ spec = { declared := .scalar (.named "int") } := by
  have := Table.mem_of_get? h
  simpa [itemType] using this

theorem sound_items : Sound itemsWorld threeItems where
  keyed id x hx := by
    obtain ⟨o, -, ho⟩ := List.mem_map.mp (Table.mem_of_get? hx)
    obtain ⟨rfl, rfl⟩ := Prod.mk.inj ho
    rfl
  held o ho := by
    simp only [threeItems, List.mem_cons, List.not_mem_nil, or_false] at ho
    rcases ho with rfl | rfl | rfl <;> rfl
  typed o ho := by
    refine ⟨itemType, ?_, fun a ha => ?_⟩
    · simp only [threeItems, List.mem_cons, List.not_mem_nil, or_false] at ho
      rcases ho with rfl | rfl | rfl <;> rfl
    · obtain ⟨rank, hrank⟩ : ∃ rank, o.attrs = [("rank", Value.int rank)] := by
        simp only [threeItems, List.mem_cons, List.not_mem_nil, or_false] at ho
        rcases ho with rfl | rfl | rfl <;> exact ⟨_, rfl⟩
      rw [Object.attr, hrank, Table.get?_cons] at ha
      split at ha
      case isTrue heq => exact heq ▸ rfl
      case isFalse => cases ha
  named n t a ht ha := by
    obtain ⟨rfl, rfl⟩ := itemsWorld_type ht
    obtain ⟨spec, hspec⟩ := Option.isSome_iff_exists.mp ha
    obtain ⟨rfl, -⟩ := itemType_attribute hspec
    decide
  types n hn := by
    cases h : itemsWorld.lib.type? n with
    | none => rfl
    | some t =>
        obtain ⟨rfl, -⟩ := itemsWorld_type h
        exact absurd hn (by decide)
  fitted o ho n t a spec _ ht hspec := by
    obtain ⟨rfl, rfl⟩ := itemsWorld_type ht
    obtain ⟨rfl, rfl⟩ := itemType_attribute hspec
    simp only [threeItems, List.mem_cons, List.not_mem_nil, or_false] at ho
    rcases ho with rfl | rfl | rfl <;> rfl

theorem answerable_listed :
    Answerable threeItems noMetrics itemsWorld [] listed itemType
      (some (.bin .eq (.name "state") (.name "LISTED"))) [(.attribute "rank", false)]
      (fun o => o.state = "LISTED")
      (fun o => { id := o.id, type := o.type, fields := [("rank", o.attr "rank")] }) where
  known := rfl
  parses := rfl
  unasked h := by cases h
  ordered := by decide +kernel
  judges o ho := by
    have ho := (List.mem_filter.mp ho).1
    simp only [threeItems, List.mem_cons, List.not_mem_nil, or_false] at ho
    rcases ho with rfl | rfl | rfl <;> rfl
  gives o ho _ := by
    have ho := (List.mem_filter.mp ho).1
    simp only [threeItems, List.mem_cons, List.not_mem_nil, or_false] at ho
    rcases ho with rfl | rfl | rfl <;> rfl
  kinds key hkey := by
    rw [List.mem_singleton] at hkey
    subst hkey
    refine .sorted .number fun v hv => ?_
    obtain ⟨-, o, ho, rfl⟩ := hv
    have ho := (List.mem_filter.mp (List.mem_filter.mp ho).1).1
    simp only [threeItems, List.mem_cons, List.not_mem_nil, or_false] at ho
    rcases ho with rfl | rfl | rfl <;> exact ⟨rfl, rfl⟩

theorem query_pages_exact_listed :
    ∃ objects : List HeldObject,
      objects.Perm (matching noMetrics itemsWorld threeItems listed
        (some (.bin .eq (.name "state") (.name "LISTED")))) ∧
      objects.Pairwise
        (fun a b => inOrderOf threeItems itemsWorld.lib [(.attribute "rank", false)] a b = .lt) ∧
      ∃ fuel, followPages (fun _ cursor => answered
        (page noMetrics itemsWorld threeItems [] (fun _ => 1) (fun _ => []) listed cursor 1 {}).1)
          fuel 0 none =
        some (objects.map fun o =>
          { id := o.id, type := o.type, fields := [("rank", o.attr "rank")] }) :=
  query_pages_exact sound_items answerable_listed (fun _ => Nat.one_pos)
    fun _ => Held.mirrors_empty _

end Query

end ObjectFlow
