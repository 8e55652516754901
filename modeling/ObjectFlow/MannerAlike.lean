import ObjectFlow.Manner

/-!
# The evaluator beside an evaluation in another manner

What a manner must keep to for its evaluations to end as the evaluator's: it
treats alike what it is given alike.  One lemma says so of each construct of the
expression language, and the tree's recursion puts them together.
-/

namespace ObjectFlow

open Base Base.Noted

/-! ### What tells nothing -/

/-- A computation that only notes, and nothing that tells how it went. -/
def Silent (x : Evaluated Unit) : Prop := x.outcome = .ok () ∧ ∀ n ∈ x.notes, n.tells = false

theorem Silent.pure : Silent (Pure.pure ()) := ⟨rfl, fun n hn => by cases hn⟩

theorem Silent.note {n : Note} (h : n.tells = false) : Silent (Noted.note n) := by
  refine ⟨rfl, ?_⟩
  intro n' hn'
  rw [List.mem_singleton.mp hn']
  exact h

theorem Silent.bind {x y : Evaluated Unit} (hx : Silent x) (hy : Silent y) :
    Silent (x >>= fun _ => y) := by
  rw [bind_of_ok hx.1]
  refine ⟨hy.1, ?_⟩
  intro n hn
  rcases List.mem_append.mp hn with h | h
  · exact hx.2 n h
  · exact hy.2 n h

theorem Silent.forM {α : Type} {f : α → Evaluated Unit} (h : ∀ a, Silent (f a)) (items : List α) :
    Silent (items.forM f) := by
  induction items with
  | nil => exact Silent.pure
  | cons a rest ih => exact Silent.bind (h a) ih

namespace Evaluator

variable (ev : Evaluator)

theorem silent_noteRead (id : String) : Silent (ev.noteRead id) := by
  unfold noteRead
  split
  · split
    · exact Silent.note rfl
    · exact Silent.pure
  · exact Silent.pure

theorem silent_consult (reference : String) (v : Value) : Silent (ev.consult reference v) := by
  unfold consult
  split
  · exact Silent.note rfl
  · exact Silent.pure

theorem silent_nameId (id : String) : Silent (ev.nameId id) := by
  unfold nameId
  split
  · split
    · exact Silent.note rfl
    · exact Silent.pure
  · exact Silent.pure

theorem silent_nameObject (t : Term) : Silent (ev.nameObject t) := by
  unfold nameObject
  split
  · exact ev.silent_nameId _
  · exact Silent.pure

end Evaluator

theorem silent_record (ev : Evaluator) (scanned : Option String) (selected : List Value) :
    Silent (Aggregate.record ev scanned selected) := by
  unfold Aggregate.record
  split
  · split
    · exact Silent.pure
    · exact Silent.bind (Silent.forM ev.silent_noteRead _) (Silent.note rfl)
  · exact Silent.pure

/-- What a bare name reads, of a member of the object. -/
theorem Evaluator.freeName_member {ev : Evaluator} {m : MetricReader}
    {below : Evaluator → Expr → Evaluated Value} {n : String} {t : FlowType} {id : String}
    (htype : ev.type = some t) (hthis : ev.this = some id) (hfree : RESERVED.contains n = false)
    (hmember : t.hasMember n = true) :
    ev.freeName m below n = ev.memberOf m below id n := by
  unfold Evaluator.freeName
  split
  case h_7 => rw [htype, hthis]; simp only [hmember, if_true]
  all_goals exact absurd hfree (by decide)

/-- What a bare name reads that is no member of the object, whatever is recorded
and whatever a derived attribute is. -/
theorem Evaluator.freeName_other {ev : Evaluator} {m : MetricReader}
    {below below' : Evaluator → Expr → Evaluated Value} {n : String}
    (r : Option String) (on : Option (Option String))
    (hother : ∀ t id, ev.type = some t → ev.this = some id →
      (!RESERVED.contains n && t.hasMember n) = false) :
    ev.freeName m below n =
      ({ ev with reading := r, naming := on } : Evaluator).freeName m below' n := by
  unfold Evaluator.freeName
  split
  case h_7 hnow hthis hinputs hactor hreferrers hevent =>
    have hfree : RESERVED.contains n = false := by
      simp only [RESERVED, List.contains_cons, List.contains_nil, Bool.or_false, Bool.or_eq_false_iff,
        beq_eq_false_iff_ne]
      exact ⟨hnow, hthis, hinputs, hactor, hreferrers, hevent⟩
    cases htype : ev.type with
    | none => rfl
    | some t =>
        dsimp only
        by_cases hmember : t.hasMember n = true
        · rw [if_pos hmember, if_pos hmember]
          cases hthis : ev.this with
          | none => rfl
          | some id =>
              have hnone := hother t id htype hthis
              rw [hfree, hmember] at hnone
              cases hnone
        · rw [if_neg hmember, if_neg hmember]
  all_goals rfl

/-! ### Manners that follow the evaluator -/

/-- What a manner keeps to beside the evaluator, the two evaluating with
evaluators that differ at most in what they record. -/
structure Follows (terms : Terms Note) (E : Evaluator → Evaluator → Prop) (h : Manner) : Prop where
  silent : ∀ ns ns', (∀ n ∈ ns, n.tells = false) → (∀ n ∈ ns', n.tells = false) →
    terms.related ns ns'
  same : ∀ {ev ev'}, E ev ev' → ∃ r n, ev' = { ev with reading := r, naming := n }
  inside : ∀ {ev ev'}, E ev ev' → E ev.inside ev'.inside
  examining : ∀ {ev ev'}, E ev ev' → E ev.examining ev'.examining
  setAside : ∀ {ev ev'}, E ev ev' → E ev.setAside ev'.setAside
  forDerived : ∀ {ev ev'} t id, E ev ev' → E (ev.forDerived t id) (ev'.forDerived t id)
  unrecorded : ∀ {ev : Evaluator}, ev.reading = none → ev.naming = none → E ev ev
  derived : ∀ {x y}, Concurs terms x y →
    Concurs terms (x.keeping fun n => !n.isUnanswered && !n.isFailedArithmetic) (h.derived y)
  aside : ∀ {ev ev' env} {r r' : Meaning}, E ev ev' →
    Concurs terms (r.value ev.setAside env) (r'.value ev'.setAside env) →
      Concurs terms (r.aside ev env) (h.aside r' ev' env)
  rest : ∀ {ev ev'}, E ev ev' → ev.reading.isSome = h.rest ev' ∨
    (ev.reading.isSome = false ∧
      ∀ (r' : Meaning) env, Concurs terms (Pure.pure ()) (h.aside r' ev' env))
  before : ∀ {x y : Evaluated Value}, Concurs terms x y →
    Concurs terms (x.keeping fun _ => false) (y.keeping h.before)

section

variable {terms : Terms Note} {E : Evaluator → Evaluator → Prop} {h : Manner}

/-- Two meanings alike with evaluators that differ at most in what they
record. -/
def MeaningAlike (terms : Terms Note) (E : Evaluator → Evaluator → Prop) (r r' : Meaning) : Prop :=
  ∀ ev ev' env, E ev ev' → Concurs terms (r ev env) (r' ev' env)

theorem MeaningAlike.value {r r' : Meaning} (hr : MeaningAlike terms E r r') {ev ev' : Evaluator}
    (env : Env) (he : E ev ev') : Concurs terms (r.value ev env) (r'.value ev' env) :=
  Concurs.bind (hr _ _ env he) fun t _ => Concurs.refl t.toValue

theorem MeaningAlike.truth {r r' : Meaning} (hr : MeaningAlike terms E r r') {ev ev' : Evaluator}
    (env : Env) (he : E ev ev') : Concurs terms (r.truth ev env) (r'.truth ev' env) :=
  Concurs.bind (hr.value env he) fun v _ => Concurs.refl (ObjectFlow.truth v)

/-! ### Sets, conditions and operators -/

theorem setItems_alike {ms ms' : List Meaning} (hms : List.Forall₂ (MeaningAlike terms E) ms ms')
    {ev ev' : Evaluator} (he : E ev ev') (env : Env) (out : List Value) (unknown : Bool) :
    Concurs terms (setItems ev env ms out unknown) (setItems ev' env ms' out unknown) := by
  induction hms generalizing out unknown with
  | nil => exact Concurs.refl _
  | cons hr _ ih =>
      apply Concurs.bind (hr.value env he)
      intro v _
      split
      · exact ih out true
      · split
        · exact ih out unknown
        · exact ih _ unknown

theorem setTerm_alike {ms ms' : List Meaning} (hms : List.Forall₂ (MeaningAlike terms E) ms ms') :
    MeaningAlike terms E (setTerm ms) (setTerm ms') := by
  intro ev ev' env he
  apply Concurs.bind (setItems_alike hms he env [] false)
  intro _ _
  exact Concurs.refl _

theorem notTerm_alike {r r' : Meaning} (hr : MeaningAlike terms E r r') :
    MeaningAlike terms E (notTerm r) (notTerm r') :=
  fun _ _ env he => Concurs.bind (hr.truth env he) fun _ _ => Concurs.refl _

theorem isNullTerm_alike {r r' : Meaning} (hr : MeaningAlike terms E r r') (negated : Bool) :
    MeaningAlike terms E (isNullTerm r negated) (isNullTerm r' negated) :=
  fun _ _ env he => Concurs.bind (hr.value env he) fun _ _ => Concurs.refl _

theorem amongItems_alike {ms ms' : List Meaning}
    (hms : List.Forall₂ (MeaningAlike terms E) ms ms') {ev ev' : Evaluator} (he : E ev ev')
    (env : Env) (l : Value) (unknown : Bool) :
    Concurs terms (amongItems ev env l ms unknown) (amongItems ev' env l ms' unknown) := by
  induction hms generalizing unknown with
  | nil => exact Concurs.refl _
  | cons hr _ ih =>
      apply Concurs.bind (hr.value env he)
      intro v _
      split
      · exact ih true
      · split
        · exact Concurs.refl _
        · exact ih unknown

theorem inValue_alike {r r' : Meaning} (hr : MeaningAlike terms E r r') {ev ev' : Evaluator}
    (he : E ev ev') (env : Env) (l : Value) :
    Concurs terms (membership.inValue r ev env l) (membership.inValue r' ev' env l) :=
  Concurs.bind (hr.value env he) fun _ _ => Concurs.refl _

theorem operands_alike (l r : Expr) {lm lm' rm rm' : Meaning} (hl : MeaningAlike terms E lm lm')
    (hr : MeaningAlike terms E rm rm') {ev ev' : Evaluator} (he : E ev ev') (env : Env) :
    Concurs terms (operands l r lm rm ev env) (operands l r lm' rm' ev' env) := by
  apply Concurs.bind (hl.value env he)
  intro a _
  apply Concurs.bind (hr.value env he)
  intro b _
  exact Concurs.refl _

theorem ifTerm_alike {c c' a a' b b' : Meaning} (hc : MeaningAlike terms E c c')
    (ha : MeaningAlike terms E a a') (hb : MeaningAlike terms E b b') :
    MeaningAlike terms E (ifTerm c a b) (ifTerm c' a' b') := by
  intro ev ev' env he
  apply Concurs.bind (hc.truth env he)
  intro t _
  cases t with
  | none => exact Concurs.refl _
  | some t =>
      cases t with
      | true => exact ha _ _ env he
      | false => exact hb _ _ env he

variable (hf : Follows terms E h)

include hf

theorem Follows.alikeSilent {x y : Evaluated Unit} (hx : Silent x) (hy : Silent y) :
    Concurs terms x y :=
  .inr ⟨hx.1.trans hy.1.symm, hf.silent _ _ hx.2 hy.2⟩

/-! ### Names and members -/

section Members

variable {m : MetricReader} {below below' : Evaluator → Expr → Evaluated Value}
variable (hbelow : ∀ {ev ev'} e, E ev ev' → Concurs terms (below ev e) (below' ev' e))

include hbelow

theorem memberOf_alike {ev ev' : Evaluator} (he : E ev ev') (id name : String) :
    Concurs terms (ev.memberOf m below id name) (h.memberOf m below' ev' id name) := by
  obtain ⟨r, n, hsame⟩ := hf.same he
  unfold Evaluator.memberOf Manner.memberOf
  apply Concurs.bind (hf.alikeSilent (ev.silent_noteRead id) (ev'.silent_noteRead id))
  intro _ _
  have hworld : ev'.world = ev.world := by rw [hsame]
  rw [hworld]
  cases ev.world.get id with
  | none => exact Concurs.refl _
  | some o =>
      dsimp only
      cases ev.world.lib.type? o.type with
      | none => exact Concurs.refl _
      | some t =>
          have hbuiltin : ev'.builtin? o t name = ev.builtin? o t name := by
            rw [hsame]
            rfl
          dsimp only
          rw [hbuiltin]
          cases ev.builtin? o t name with
          | some answer => exact Concurs.refl _
          | none =>
              dsimp only
              cases t.attribute? name with
              | some a => exact Concurs.refl _
              | none =>
                  cases named? t.observations name with
                  | some kind => exact Concurs.refl _
                  | none =>
                      cases t.derived? name with
                      | none => exact Concurs.refl _
                      | some e =>
                          apply Concurs.bind (hf.derived (hbelow e (hf.forDerived t o.id he)))
                          intro v _
                          exact Concurs.refl _

theorem member_alike {ev ev' : Evaluator} (he : E ev ev') (base : Term) (name : String) :
    Concurs terms (ev.member m below base name) (h.member m below' ev' base name) := by
  unfold Manner.member
  split
  · exact memberOf_alike hf hbelow he _ name
  · rename_i hobject
    obtain ⟨r, n, hsame⟩ := hf.same he
    rw [hsame]
    apply Concurs.of_eq
    unfold Evaluator.member
    split <;> first | rfl | (exact absurd rfl (hobject _))

theorem freeName_alike {ev ev' : Evaluator} (he : E ev ev') (n : String) :
    Concurs terms (ev.freeName m below n) (h.freeName m below' ev' n) := by
  obtain ⟨r, on, hsame⟩ := hf.same he
  have htype : ev'.type = ev.type := by rw [hsame]
  have hthis : ev'.this = ev.this := by rw [hsame]
  unfold Manner.freeName
  rw [htype, hthis]
  split
  · rename_i t id ht hid
    by_cases hmember : (!RESERVED.contains n && t.hasMember n) = true
    · rw [if_pos hmember]
      simp only [Bool.and_eq_true, Bool.not_eq_true'] at hmember
      rw [Evaluator.freeName_member ht hid hmember.1 hmember.2]
      exact memberOf_alike hf hbelow he id n
    · rw [if_neg hmember, hsame]
      apply Concurs.of_eq
      apply Evaluator.freeName_other
      intro t' id' ht' hid'
      rw [ht] at ht'
      cases ht'
      exact Bool.not_eq_true _ ▸ hmember
  · rename_i hnone
    rw [hsame]
    apply Concurs.of_eq
    apply Evaluator.freeName_other
    intro t id ht hid
    exact absurd hid (hnone t id ht)

theorem name_alike {ev ev' : Evaluator} (he : E ev ev') (n : String) (env : Env) :
    Concurs terms (ev.name m below n env) (h.name m below' ev' n env) := by
  unfold Evaluator.name Manner.name
  cases Table.get? env n with
  | some v => exact Concurs.refl _
  | none => exact freeName_alike hf hbelow he n

theorem nameTerm_alike (n : String) :
    MeaningAlike terms E (fun ev env => ev.nameTerm m below n env)
      (fun ev env => h.nameTerm m below' ev n env) := by
  intro ev ev' env he
  apply Concurs.bind (name_alike hf hbelow he n env)
  intro t _
  dsimp only
  cases (Table.get? env n).isNone with
  | false => exact Concurs.refl _
  | true =>
      apply Concurs.bind (hf.alikeSilent (ev.silent_nameObject t) (ev'.silent_nameObject t))
      intro _ _
      exact Concurs.refl _

theorem pathTerm_alike (base : Expr) {r r' : Meaning} (hr : MeaningAlike terms E r r')
    (member : String) : MeaningAlike terms E (pathTerm m below base r member)
      (h.pathTerm m below' base r' member) := by
  intro ev ev' env he
  have hcreated : ev'.readsCreated base member env = ev.readsCreated base member env := by
    obtain ⟨r, on, hsame⟩ := hf.same he
    rw [hsame]
    rfl
  have hnamed : ∀ t : Term, Concurs terms (ev.nameObject t >>= fun _ => Pure.pure t)
      (ev'.nameObject t >>= fun _ => Pure.pure t) := by
    intro t
    apply Concurs.bind (hf.alikeSilent (ev.silent_nameObject t) (ev'.silent_nameObject t))
    intro _ _
    exact Concurs.refl _
  unfold pathTerm Manner.pathTerm
  rw [hcreated]
  cases ev.readsCreated base member env with
  | true =>
      apply Concurs.bind (name_alike hf hbelow he member env)
      intro t _
      exact hnamed t
  | false =>
      apply Concurs.bind (hr _ _ env he)
      intro b _
      apply Concurs.bind (member_alike hf hbelow he b member)
      intro t _
      exact hnamed t

end Members

theorem outOfRange_same {α : Type} {ev ev' : Evaluator} (he : E ev ev') :
    (ev'.outOfRange : Evaluated α) = ev.outOfRange := by
  obtain ⟨r, on, hsame⟩ := hf.same he
  rw [hsame]
  rfl

theorem combined_same {ev ev' : Evaluator} (he : E ev ev') (op : BinOp) (a b : Value) :
    ev'.combined op a b = ev.combined op a b := by
  obtain ⟨r, on, hsame⟩ := hf.same he
  rw [hsame]
  rfl

theorem negTerm_alike {r r' : Meaning} (hr : MeaningAlike terms E r r') :
    MeaningAlike terms E (negTerm r) (negTerm r') := by
  intro ev ev' env he
  apply Concurs.bind (hr.value env he)
  intro v _
  rw [outOfRange_same hf he]
  exact Concurs.refl _

theorem membership_alike {l l' r r' : Meaning} (hl : MeaningAlike terms E l l') (right : Expr)
    {ms ms' : Option (List Meaning)}
    (hms : Option.Rel (List.Forall₂ (MeaningAlike terms E)) ms ms')
    (hr : MeaningAlike terms E r r') :
    MeaningAlike terms E (membership l right ms r) (membership l' right ms' r') := by
  intro ev ev' env he
  have hworld : ev'.world = ev.world := by
    obtain ⟨r, on, hsame⟩ := hf.same he
    rw [hsame]
  have hin : ∀ v, Concurs terms (membership.inValue r ev env v) (membership.inValue r' ev' env v) :=
    fun v => inValue_alike hr he env v
  apply Concurs.bind (hl.value env he)
  intro v _
  rw [hworld]
  split
  · exact Concurs.refl _
  · cases hms with
    | none =>
        cases right with
        | name n =>
            dsimp only
            split
            · exact Concurs.refl _
            · exact hin v
        | _ => exact hin v
    | some hitems =>
        cases right with
        | name n =>
            dsimp only
            split
            · exact Concurs.refl _
            · exact hin v
        | _ =>
            apply Concurs.bind (amongItems_alike hitems he env v false)
            intro _ _
            exact Concurs.refl _

theorem logic_alike (op : BinOp) {l l' r r' : Meaning} (hl : MeaningAlike terms E l l')
    (hr : MeaningAlike terms E r r') :
    MeaningAlike terms E (logic op l r) (h.logic op l' r') := by
  intro ev ev' env he
  apply Concurs.bind (hl.truth env he)
  intro a _
  dsimp only
  by_cases hdecides : (a.map fun b => if op = .implies then !b else b) = some (decide (op ≠ .and))
  · rw [if_pos hdecides, if_pos hdecides]
    apply Concurs.bind (hf.aside he (hr.value env (hf.setAside he)))
    intro _ _
    exact Concurs.refl _
  · rw [if_neg hdecides, if_neg hdecides]
    apply Concurs.bind (hr.truth env he)
    intro b _
    exact Concurs.refl _

theorem binaryTerm_alike (op : BinOp) (l r : Expr) {lm lm' rm rm' : Meaning}
    (hl : MeaningAlike terms E lm lm') (hr : MeaningAlike terms E rm rm') :
    MeaningAlike terms E (binaryTerm op l r lm rm) (h.binaryTerm op l r lm' rm') := by
  intro ev ev' env he
  unfold binaryTerm Manner.binaryTerm
  split
  · exact logic_alike hf op hl hr _ _ env he
  · apply Concurs.bind (operands_alike l r hl hr he env)
    intro ab _
    dsimp only
    rw [combined_same hf he]
    exact Concurs.refl _

theorem changedTerm_alike (names : List String) {r r' : Meaning} (hr : MeaningAlike terms E r r') :
    MeaningAlike terms E (changedTerm names r) (changedTerm names r') := by
  intro ev ev' env he
  apply Concurs.bind (hr.value env he)
  intro since _
  obtain ⟨rule, on, hsame⟩ := hf.same he
  rw [hsame]
  exact Concurs.refl _

/-! ### Aggregates -/

/-- Two sides of equations of one text, their meanings alike. -/
structure SideAlike (terms : Terms Note) (E : Evaluator → Evaluator → Prop) (s s' : EqSide) :
    Prop where
  side : s'.side = s.side
  other : s'.other = s.other
  meaning : MeaningAlike terms E s.meaning s'.meaning

omit hf in
theorem SideAlike.column {s s' : EqSide} (hs : SideAlike terms E s s') (t : FlowType)
    (var : String) : s'.column? t var = s.column? t var := by
  unfold EqSide.column?
  rw [hs.side, hs.other]

theorem narrowingColumns_alike {sides sides' : List EqSide}
    (hsides : List.Forall₂ (SideAlike terms E) sides sides') {ev ev' : Evaluator} (he : E ev ev')
    (t : FlowType) (var : String) (env : Env) :
    Concurs terms (narrowingColumns ev t var env sides) (narrowingColumns ev' t var env sides') := by
  induction hsides with
  | nil => exact Concurs.refl _
  | @cons s s' rest rest' hs _ ih =>
      unfold narrowingColumns
      rw [hs.column t var]
      cases s.column? t var with
      | none => exact ih
      | some a =>
          apply Concurs.bind (Concurs.attempt (hs.meaning.value env (hf.examining he)))
          intro v _
          apply Concurs.bind ih
          intro later _
          exact Concurs.refl _

theorem requiredStates_same {ev ev' : Evaluator} (he : E ev ev') (var : String) (env : Env)
    (filter : Expr) : requiredStates ev' var env filter = requiredStates ev var env filter := by
  have hnamed : ∀ l r, requiredStates.named ev' var env l r = requiredStates.named ev var env l r := by
    obtain ⟨r, on, hsame⟩ := hf.same he
    rw [hsame]
    intro l r
    rfl
  fun_induction requiredStates ev var env filter with
  | case1 l r a b hr hl ihl ihr => rw [requiredStates, ihl, ihr, hl, hr]
  | case2 l r a hr hl ihl ihr => rw [requiredStates, ihl, ihr, hl, hr]
  | case3 l r hl ihl ihr => rw [requiredStates, ihl, ihr, hl]
  | case4 l r => rw [requiredStates, hnamed, hnamed]
  | case5 e hand heq => rw [requiredStates] <;> assumption

theorem narrowing_alike {sides sides' : List EqSide}
    (hsides : List.Forall₂ (SideAlike terms E) sides sides') {ev ev' : Evaluator} (he : E ev ev')
    (scanned var : String) (filter : Expr) (env : Env) :
    Concurs terms (narrowing ev scanned var filter sides env)
      (narrowing ev' scanned var filter sides' env) := by
  have hworld : ev'.world = ev.world := by
    obtain ⟨r, on, hsame⟩ := hf.same he
    rw [hsame]
  unfold narrowing
  rw [hworld, requiredStates_same hf he]
  cases ev.world.lib.type? scanned with
  | none => exact Concurs.refl _
  | some t =>
      apply Concurs.bind (narrowingColumns_alike hf hsides he t var env)
      intro columns _
      exact Concurs.refl _

/-- Two aggregates of one kind over one variable, their parts alike. -/
structure AggregateAlike (terms : Terms Note) (E : Evaluator → Evaluator → Prop)
    (a a' : Aggregate) : Prop where
  kind : a'.kind = a.kind
  distinct : a'.distinct = a.distinct
  var : a'.var = a.var
  filter : Option.Rel (MeaningAlike terms E) a.filter a'.filter
  body : Option.Rel (MeaningAlike terms E) a.body a'.body

omit hf in
theorem AggregateAlike.bound {a a' : Aggregate} (ha : AggregateAlike terms E a a') (env : Env)
    (item : Value) : a'.bound env item = a.bound env item := by
  unfold Aggregate.bound
  rw [ha.var]

theorem choose_alike {a a' : Aggregate} (ha : AggregateAlike terms E a a') {r r' : Meaning}
    (hr : MeaningAlike terms E r r') {ev ev' : Evaluator} (he : E ev ev') (env : Env)
    (items : List Value) : Concurs terms (a.choose ev env r items) (a'.choose ev' env r' items) := by
  have hmode : ev'.filterMode = ev.filterMode := by
    obtain ⟨r, on, hsame⟩ := hf.same he
    rw [hsame]
  induction items with
  | nil => exact Concurs.refl _
  | cons item rest ih =>
      unfold Aggregate.choose
      rw [ha.bound]
      apply Concurs.bind (hr.truth _ he)
      intro keep _
      apply Concurs.bind ih
      intro chosen _
      rw [hmode]
      exact Concurs.refl _

theorem select_alike {a a' : Aggregate} (ha : AggregateAlike terms E a a') {ev ev' : Evaluator}
    (he : E ev ev') (env : Env) (items : List Value) :
    Concurs terms (a.select env ev items) (a'.select env ev' items) := by
  unfold Aggregate.select
  have hfilter := ha.filter
  generalize a.filter = filter, a'.filter = filter' at hfilter ⊢
  cases hfilter with
  | none => exact Concurs.refl _
  | some hr => exact choose_alike hf ha hr he env items

theorem meet_alike {a a' : Aggregate} (ha : AggregateAlike terms E a a') {ev ev' : Evaluator}
    (he : E ev ev') (env : Env) (selected : List Value) :
    Concurs terms (a.meet ev env selected) (a'.meet ev' env selected) := by
  have hselects : a'.bodySelects = a.bodySelects := by
    unfold Aggregate.bodySelects
    rw [ha.kind, ha.distinct]
  unfold Aggregate.meet
  rw [hselects]
  have hbody := ha.body
  generalize a.body = body, a'.body = body' at hbody ⊢
  cases hbody with
  | none => exact Concurs.refl _
  | some hr =>
      dsimp only
      split
      · exact choose_alike hf ha hr he env selected
      · exact Concurs.refl _

omit hf in
/-- The rest of an `all` that has failed changes nothing where what is set aside
is left alone. -/
theorem allMeet_rest {ev' : Evaluator}
    (hnull : ∀ (r' : Meaning) env, Concurs terms (Pure.pure ()) (h.aside r' ev' env)) (a' : Aggregate)
    (r' : Meaning) (env : Env) (items : List Value) (unknown : Bool) :
    Concurs terms (Pure.pure (some false)) (h.allMeet a' ev' env r' items true unknown) := by
  induction items with
  | nil => exact Concurs.refl _
  | cons item rest ih =>
      have hnext := Concurs.bind (hnull r' (a'.bound env item)) fun _ _ => ih
      rw [Noted.pure_bind] at hnext
      exact hnext

theorem allMeet_alike {a a' : Aggregate} (ha : AggregateAlike terms E a a') {r r' : Meaning}
    (hr : MeaningAlike terms E r r') {ev ev' : Evaluator} (he : E ev ev') (env : Env)
    (items : List Value) (failed unknown : Bool) :
    Concurs terms (a.allMeet ev env r items failed unknown)
      (h.allMeet a' ev' env r' items failed unknown) := by
  induction items generalizing failed unknown with
  | nil =>
      cases failed <;> exact Concurs.refl _
  | cons item rest ih =>
      cases failed with
      | true =>
          unfold Aggregate.allMeet Manner.allMeet
          rw [ha.bound]
          apply Concurs.bind (hf.aside he (hr.value _ (hf.setAside he)))
          intro _ _
          exact ih true unknown
      | false =>
          unfold Aggregate.allMeet Manner.allMeet
          rw [ha.bound]
          apply Concurs.bind (hr.truth _ he)
          intro t _
          cases t with
          | none => exact ih false true
          | some t =>
              cases t with
              | true => exact ih false unknown
              | false =>
                  dsimp only
                  rcases hf.rest he with hsame | ⟨hnone, hnull⟩
                  · rw [← hsame]
                    cases ev.reading with
                    | none => exact Concurs.refl _
                    | some rule => exact ih true unknown
                  · have hread : ev.reading.isNone = true := by
                      rw [← Option.not_isSome, hnone]
                      rfl
                    rw [if_pos hread]
                    split
                    · exact Concurs.refl _
                    · exact allMeet_rest hnull a' r' env rest unknown

omit hf in
theorem values_alike {a a' : Aggregate} (ha : AggregateAlike terms E a a') {r r' : Meaning}
    (hr : MeaningAlike terms E r r') {ev ev' : Evaluator} (he : E ev ev') (env : Env)
    (items : List Value) : Concurs terms (a.values ev env r items) (a'.values ev' env r' items) := by
  induction items with
  | nil => exact Concurs.refl _
  | cons item rest ih =>
      unfold Aggregate.values
      rw [ha.bound]
      apply Concurs.bind (hr.value _ he)
      intro v _
      split
      · exact Concurs.refl _
      · apply Concurs.bind ih
        intro _ _
        exact Concurs.refl _

omit hf in
theorem distinctValues_alike {a a' : Aggregate} (ha : AggregateAlike terms E a a')
    {body body' : Option Meaning} (hbody : Option.Rel (MeaningAlike terms E) body body')
    {ev ev' : Evaluator} (he : E ev ev') (env : Env) (items seen : List Value) :
    Concurs terms (a.distinctValues ev env body items seen)
      (a'.distinctValues ev' env body' items seen) := by
  induction items generalizing seen with
  | nil => exact Concurs.refl _
  | cons item rest ih =>
      unfold Aggregate.distinctValues
      cases hbody with
      | none => exact ih _
      | some hr =>
          dsimp only
          rw [ha.bound]
          apply Concurs.bind (hr.value _ he)
          intro v _
          exact ih _

theorem total_same {ev ev' : Evaluator} (he : E ev ev') (acc : Value) (items : List Value) :
    Aggregate.total ev' acc items = Aggregate.total ev acc items := by
  induction items generalizing acc with
  | nil => rfl
  | cons v rest ih =>
      unfold Aggregate.total
      rw [combined_same hf he]
      congr 1
      funext acc
      exact ih acc

theorem fold_alike {a a' : Aggregate} (ha : AggregateAlike terms E a a') {ev ev' : Evaluator}
    (he : E ev ev') (env : Env) (selected : List Value) (undecided : Bool) :
    Concurs terms (a.fold ev env selected undecided) (h.fold a' ev' env selected undecided) := by
  obtain ⟨kind, distinct, var, filter, body⟩ := a
  obtain ⟨kind', distinct', var', filter', body'⟩ := a'
  obtain rfl : kind' = kind := ha.kind
  obtain rfl : distinct' = distinct := ha.distinct
  have hbody : Option.Rel (MeaningAlike terms E) body body' := ha.body
  unfold Manner.fold Aggregate.fold
  cases kind' with
  | all =>
      cases hbody with
      | none => exact Concurs.refl _
      | some hr =>
          apply Concurs.bind (allMeet_alike hf ha hr he env selected false undecided)
          intro _ _
          exact Concurs.refl _
  | count =>
      dsimp only
      split
      · exact Concurs.refl _
      · split
        · apply Concurs.bind (distinctValues_alike ha hbody he env selected [])
          intro _ _
          exact Concurs.refl _
        · exact Concurs.refl _
  | any => exact Concurs.refl _
  | none => exact Concurs.refl _
  | avg => exact Concurs.refl _
  | median => exact Concurs.refl _
  | percentile => exact Concurs.refl _
  | sum | min | max =>
      dsimp only
      split
      · exact Concurs.refl _
      · cases hbody with
        | none => exact Concurs.refl _
        | some hr =>
            apply Concurs.bind (values_alike ha hr he env selected)
            intro vs _
            cases vs with
            | none => exact Concurs.refl _
            | some vs =>
                cases vs with
                | nil => exact Concurs.refl _
                | cons v rest =>
                    dsimp only
                    rw [total_same hf he]
                    exact Concurs.refl _

theorem conclude_alike {a a' : Aggregate} (ha : AggregateAlike terms E a a') {ev ev' : Evaluator}
    (he : E ev ev') (env : Env) (scanned : Option String) (selected : List Value)
    (undecided : Bool) :
    Concurs terms (a.conclude ev env scanned selected undecided)
      (h.conclude a' ev' env scanned selected undecided) := by
  apply Concurs.bind (hf.alikeSilent (silent_record ev scanned selected)
    (silent_record ev' scanned selected))
  intro _ _
  apply Concurs.bind (meet_alike hf ha he env selected)
  intro met _
  apply Concurs.bind (fold_alike hf ha he env met.1 (undecided || met.2))
  intro v _
  exact Concurs.refl _

theorem choosing_alike {a a' : Aggregate} (ha : AggregateAlike terms E a a') {ev ev' : Evaluator}
    (he : E ev ev') (env : Env) (scanned : Option String) (items : List Value) :
    Concurs terms (a.choosing ev env scanned items) (h.choosing a' ev' env scanned items) := by
  unfold Aggregate.choosing Manner.choosing
  have hexamined : E (if scanned.isSome then ev.inside.examining else ev.inside)
      (if scanned.isSome then ev'.inside.examining else ev'.inside) := by
    cases scanned.isSome with
    | false => exact hf.inside he
    | true => exact hf.examining (hf.inside he)
  apply Concurs.bind (select_alike hf ha hexamined env items)
  intro chosen _
  exact conclude_alike hf ha (hf.inside he) env scanned chosen.1 chosen.2

theorem rangeOf_alike {ev ev' : Evaluator} (he : E ev ev') (collection : Term) :
    Concurs terms (rangeOf ev collection) (rangeOf ev' collection) := by
  have hworld : ev'.world = ev.world := by
    obtain ⟨r, on, hsame⟩ := hf.same he
    rw [hsame]
  unfold rangeOf
  rw [hworld]
  split
  · exact Concurs.refl _
  · apply Concurs.bind (hf.alikeSilent (Silent.forM ev.silent_noteRead _)
      (Silent.forM ev'.silent_noteRead _))
    intro _ _
    exact Concurs.refl _
  · exact Concurs.refl _
  · exact Concurs.refl _

theorem scanItems_same {ev ev' : Evaluator} (he : E ev ev') (objects : List Object) :
    ev'.scanItems objects = ev.scanItems objects := by
  obtain ⟨r, on, hsame⟩ := hf.same he
  rw [hsame]
  rfl

theorem aggregateChoosing_alike {a a' : Aggregate} (ha : AggregateAlike terms E a a')
    {r r' : Meaning} (hr : MeaningAlike terms E r r') (filter : Option Expr)
    {sides sides' : List EqSide} (hsides : List.Forall₂ (SideAlike terms E) sides sides')
    {ev ev' : Evaluator} (he : E ev ev') (env : Env) :
    Concurs terms (aggregateChoosing a r filter sides ev env)
      (h.aggregateChoosing a' r' filter sides' ev' env) := by
  have hworld : ev'.world = ev.world := by
    obtain ⟨r, on, hsame⟩ := hf.same he
    rw [hsame]
  apply Concurs.bind (hr _ _ env he)
  intro collection _
  apply Concurs.bind (rangeOf_alike hf he collection)
  intro range _
  cases range with
  | absent => exact Concurs.refl _
  | items items => exact choosing_alike hf ha he env none items
  | scan t =>
      have hscan : ∀ narrowed : Option Narrowing,
          Concurs terms (a.choosing ev env (some t) (ev.scanItems (scanObjects ev.world t narrowed)))
            (h.choosing a' ev' env (some t) (ev'.scanItems (scanObjects ev'.world t narrowed))) := by
        intro narrowed
        rw [hworld, scanItems_same hf he]
        exact choosing_alike hf ha he env (some t) _
      cases filter with
      | none => exact hscan none
      | some f =>
          dsimp only
          rw [ha.var]
          apply Concurs.bind (narrowing_alike hf hsides (hf.inside he) t a.var f env)
          intro narrowed _
          exact hscan narrowed

theorem aggregateTerm_alike (kind : AggKind) (distinct : Bool) (var : Option String)
    {collection collection' : Option Meaning}
    (hcollection : Option.Rel (MeaningAlike terms E) collection collection')
    (filter : Option Expr) {f f' body body' : Option Meaning}
    (hfilter : Option.Rel (MeaningAlike terms E) f f')
    {sides sides' : List EqSide} (hsides : List.Forall₂ (SideAlike terms E) sides sides')
    (hbody : Option.Rel (MeaningAlike terms E) body body') :
    MeaningAlike terms E (aggregateTerm kind distinct var collection filter f sides body)
      (h.aggregateTerm kind distinct var collection' filter f' sides' body') := by
  intro ev ev' env he
  unfold aggregateTerm Manner.aggregateTerm
  cases var with
  | none => exact Concurs.refl _
  | some var =>
      cases hcollection with
      | none => exact Concurs.refl _
      | some hr =>
          have ha : AggregateAlike terms E ⟨kind, distinct, var, f, body⟩
              ⟨kind, distinct, var, f', body'⟩ := ⟨rfl, rfl, rfl, hfilter, hbody⟩
          apply Concurs.bind (aggregateChoosing_alike hf ha hr filter hsides he env)
          intro chosen _
          apply Concurs.bind (hf.alikeSilent (Silent.forM ev.silent_nameId _)
            (Silent.forM ev'.silent_nameId _))
          intro _ _
          exact Concurs.refl _

/-! ### Calls and metrics -/

theorem flowFunction_alike {ev ev' : Evaluator} (he : E ev ev') (id function arg : String) :
    Concurs terms (flowFunction ev id function arg) (flowFunction ev' id function arg) := by
  have hworld : ev'.world = ev.world := by
    obtain ⟨r, on, hsame⟩ := hf.same he
    rw [hsame]
  unfold flowFunction
  rw [hworld]
  apply Concurs.bind (hf.alikeSilent (ev.silent_noteRead id) (ev'.silent_noteRead id))
  intro _ _
  exact Concurs.refl _

/-- Two calls' arguments, of one text and with meanings alike. -/
def ArgAlike (terms : Terms Note) (E : Evaluator → Evaluator → Prop) (a a' : Expr × Meaning) : Prop :=
  a'.1 = a.1 ∧ MeaningAlike terms E a.2 a'.2

theorem askArguments_alike {args args' : List (Expr × Meaning)}
    (hargs : List.Forall₂ (ArgAlike terms E) args args') {ev ev' : Evaluator} (he : E ev ev')
    (env : Env) : Concurs terms (askArguments ev env args) (askArguments ev' env args') := by
  have hworld : ev'.world = ev.world := by
    obtain ⟨r, on, hsame⟩ := hf.same he
    rw [hsame]
  induction hargs with
  | nil => exact Concurs.refl _
  | @cons a a' rest rest' ha _ ih =>
      obtain ⟨e, r⟩ := a
      obtain ⟨e', r'⟩ := a'
      obtain ⟨he', hr⟩ := ha
      obtain rfl : e' = e := he'
      unfold askArguments
      apply Concurs.bind (hr.value env he)
      intro v _
      split
      · exact Concurs.refl _
      · apply Concurs.bind ih
        intro _ _
        unfold writtenFor
        rw [hworld]
        exact Concurs.refl _

theorem ask_alike (evaluator function : String) {args args' : List (Expr × Meaning)}
    (hargs : List.Forall₂ (ArgAlike terms E) args args') {ev ev' : Evaluator} (he : E ev ev')
    (env : Env) :
    Concurs terms (ask evaluator function args ev env) (ask evaluator function args' ev' env) := by
  have hanswers : ev'.answers = ev.answers := by
    obtain ⟨r, on, hsame⟩ := hf.same he
    rw [hsame]
  have haside : ev'.aside = ev.aside := by
    obtain ⟨r, on, hsame⟩ := hf.same he
    rw [hsame]
  have hconsult : ∀ {α : Type} reference v (x : Evaluated α),
      Concurs terms (ev.consult reference v >>= fun _ => x)
        (ev'.consult reference v >>= fun _ => x) := by
    intro α reference v x
    apply Concurs.bind (hf.alikeSilent (ev.silent_consult reference v)
      (ev'.silent_consult reference v))
    intro _ _
    exact Concurs.refl _
  apply Concurs.bind (askArguments_alike hf hargs he env)
  intro arguments _
  cases arguments with
  | none => exact Concurs.refl _
  | some arguments =>
      dsimp only
      rw [hanswers, haside]
      cases ev.answers with
      | none => exact Concurs.refl _
      | some answers =>
          dsimp only
          split
          · exact hconsult _ _ _
          · exact hconsult _ _ _
          · apply Concurs.after
            intro _ _
            exact hconsult _ _ _
          · exact Concurs.refl _

theorem callTerm_alike (function : Expr) {base base' : Option Meaning}
    (hbase : Option.Rel (MeaningAlike terms E) base base') {args args' : List (Expr × Meaning)}
    (hargs : List.Forall₂ (ArgAlike terms E) args args') :
    MeaningAlike terms E (callTerm function base args) (callTerm function base' args') := by
  intro ev ev' env he
  obtain ⟨htype, hthis⟩ : ev'.type = ev.type ∧ ev'.this = ev.this := by
    obtain ⟨r, on, hsame⟩ := hf.same he
    rw [hsame]
    exact ⟨rfl, rfl⟩
  have hflow : ∀ id function arg,
      Concurs terms (flowFunction ev id function arg >>= fun v => Pure.pure (Term.value v))
        (flowFunction ev' id function arg >>= fun v => Pure.pure (Term.value v)) := by
    intro id function arg
    apply Concurs.bind (flowFunction_alike hf he id function arg)
    intro _ _
    exact Concurs.refl _
  unfold callTerm
  rw [htype, hthis]
  cases function with
  | path b member =>
      cases hbase with
      | none => exact Concurs.refl _
      | some hr =>
          dsimp only
          split
          · apply Concurs.bind (ask_alike hf _ member hargs he env)
            intro _ _
            exact Concurs.refl _
          · rcases hargs with _ | ⟨⟨hfirst, harg⟩, _ | _⟩
            · exact Concurs.refl _
            · rename_i a a'
              obtain ⟨e, r⟩ := a
              obtain ⟨e', r'⟩ := a'
              obtain rfl : e' = e := hfirst
              cases e' with
              | name arg =>
                  dsimp only
                  split
                  · apply Concurs.bind (hr.value env he)
                    intro v _
                    cases v with
                    | object id => exact hflow id member arg
                    | _ => exact Concurs.refl _
                  · split
                    · apply Concurs.bind (hr.value env he)
                      intro v _
                      exact Concurs.refl _
                    · exact Concurs.refl _
              | _ => exact Concurs.refl _
            · rename_i a a' _ _ _ _ _ _
              obtain ⟨e, r⟩ := a
              obtain ⟨e', r'⟩ := a'
              obtain rfl : e' = e := hfirst
              cases e' <;> exact Concurs.refl _
  | name n =>
      rcases hargs with _ | ⟨⟨hfirst, harg⟩, _ | _⟩
      · exact Concurs.refl _
      · rename_i a a'
        obtain ⟨e, r⟩ := a
        obtain ⟨e', r'⟩ := a'
        obtain rfl : e' = e := hfirst
        dsimp only
        split
        · apply Concurs.bind (harg.value env he)
          intro v _
          exact Concurs.refl _
        · cases e' with
          | name arg =>
              dsimp only
              split
              · cases ev.this with
                | none => exact Concurs.refl _
                | some id => exact hflow id n arg
              · exact Concurs.refl _
          | _ => exact Concurs.refl _
      · exact Concurs.refl _
  | _ => exact Concurs.refl _

/-- Two metric's binds, of one dimension and one text and with meanings
alike. -/
def BindAlike (terms : Terms Note) (E : Evaluator → Evaluator → Prop)
    (b b' : String × Expr × Meaning) : Prop :=
  b'.1 = b.1 ∧ b'.2.1 = b.2.1 ∧ MeaningAlike terms E b.2.2 b'.2.2

theorem metricBinds_alike {binds binds' : List (String × Expr × Meaning)}
    (hbinds : List.Forall₂ (BindAlike terms E) binds binds') {ev ev' : Evaluator} (he : E ev ev')
    (env : Env) (bound : Table String Value) :
    Concurs terms (metricBinds ev env binds bound) (h.metricBinds ev' env binds' bound) := by
  obtain ⟨hcommitted, htype, hthis, hinputs, hactor, hanswers⟩ :
      ev'.committed = ev.committed ∧ ev'.type = ev.type ∧ ev'.this = ev.this ∧
        ev'.inputs = ev.inputs ∧ ev'.actor = ev.actor ∧ ev'.answers = ev.answers := by
    obtain ⟨r, on, hsame⟩ := hf.same he
    rw [hsame]
    exact ⟨rfl, rfl, rfl, rfl, rfl, rfl⟩
  induction hbinds generalizing bound with
  | nil => exact Concurs.refl _
  | @cons b b' rest rest' hb _ ih =>
      obtain ⟨d, e, r⟩ := b
      obtain ⟨d', e', r'⟩ := b'
      obtain ⟨hd, _, hr⟩ := hb
      obtain rfl : d' = d := hd
      apply Concurs.bind (hr.value env he)
      intro v _
      have hnext : Concurs terms
          (if v.isAbsent then Pure.pure none
            else metricBinds ev env rest (Table.set bound d' v))
          (if v.isAbsent then Pure.pure none
            else h.metricBinds ev' env rest' (Table.set bound d' v)) := by
        split
        · exact Concurs.refl _
        · exact ih _
      dsimp only
      rw [hcommitted, htype, hthis, hinputs, hactor, hanswers]
      cases ev.committed with
      | none => exact hnext
      | some committed =>
          dsimp only
          cases (ev.this.any fun id => (committed.get id).isNone) with
          | true => exact Concurs.refl _
          | false =>
              apply Concurs.bind (hf.before (hr.value env (hf.unrecorded rfl rfl)))
              intro was _
              cases (!was.same v) with
              | true => exact Concurs.refl _
              | false => exact hnext

theorem metricTerm_alike (m : MetricReader) (name : Expr)
    {binds binds' : List (String × Expr × Meaning)}
    (hbinds : List.Forall₂ (BindAlike terms E) binds binds') {window window' : Option Meaning}
    (hwindow : Option.Rel (MeaningAlike terms E) window window') :
    MeaningAlike terms E (metricTerm m name binds window) (h.metricTerm m name binds' window') := by
  intro ev ev' env he
  obtain ⟨hmetrics, hcommitted, hworld, hanswers, htype⟩ :
      ev'.metrics = ev.metrics ∧ ev'.committed = ev.committed ∧ ev'.world = ev.world ∧
        ev'.answers = ev.answers ∧ ev'.type = ev.type := by
    obtain ⟨r, on, hsame⟩ := hf.same he
    rw [hsame]
    exact ⟨rfl, rfl, rfl, rfl, rfl⟩
  have hpersonal : ∀ (d : String) (lib : Library),
      (binds'.any fun b => decide (b.1 = d) && readsPersonal lib b.2.1) =
        binds.any fun b => decide (b.1 = d) && readsPersonal lib b.2.1 := by
    intro d lib
    induction hbinds with
    | nil => rfl
    | cons hb _ ih => rw [List.any_cons, List.any_cons, ih, hb.1, hb.2.1]
  unfold metricTerm Manner.metricTerm
  rw [hmetrics, hcommitted, hworld, hanswers, htype]
  cases ev.metrics with
  | false => exact Concurs.refl _
  | true =>
      apply Concurs.after
      intro found _
      apply Concurs.bind (metricBinds_alike hf hbinds he env [])
      intro bound _
      cases bound with
      | none => exact Concurs.refl _
      | some bound =>
          have hlast : ∀ length, Concurs terms
              (Noted.lift (found bound length) >>= fun v =>
                ev.consult (name.metricName ++ "(" ++ ", ".intercalate (bound.map fun x =>
                  x.1 ++ ": " ++ (if binds.any fun b => decide (b.1 = x.1) &&
                    readsPersonal (ev.committed.getD ev.world).lib b.2.1 then PERSONAL
                    else x.2.written)) ++ ")") v >>= fun _ => Pure.pure (Term.value v))
              (Noted.lift (found bound length) >>= fun v =>
                ev'.consult (name.metricName ++ "(" ++ ", ".intercalate (bound.map fun x =>
                  x.1 ++ ": " ++ (if binds'.any fun b => decide (b.1 = x.1) &&
                    readsPersonal (ev.committed.getD ev.world).lib b.2.1 then PERSONAL
                    else x.2.written)) ++ ")") v >>= fun _ => Pure.pure (Term.value v)) := by
            intro length
            apply Concurs.after
            intro v _
            apply Concurs.bind (hf.alikeSilent (ev.silent_consult _ v) (ev'.silent_consult _ v))
            intro _ _
            exact Concurs.refl _
          cases hwindow with
          | none => exact hlast none
          | some hr =>
              apply Concurs.bind (hr.value env he)
              intro w _
              cases w with
              | duration s => exact hlast (some s)
              | _ => exact Concurs.refl _

/-! ### The tree -/

section Tree

variable {m : MetricReader} {below below' : Evaluator → Expr → Evaluated Value}
variable (hbelow : ∀ {ev ev'} e, E ev ev' → Concurs terms (below ev e) (below' ev' e))

include hbelow

set_option linter.unusedSectionVars false in
mutual

/-- **An expression's meanings are alike** where those of its parts are. -/
theorem meaning_alike : ∀ e : Expr,
    MeaningAlike terms E (e.meaning m below) (h.meaning m below' e)
  | .num n => by
      intro ev ev' env he
      have hsame : numberTerm n ev' = numberTerm n ev := by
        obtain ⟨r, on, hsame⟩ := hf.same he
        rw [hsame]
        rfl
      unfold Expr.meaning Manner.meaning
      rw [hsame]
      exact Concurs.refl _
  | .str _ => by
      unfold Expr.meaning Manner.meaning
      exact fun _ _ _ _ => Concurs.refl _
  | .bool _ => by
      unfold Expr.meaning Manner.meaning
      exact fun _ _ _ _ => Concurs.refl _
  | .dur n unit => by
      intro ev ev' env he
      have hsame : durationTerm n unit ev' = durationTerm n unit ev := by
        obtain ⟨r, on, hsame⟩ := hf.same he
        rw [hsame]
        rfl
      unfold Expr.meaning Manner.meaning
      rw [hsame]
      exact Concurs.refl _
  | .money _ _ => by
      unfold Expr.meaning Manner.meaning
      exact fun _ _ _ _ => Concurs.refl _
  | .name n => by
      unfold Expr.meaning Manner.meaning
      exact nameTerm_alike hf hbelow n
  | .path b member => by
      unfold Expr.meaning Manner.meaning
      exact pathTerm_alike hf hbelow b (meaning_alike b) member
  | .call f args => by
      unfold Expr.meaning Manner.meaning
      exact callTerm_alike hf f (baseMeaning_alike f) (argMeanings_alike args)
  | .agg kind distinct var collection filter body => by
      unfold Expr.meaning Manner.meaning
      exact aggregateTerm_alike hf kind distinct var (optionMeaning_alike collection) filter
        (optionMeaning_alike filter) (optionSides_alike filter) (optionMeaning_alike body)
  | .metric name binds window _ => by
      unfold Expr.meaning Manner.meaning
      exact metricTerm_alike hf m name (bindMeanings_alike binds) (optionMeaning_alike window)
  | .changed names e => by
      unfold Expr.meaning Manner.meaning
      exact changedTerm_alike hf names (meaning_alike e)
  | .set items => by
      unfold Expr.meaning Manner.meaning
      exact setTerm_alike (meanings_alike items)
  | .not e => by
      unfold Expr.meaning Manner.meaning
      exact notTerm_alike (meaning_alike e)
  | .neg e => by
      unfold Expr.meaning Manner.meaning
      exact negTerm_alike hf (meaning_alike e)
  | .isNull e negated => by
      unfold Expr.meaning Manner.meaning
      exact isNullTerm_alike (meaning_alike e) negated
  | .in' l r => by
      unfold Expr.meaning Manner.meaning
      exact membership_alike hf (meaning_alike l) r (itemMeanings_alike r) (meaning_alike r)
  | .bin op l r => by
      unfold Expr.meaning Manner.meaning
      exact binaryTerm_alike hf op l r (meaning_alike l) (meaning_alike r)
  | .if' c a b => by
      unfold Expr.meaning Manner.meaning
      exact ifTerm_alike (meaning_alike c) (meaning_alike a) (meaning_alike b)
  | .param _ => by
      unfold Expr.meaning Manner.meaning
      exact fun _ _ _ _ => Concurs.refl _
  | .lit _ => by
      unfold Expr.meaning Manner.meaning
      exact fun _ _ _ _ => Concurs.refl _

theorem baseMeaning_alike (e : Expr) :
    Option.Rel (MeaningAlike terms E) (e.baseMeaning m below) (h.baseMeaning m below' e) := by
  cases e with
  | path b member => exact .some (meaning_alike b)
  | _ => exact .none

theorem itemMeanings_alike (e : Expr) :
    Option.Rel (List.Forall₂ (MeaningAlike terms E)) (e.itemMeanings m below)
      (h.itemMeanings m below' e) := by
  cases e with
  | set items => exact .some (meanings_alike items)
  | _ => exact .none

theorem sides_alike : ∀ e : Expr,
    List.Forall₂ (SideAlike terms E) (e.sides m below) (h.sides m below' e)
  | .bin op l r => by
      cases op with
      | and => exact List.rel_append (sides_alike r) (sides_alike l)
      | eq => exact .cons ⟨rfl, rfl, meaning_alike r⟩ (.cons ⟨rfl, rfl, meaning_alike l⟩ .nil)
      | _ => exact .nil
  | .num _ | .str _ | .bool _ | .dur _ _ | .money _ _ | .name _ | .path _ _ | .call _ _
  | .agg _ _ _ _ _ _ | .metric _ _ _ _ | .changed _ _ | .set _ | .not _ | .neg _ | .isNull _ _
  | .in' _ _ | .if' _ _ _ | .param _ | .lit _ => .nil

theorem meanings_alike : ∀ es : List Expr,
    List.Forall₂ (MeaningAlike terms E) (meanings m below es) (h.meanings m below' es)
  | [] => .nil
  | e :: rest => .cons (meaning_alike e) (meanings_alike rest)

theorem argMeanings_alike : ∀ es : List Expr,
    List.Forall₂ (ArgAlike terms E) (argMeanings m below es) (h.argMeanings m below' es)
  | [] => .nil
  | e :: rest => .cons ⟨rfl, meaning_alike e⟩ (argMeanings_alike rest)

theorem bindMeanings_alike : ∀ bs : List (String × Expr),
    List.Forall₂ (BindAlike terms E) (bindMeanings m below bs) (h.bindMeanings m below' bs)
  | [] => .nil
  | (_, e) :: rest => .cons ⟨rfl, rfl, meaning_alike e⟩ (bindMeanings_alike rest)

theorem optionMeaning_alike : ∀ e : Option Expr,
    Option.Rel (MeaningAlike terms E) (optionMeaning m below e) (h.optionMeaning m below' e)
  | none => .none
  | some e => .some (meaning_alike e)

theorem optionSides_alike : ∀ e : Option Expr,
    List.Forall₂ (SideAlike terms E) (optionSides m below e) (h.optionSides m below' e)
  | none => .nil
  | some e => sides_alike e

end

end Tree

/-! ### Whole evaluations -/

end

end ObjectFlow
