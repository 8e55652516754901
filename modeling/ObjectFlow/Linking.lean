import ObjectFlow.Successors

/-!
# The link a transition writes

What a transition's inputs name as its object's successor is looked at before
its outcome: it is another object, and has not ended.  The effect writes the
link later, after whatever it took; but its object had ended when its effect
began, and the successor named none then.
-/

namespace ObjectFlow

open Base

/-! ### The successor a transition's inputs name -/

/-- What a transition's inputs name as successors: none its object, none ended,
and each held where the object is yet to be made. -/
def Ctx.Names (s : Ctx) (x : Transition) (oid : Option String) (inputs : Table String Value) :
    Prop :=
  ∀ k b, Step.supersede (.path (.name "inputs") k) ∈ x.effect →
    Table.get? inputs k = some (.object b) →
      oid ≠ some b ∧ ¬ s.work.Ended b ∧ (oid = none → (s.work.get b).isSome)

theorem checkSuccessor_names {x : Transition} {oid : Option String} {inputs : Table String Value}
    {ctx : Ctx} (h : checkSuccessor x oid inputs ctx = .ok ()) {k b : String}
    (hstep : Step.supersede (.path (.name "inputs") k) ∈ x.effect)
    (hinput : Table.get? inputs k = some (.object b)) : oid ≠ some b ∧ ¬ ctx.work.Ended b := by
  unfold checkSuccessor at h
  dsimp only at h
  split at h
  · cases h
  case h_2 hnone =>
    have hone := List.findSome?_eq_none_iff.mp hnone _ hstep
    simp only [hinput] at hone
    split at hone
    · cases hone
    case isFalse hrefused =>
      rw [Bool.or_eq_true, not_or] at hrefused
      obtain ⟨hother, hopen⟩ := hrefused
      refine ⟨fun heq => hother (decide_eq_true heq), ?_⟩
      rintro ⟨o, ho, hsupersedes⟩
      refine hopen ?_
      rw [ho]
      unfold World.supersedes at hsupersedes
      cases htype : ctx.work.lib.type? o.type with
      | none => simp [htype] at hsupersedes
      | some t =>
          rw [htype, Option.any_some, Bool.and_eq_true] at hsupersedes
          simpa [htype] using hsupersedes.2

theorem supersedesAny_mem {steps : List Step} {step : Step} (hstep : step ∈ steps)
    (h : step.supersedes = true) : supersedesAny steps = true := by
  induction steps with
  | nil => cases hstep
  | cons first rest ih =>
      rw [supersedesAny, Bool.or_eq_true]
      rcases List.mem_cons.mp hstep with rfl | hrest
      · exact .inl h
      · exact .inr (ih hrest)

/-- A superseding step of a checked effect names an input that is an object, or
what a creation before it binds. -/
theorem namesSuccessor_mem {t : FlowType} {x : Transition} {bound : List String}
    {steps : List Step} (h : namesSuccessor t x bound steps = true) {e : Expr}
    (hstep : Step.supersede e ∈ steps) : ∃ bound, namesOne t x bound e = true := by
  induction steps generalizing bound with
  | nil => cases hstep
  | cons step rest ih =>
      rcases List.mem_cons.mp hstep with rfl | hrest
      · rw [namesSuccessor, Bool.and_eq_true] at h
        exact ⟨bound, h.1⟩
      · have hleft : supersedesAny rest = true := supersedesAny_mem hrest rfl
        cases step <;> simp only [namesSuccessor, Bool.and_eq_true, hleft] at h <;>
          first
            | exact ih h.2 hrest
            | simp at h

/-! ### Inputs as they are checked -/

section

variable {m : MetricReader} {t : FlowType} {x : Transition} {oid : Option String}

/-- An input with the defaults given is one given, or a default's value. -/
theorem withDefaults_get {ctx : Ctx} {specs : List (String × Input)}
    {inputs given : Table String Value} {missing : List String}
    (h : withDefaults m t oid ctx specs inputs = .ok (given, missing)) {k : String} {v : Value}
    (hk : Table.get? given k = some v) :
    Table.get? inputs k = some v ∨ ∃ spec d before, (k, spec) ∈ specs ∧ spec.default = some d ∧
      evaluatedOnly ((ctx.evaluator t oid before).eval m d) = .ok v := by
  induction specs generalizing inputs given missing with
  | nil =>
      cases h
      exact .inl hk
  | cons entry rest ih =>
      obtain ⟨name, spec⟩ := entry
      have hlater : ∀ {inputs given : Table String Value} {missing},
          withDefaults m t oid ctx rest inputs = .ok (given, missing) →
            Table.get? given k = some v → Table.get? inputs k = some v ∨
              ∃ spec' d before, (k, spec') ∈ (name, spec) :: rest ∧ spec'.default = some d ∧
                evaluatedOnly ((ctx.evaluator t oid before).eval m d) = .ok v := by
        intro inputs given missing hrest hk
        rcases ih hrest hk with hgiven | ⟨spec', d, before, hmem, hdefault, hvalue⟩
        · exact .inl hgiven
        · exact .inr ⟨spec', d, before, List.mem_cons_of_mem _ hmem, hdefault, hvalue⟩
      unfold withDefaults at h
      split at h
      · exact hlater h hk
      · cases hdefault : spec.default with
        | none =>
          rw [hdefault] at h
          obtain ⟨⟨given', missing'⟩, hrest, hdone⟩ := ok_of_bind h
          cases hdone
          exact hlater hrest hk
        | some d =>
          rw [hdefault] at h
          obtain ⟨value, hvalue, hrest⟩ := ok_of_bind h
          rcases hlater hrest hk with hset | hothers
          · by_cases hname : name = k
            · subst hname
              rw [Table.get?_set_self] at hset
              cases hset
              exact .inr ⟨spec, d, inputs, List.mem_cons_self, hdefault, hvalue⟩
            · rw [Table.get?_set_of_ne _ _ hname] at hset
              exact .inl hset
          · exact .inr hothers

/-- Inputs taken: a caused transition may be, none names what is not held, and
each default is given. -/
theorem checkInputs_ok {inputs given : Table String Value} {depth : Nat} {ctx : Ctx}
    (h : checkInputs m t x oid inputs depth ctx = .ok given) :
    (0 < depth → checkCaused t x oid inputs ctx = .ok ()) ∧
      wrongInputs t x inputs depth ctx = [] ∧
      ∃ missing, withDefaults m t oid ctx x.inputs inputs = .ok (given, missing) := by
  unfold checkInputs at h
  dsimp only at h
  split at h
  case' isTrue hdepth =>
    obtain ⟨_, hcaused, h⟩ := ok_of_bind h
    have hfirst : 0 < depth → checkCaused t x oid inputs ctx = .ok () := fun _ => hcaused
  case' isFalse hdepth =>
    have hfirst : 0 < depth → checkCaused t x oid inputs ctx = .ok () :=
      fun hpos => absurd hpos hdepth
  all_goals
    split at h
    · cases h
    case isFalse hwrong =>
      split at h
      · cases h
      · obtain ⟨⟨inputs', missing⟩, hdefaults, h⟩ := ok_of_bind h
        dsimp only at h
        split at h
        · cases h
        · split at h
          · cases h
          · cases h
            exact ⟨hfirst, by simpa using hwrong, missing, hdefaults⟩

/-- An object an input of a reference names is held. -/
theorem wrongInputs_held {inputs : Table String Value} {depth : Nat} {ctx : Ctx}
    (h : wrongInputs t x inputs depth ctx = []) {k b : String}
    (hreference : (inputType t x k).any (fun type => type.1.namesObject) = true)
    (hinput : Table.get? inputs k = some (.object b)) : (ctx.work.get b).isSome := by
  have hone := List.flatMap_eq_nil_iff.mp h (k, .object b) (Table.mem_of_get? hinput)
  obtain ⟨⟨declared, many, media⟩, htype, hdeclared⟩ := (Option.any_eq_true _ _).mp hreference
  simp only [Value.isAbsent, htype] at hone
  cases declared with
  | reference target =>
      have hheld := (List.append_eq_nil_iff.mp hone).2
      by_cases hnames : namesObjects ctx.work target (.object b) = true
      · have hnamed : ((ctx.work.get b).any fun o =>
            target = ANY_TYPE || ctx.work.lib.isA o.type target) = true :=
          ((Bool.and_eq_true _ _).mp hnames).1
        obtain ⟨o, ho, -⟩ := (Option.any_eq_true _ _).mp hnamed
        rw [ho]
        rfl
      · simp [hnames] at hheld
  | _ => cases hdeclared

theorem providedInputs_get {tn xn : String} {inputs given : Table String Value}
    (h : providedInputs tn x xn inputs = .ok given) {k b : String}
    (hk : Table.get? given k = some (.object b)) : Table.get? inputs k = some (.object b) := by
  unfold providedInputs at h
  split at h
  · cases h
  · split at h
    · unfold labelName at h
      split at h
      · dsimp only at h
        split at h
        · cases h
        · cases h
          by_cases hname : "name" = k
          · subst hname
            rw [Table.get?_set_self] at hk
            cases hk
          · rwa [Table.get?_set_of_ne _ _ hname] at hk
      · cases h
        exact hk
    · cases h
      exact hk

/-- A caused transition but an erasure is taken from a state it may be. -/
theorem checkCaused_takes {inputs : Table String Value} {ctx : Ctx}
    (h : checkCaused t x oid inputs ctx = .ok ()) (hkind : x.kind ≠ .erasure) {o : Object}
    (ho : ctx.target oid = some o) : takesFrom t x o.state = true := by
  by_cases htakes : takesFrom t x o.state = true
  · exact htakes
  · have hfilter : (some o).filter (fun o => x.kind ≠ .erasure && !takesFrom t x o.state) =
        some o := by
      rw [Option.filter_some, if_pos (by simp [hkind, htakes])]
    rw [checkCaused, ho, hfilter] at h
    cases h

theorem checkGenerated_successor {tn : String} {inputs : Table String Value} {depth : Nat}
    {ctx : Ctx} (h : checkGenerated t tn x oid inputs depth ctx = .ok ()) :
    checkSuccessor x oid inputs ctx = .ok () := by
  unfold checkGenerated at h
  dsimp only at h
  -- the check of a successor ends every way through
  repeat' split at h
  all_goals
    repeat first
      | exact h
      | obtain ⟨_, -, h⟩ := ok_of_bind h

end

/-- **A transition's checks** read alone, and leave it to name as a successor
what may be one. -/
theorem checked_names {lib : Library} {r : Readers} (hlib : lib.Superseding r.metrics) {s u : Ctx}
    {t : FlowType} {tn xn : String} {x : Transition} {oid : Option String}
    {inputs given : Table String Value} {depth : Nat} {guarded : Guarded} (hs : s.Chained lib)
    (htype : lib.type? tn = some t) (hx : t.transition? xn = some x)
    (hkind : decide (x.kind = .initial) = oid.isNone)
    (hrun : checked r t tn xn x oid inputs depth s = (.ok (given, guarded), u)) :
    Ctx.Aside s u ∧ s.Names x oid given ∧ (0 < depth → x.kind ≠ .erasure → ∀ o,
      s.target oid = some o → takesFrom t x o.state = true) := by
  refine ⟨checked_reads r t tn xn x oid inputs depth s _ u hrun, ?_⟩
  obtain ⟨taken, htaken, hrest⟩ := Program.check_bind_ok hrun
  obtain ⟨hcaused, hwrong, missing, hdefaults⟩ := checkInputs_ok htaken
  obtain ⟨_, s₁, hasserted, hrest⟩ := Program.bind_ok hrest
  have hwork : s₁.work = s.work := (noteAsserted_reads x oid taken s _ s₁ hasserted).work
  obtain ⟨_, hgenerated, hrest⟩ := Program.check_bind_ok hrest
  obtain ⟨read, s₂, -, hrest⟩ := Program.bind_ok hrest
  obtain ⟨provided, hprovided, hrest⟩ := Program.check_bind_ok hrest
  obtain ⟨_, s₃, -, hrest⟩ := Program.bind_ok hrest
  cases hrest
  have hentry := Table.mem_of_get? htype
  have hentry' := Table.mem_of_get? hx
  refine ⟨fun k b hstep hk => ?_, fun hdepth hkind' o ho =>
    checkCaused_takes (hcaused hdepth) hkind' ho⟩
  have hinput := providedInputs_get hprovided hk
  obtain ⟨hother, hopen⟩ :=
    checkSuccessor_names (checkGenerated_successor hgenerated) hstep hinput
  refine ⟨hother, hwork ▸ hopen, ?_⟩
  rintro rfl
  rcases withDefaults_get hdefaults hinput with hgiven | ⟨spec, d, before, hmem, hdefault, hvalue⟩
  · obtain ⟨bound, hone⟩ := namesSuccessor_mem (hlib.names _ hentry _ hentry') hstep
    rw [namesOne, Bool.and_eq_true] at hone
    exact wrongInputs_held hwrong hone.2 hgiven
  · exact hlib.defaults _ hentry _ hentry' (of_decide_eq_true hkind) _ hmem hstep d hdefault s before
      b hs hvalue

/-! ### The effect -/

section

variable (r : Readers) (t : FlowType) (id : String) (inputs : Table String Value)
  (position : Int) {below : TakeBelow} {s u : Ctx} {env : Env}

/-- What an effect evaluates plainly is its expression's value. -/
theorem effectValue_plain {e : Expr} {v : Value}
    (h : effectValue r t id inputs position env e .plain s = (.ok v, u)) :
    (({ s.effectEvaluator t id inputs with
      answers := some s.answers
      event := some position } : Evaluator).evalIn r.metrics e env).outcome = .ok v := by
  obtain ⟨⟨found, notes⟩, s₁, hfound, hrest⟩ := Program.bind_ok h
  obtain ⟨ctx, s₂, hctx, hfound⟩ := Program.bind_ok hfound
  cases hctx
  obtain ⟨_, s₃, hnoted, hfound⟩ := Program.bind_ok hfound
  obtain ⟨hvalue, -⟩ := Program.check_ok hfound
  have hfound : v = found := by
    dsimp only at hrest
    split at hrest
    · cases hrest
    · cases hrest
      rfl
  rw [hfound]
  unfold evaluated at hvalue
  split at hvalue
  case h_1 hok =>
    cases hvalue
    exact hok
  case h_2 => cases hvalue

/-- A step but a creation binds no name. -/
theorem Step.run_env {step : Step} (hstep : ∀ type transition binds result,
    step ≠ .create type transition binds result) :
    Program.Yields (· = env) (step.run r t id inputs position below env) := by
  cases step with
  | create type transition binds result => exact absurd rfl (hstep _ _ _ _)
  | foreach item array range filter limit steps =>
      exact Program.Yields.bind fun _ => Program.Yields.bind fun _ => Program.Yields.pure rfl
  | _ => exact Program.Yields.bind fun _ => Program.Yields.pure rfl

end

namespace Ctx

/-- What a transition may name as its object's successor: another object, which
had not ended as the transition began, and named none as its own had. -/
structure Nameable (s₀ s₁ : Ctx) (a b : String) : Prop where
  other : b ≠ a
  lasting : ¬ s₀.work.Ended b
  unlinked : s₁.work.successor b = none

/-- Every creation one deeper makes an object under an id that was free. -/
def CreatesFresh (lib : Library) (below : TakeBelow) : Prop :=
  ∀ type transition inputs s made u, s.Chained lib →
    below type transition none inputs s = (.ok made, u) → s.work.get made = none

section

variable {lib : Library} {r : Readers} {t : FlowType} {a : String} {inputs : Table String Value}
  {position : Int} {below : TakeBelow} {s₀ s₁ s u : Ctx}

/-- An object that was not held as an effect began is one it may name. -/
theorem Nameable.fresh {b : String} (h₀ : Relinks lib s₀ s) (h₁ : Relinks lib s₁ s)
    (ha : s₁.work.Ended a) (hb : s.work.get b = none) : Nameable s₀ s₁ a b where
  other := by
    rintro rfl
    obtain ⟨o, ho, -⟩ := ha
    obtain ⟨o', ho', -⟩ := h₁.typed b o ho
    rw [hb] at ho'
    cases ho'
  lasting := by
    rintro ⟨o, ho, -⟩
    obtain ⟨o', ho', -⟩ := h₀.typed b o ho
    rw [hb] at ho'
    cases ho'
  unlinked := by
    rw [World.successor]
    cases hget : s₁.work.get b with
    | none => rfl
    | some o =>
        obtain ⟨o', ho', -⟩ := h₁.typed b o hget
        rw [hb] at ho'
        cases ho'

/-- What a creation of an effect's binds is an object that was not held. -/
theorem create_binds (hcreates : CreatesFresh lib below) {env env' : Env} {type transition : String}
    {binds : List (String × Expr)} {result : Option String} (hs : s.Chained lib)
    (hrun : create r t a inputs position below env type transition binds result s =
      (.ok env', u)) :
    ∃ made, s.work.get made = none ∧
      env' = (result.map fun name => Table.set env name (.object made)).getD env := by
  obtain ⟨values, s₁, hvalues, hrest⟩ := Program.bind_ok hrun
  have haside := arguments_reads r t a inputs position env binds s values s₁ hvalues
  obtain ⟨made, s₂, hmade, hrest⟩ := Program.bind_ok hrest
  have hfree := hcreates type transition values s₁ made s₂ (Relinks.beside hs haside).chained
    (Program.mapStop_ok hmade)
  rw [haside.work] at hfree
  refine ⟨made, hfree, ?_⟩
  cases result <;> cases hrest <;> rfl

/-- An object's link written, and nothing else of what the links are read
from. -/
theorem written_change (w : World) {a b : String} (ha : (w.get a).isSome) :
    Chains.Written w.chains
      (w.change a fun o => { o with supersededBy := some b }).chains a b := by
  have hother : ∀ j, j ≠ a →
      (w.change a fun o => { o with supersededBy := some b }).get j = w.get j := by
    intro j hj
    rw [World.get_change, if_neg (Ne.symm hj)]
  have hmine : (w.change a fun o => { o with supersededBy := some b }).get a =
      (w.get a).map fun o => { o with supersededBy := some b } := by
    rw [World.get_change, if_pos rfl]
  obtain ⟨held, hheld⟩ := Option.isSome_iff_exists.mp ha
  refine ⟨fun j => ?_, ?_, fun j hj => ?_⟩
  · by_cases hj : j = a
    · subst hj
      constructor
      · rintro ⟨o, ho, hsupersedes⟩
        rw [hmine, hheld] at ho
        cases ho
        exact ⟨held, hheld, by rwa [World.supersedes, World.lib_change] at hsupersedes⟩
      · rintro ⟨o, ho, hsupersedes⟩
        refine ⟨_, by rw [hmine, ho]; rfl, ?_⟩
        rwa [World.supersedes, World.lib_change]
    · show (∃ o, _ ∧ _) ↔ ∃ o, _ ∧ _
      simp only [hother j hj, World.supersedes, World.lib_change]
  · show World.successor _ a = some b
    rw [World.successor, hmine, hheld]
    rfl
  · show World.successor _ j = w.successor j
    rw [World.successor, World.successor, hother j hj]

/-- One step's link: on an object that had ended as its effect began, towards
one it may name. -/
theorem supersede_relinks (h₀ : Relinks lib s₀ s) (h₁ : Relinks lib s₁ s) (hs₁ : s₁.Chained lib)
    (ha : s₁.work.Ended a) (hlasting : ¬ s₀.work.Ended a) {b : String}
    (hb : Nameable s₀ s₁ a b) (hwork : u.work =
      s.work.change a fun o => { o with supersededBy := some b }) (halloc : u.alloc = s.alloc) :
    Relinks lib s₀ u := by
  have hheld : (s.work.get a).isSome := by
    obtain ⟨o, ho, -⟩ := ha
    obtain ⟨o', ho', -⟩ := h₁.typed a o ho
    rw [ho']
    rfl
  have hwritten : Chains.Written s.work.chains u.work.chains a b := by
    rw [hwork]
    exact written_change s.work hheld
  have hkin : Kin s u := Kin.change h₀.chained.single hwork halloc
  have hback : ∀ j o, u.work.get j = some o →
      ∃ o', s.work.get j = some o' ∧ o.id = o'.id ∧ o.type = o'.type := by
    intro j o ho
    rw [hwork, World.get_change] at ho
    split at ho
    · obtain ⟨o', ho', rfl⟩ := Option.map_eq_some_iff.mp ho
      exact ⟨o', ho', rfl, rfl⟩
    · exact ⟨o, ho, rfl, rfl⟩
  refine ⟨⟨?_, hkin.single, ?_, hkin.lib.trans h₀.chained.lib, ?_⟩, ?_, ?_⟩
  · intro j o ho
    obtain ⟨o', ho', hid, -⟩ := hback j o ho
    exact hid.trans (h₀.chained.named j o' ho')
  · intro type n hn
    rw [halloc] at hn ⊢
    rw [hwork, World.get_change, h₀.chained.fresh type n hn]
    split <;> rfl
  · exact hs₁.sound.written h₀.chained.sound h₁.grows ha hb.unlinked hb.other hwritten
  · intro j o ho
    obtain ⟨o', ho', htype⟩ := h₀.typed j o ho
    rw [hwork, World.get_change]
    split
    · exact ⟨{ o' with supersededBy := some b }, by rw [ho']; rfl, htype⟩
    · exact ⟨o', ho', htype⟩
  · exact h₀.grows.written hlasting hb.lasting hwritten

/-- What an effect writes of its object in place keeps the links. -/
theorem changedAttrs_relinks (hs : s.Chained lib) (f : Table String Value → Table String Value)
    (names : List String) : Relinks lib s ((s.changeAttrs a f).noteWrote a names) :=
  Relinks.change (f := fun o => { o with attrs := f o.attrs }) hs rfl rfl fun _ => rfl

/-- The successor a checked step names is one its effect may name. -/
theorem namesOne_nameable {x : Transition} {bound : List String} {e : Expr} {env : Env}
    (hnames : namesOne t x bound e = true)
    (hinputs : ∀ k b, e = .path (.name "inputs") k →
      Table.get? inputs k = some (.object b) → Nameable s₀ s₁ a b)
    (hunbound : Table.get? env "inputs" = none)
    (hbound : ∀ n ∈ bound, ∃ b, Table.get? env n = some (.object b) ∧ Nameable s₀ s₁ a b)
    {b : String} (hvalue : effectValue r t a inputs position env e .plain s = (.ok (.object b), u)) :
    Nameable s₀ s₁ a b := by
  replace hvalue := effectValue_plain r t a inputs position hvalue
  unfold namesOne at hnames
  split at hnames
  case h_1 base k =>
    rw [Bool.and_eq_true] at hnames
    obtain rfl := isName_eq hnames.1
    have hinput := evalIn_input a rfl hunbound hvalue
    refine hinputs k b rfl ?_
    cases hget : Table.get? inputs k with
    | none =>
      have hnone : Value.object b = (Table.get? inputs k).getD .absent := hinput
      rw [hget] at hnone
      cases hnone
    | some v =>
      have hsome : Value.object b = (Table.get? inputs k).getD .absent := hinput
      rw [hget] at hsome
      exact congrArg some hsome.symm
  case h_2 n =>
    obtain ⟨b', hget, hnameable⟩ := hbound n (List.contains_iff_mem.mp hnames)
    have heq := evalIn_bound hget hvalue
    cases heq
    exact hnameable
  case h_3 => cases hnames

/-- **An effect's steps keep the links**, those that write its object's own
towards what it may name. -/
theorem runSteps_relinks (hbelow : Act.PassesBelow (Chained lib) Typed (Relinks lib) below)
    (hcreates : CreatesFresh lib below) (hs₁ : s₁.Chained lib) (ha : s₁.work.Ended a)
    (hlasting : ¬ s₀.work.Ended a) {x : Transition} {bound : List String} {steps : List Step}
    {env : Env} (hnames : namesSuccessor t x bound steps = true)
    (hinputs : ∀ k b, Step.supersede (.path (.name "inputs") k) ∈ steps →
      Table.get? inputs k = some (.object b) → Nameable s₀ s₁ a b)
    (hunbound : Table.get? env "inputs" = none)
    (hbound : ∀ n ∈ bound, ∃ b, Table.get? env n = some (.object b) ∧ Nameable s₀ s₁ a b)
    (h₀ : Relinks lib s₀ s) (h₁ : Relinks lib s₁ s) {done : Unit}
    (hrun : runSteps r t a inputs position below env steps s = (.ok done, u)) :
    Relinks lib s₀ u := by
  have hplain : ∀ (env : Env) (step : Step), step.supersedes = false →
      Act.Passes (Chained lib) (Relinks lib) (step.run r t a inputs position below env) :=
    fun env step hnone => step_passes r t a inputs position (relinks_walks lib) hbelow
      (fun s f names hs => changedAttrs_relinks hs f names) env step fun h => by
        rw [hnone] at h
        cases h
  induction steps generalizing bound env s with
  | nil =>
      cases hrun
      exact h₀
  | cons step rest ih =>
      obtain ⟨env', s', hstep, hrest⟩ := Program.bind_ok hrun
      have hlater : ∀ k b, Step.supersede (.path (.name "inputs") k) ∈ rest →
          Table.get? inputs k = some (.object b) → Nameable s₀ s₁ a b :=
        fun k b hmem => hinputs k b (List.mem_cons_of_mem _ hmem)
      -- a step that names none goes on with the names it was given
      have honward : (∀ type transition binds result,
          step ≠ .create type transition binds result) →
          (!step.supersedes && namesSuccessor t x bound rest) = true → Relinks lib s₀ u := by
        intro hnot hnames
        rw [Bool.and_eq_true, Bool.not_eq_true'] at hnames
        have hkept := hplain env step hnames.1 s env' s' hstep h₀.chained
        obtain rfl := Step.run_env r t a inputs position hnot s env' s' hstep
        exact ih hnames.2 hlater hunbound hbound (h₀.trans hkept) (h₁.trans hkept) hrest
      cases step with
      | create type transition binds result =>
          rw [namesSuccessor, Bool.and_eq_true] at hnames
          obtain ⟨hresult, hnames⟩ := hnames
          have hkept := hplain env _ rfl s env' s' hstep h₀.chained
          obtain ⟨made, hfree, rfl⟩ := create_binds hcreates h₀.chained hstep
          have hmade := Nameable.fresh h₀ h₁ ha hfree
          refine ih hnames hlater ?_ (fun n hn => ?_) (h₀.trans hkept) (h₁.trans hkept) hrest
          · cases result with
            | none => exact hunbound
            | some name =>
                have hname : name ≠ "inputs" := by simpa using hresult
                exact (Table.get?_set_of_ne _ _ hname).trans hunbound
          · cases result with
            | none => exact hbound n hn
            | some name =>
                by_cases hname : name = n
                · subst hname
                  exact ⟨made, Table.get?_set_self _ _ _, hmade⟩
                · have hbefore : n ∈ bound := by simpa [Ne.symm hname] using hn
                  obtain ⟨b, hget, hnameable⟩ := hbound n hbefore
                  exact ⟨b, (Table.get?_set_of_ne _ _ hname).trans hget, hnameable⟩
      | supersede e =>
          rw [namesSuccessor, Bool.and_eq_true, Bool.not_eq_true'] at hnames
          obtain ⟨_, s₂, hsuperseded, hstep⟩ := Program.bind_ok hstep
          cases hstep
          obtain ⟨v, s₃, hvalue, hlink⟩ := Program.bind_ok hsuperseded
          split at hlink
          case h_1 b =>
            cases hlink
            have hb := namesOne_nameable hnames.1
              (fun k b heq hk => hinputs k b (heq ▸ List.mem_cons_self) hk) hunbound hbound hvalue
            have hread := Relinks.beside h₀.chained
              (effectValue_reads r t a inputs position env e .plain s _ s₃ hvalue)
            have hlinked := supersede_relinks (h₀.trans hread) (h₁.trans hread) hs₁ ha hlasting hb
              (u := { s₃ with
                work := s₃.work.change a fun o => { o with supersededBy := some b } }) rfl rfl
            have hlast := runSteps_passes r t a inputs position (relinks_walks lib) hbelow
              (fun s f names hs => changedAttrs_relinks hs f names) env rest
              (fun h => by rw [hnames.2] at h; cases h) _ done u hrest hlinked.chained
            exact hlinked.trans hlast
          case h_2 => cases hlink
      | _ => exact honward (by intros; exact nofun) hnames

end

/-! ### Its event -/

section

variable {lib : Library} {s u : Ctx}

theorem correctOne_standing (t : FlowType) (b : Begun) (imported : List Int)
    (ms : List String) (c : Correcting) :
    (ms.foldl (correctOne lib t b imported) c).object.standing = c.object.standing := by
  induction ms generalizing c with
  | nil => rfl
  | cons m rest ih =>
      have hone : (correctOne lib t b imported c m).object.standing = c.object.standing := by
        unfold correctOne
        dsimp only
        split <;> rfl
      exact (ih _).trans hone

theorem setIndex_relinks (rows : List (String × String)) (position : Int) (hs : s.Chained lib) :
    Relinks lib s (s.setIndex rows position) := by
  unfold setIndex
  induction rows generalizing s with
  | nil => exact Relinks.refl hs
  | cons row rest ih =>
      have hone : Relinks lib s { s with
          work := s.work.change row.1 fun o =>
            { o with writes := Table.set o.writes row.2 position }
          index := s.index ++ [(row.1, row.2, position)] } :=
        Relinks.change (f := fun o => { o with writes := Table.set o.writes row.2 position }) hs
          rfl rfl fun _ => rfl
      exact hone.trans (ih hone.chained)

/-- A transition's event leaves the links as they were. -/
theorem recordEvent_relinks {t : FlowType} {xn : String} {x : Transition}
    {inputs : Table String Value} {b : Begun} {id : String} {a : Unit} (hs : s.Chained lib)
    (hrun : recordEvent t xn x inputs b id s = (.ok a, u)) : Relinks lib s u := by
  obtain ⟨ctx, hrecorded, hput⟩ := Program.check_bind_ok hrun
  cases hput
  unfold record at hrecorded
  cases hheld : s.work.get id with
  | none =>
    rw [hheld] at hrecorded
    cases hrecorded
  | some held =>
    rw [hheld] at hrecorded
    dsimp only at hrecorded
    split at hrecorded
    · cases hrecorded
    case h_2 o hspans =>
      cases hrecorded
      have hstands := (recordSpans_standing hspans).trans (correctOne_standing t b _ x.corrects _)
      generalize hc : List.foldl _ _ x.corrects = c
      have hfirst : ∀ (wrote : Table String (List String))
          (merged : List (String × String × Int × Int × Int)), Relinks lib s { s with
            work := s.work.change id fun _ => { o with version := o.version + 1 }
            wrote
            merged } := by
        intro wrote merged
        refine Relinks.same hs (Kin.change hs.single rfl rfl) fun j => ?_
        rw [World.get_change]
        split
        case isTrue hj =>
          rw [← hj, hheld]
          exact congrArg some hstands
        case isFalse => rfl
      have hplaced : Relinks lib s
          (recordRow t xn b { o with version := o.version + 1 } c.merged id s) :=
        (hfirst _ _).trans (setIndex_relinks _ _ (hfirst _ _).chained)
      exact hplaced.trans
        (Relinks.same hplaced.chained ⟨hplaced.chained.single, rfl, le_refl _, rfl⟩ fun _ => rfl)

end

/-! ### One transition, and all it takes -/

section

variable {lib : Library} {r : Readers} {t : FlowType} {tn xn : String} {x : Transition}
  {oid : Option String} {inputs : Table String Value} {s s' u : Ctx}

/-- An external transition is taken of no object that has ended: its state is
final. -/
theorem taken_lasting {m : MetricReader} (hlib : lib.Superseding m) (hs : s.work.lib = lib)
    (htype : lib.type? tn = some t) (hx : t.transition? xn = some x) (hkind : x.kind = .external)
    {o : Object} (htn : o.type = tn) (htakes : takesFrom t x o.state = true) :
    s.work.supersedes o = false := by
  by_contra hends
  rw [Bool.not_eq_false, World.supersedes, hs, htn, htype, Option.any_some,
    Bool.and_eq_true] at hends
  obtain ⟨st, hstate, hsuperseding⟩ := (Option.any_eq_true _ _).mp hends.2
  have hentry := Table.mem_of_get? htype
  have hfinal := hlib.final _ hentry _ (Table.mem_of_get? hstate) hsuperseding
  unfold takesFrom at htakes
  split at htakes
  · cases htakes
  case h_2 names hfrom =>
    have hleft := hlib.leaves _ hentry _ (Table.mem_of_get? hx) hkind names o.state hfrom
      (List.contains_iff_mem.mp htakes)
    rw [hstate, Option.any_some, hfinal] at hleft
    cases hleft
  case h_3 =>
    rw [hstate, Option.any_some, hfinal] at htakes
    cases htakes

variable {m : MetricReader} (hlib : lib.Superseding m)

include hlib

/-- An object a declared transition is taken of is of the transition's own
type. -/
theorem Typed.alone (htyped : Typed s tn oid) (hs : s.work.lib = lib)
    (htype : lib.type? tn = some t) (hx : t.transition? xn = some x) {o : Object}
    (ho : s.target oid = some o) : o.type = tn := by
  obtain ⟨id, rfl, hget⟩ := Option.bind_eq_some_iff.mp ho
  obtain ⟨o', ho', hisA⟩ := htyped id rfl
  rw [hget] at ho'
  cases ho'
  refine hlib.alone htype (.inl fun hnone => ?_) (hs ▸ hisA)
  have hmem := Table.mem_of_get? hx
  rw [hnone] at hmem
  cases hmem

/-- Where a transition supersedes, its object has ended as its effect begins. -/
theorem Settles.ended {s₁ : Ctx} {b : Begun} (hs : s.work.lib = lib)
    (htyped : Typed s tn oid) (htype : lib.type? tn = some t) (hx : t.transition? xn = some x)
    (hkind : decide (x.kind = .initial) = oid.isNone) (hany : supersedesAny x.effect = true)
    (hstarts : Starts lib tn x oid s s₁ b) (hsettles : Settles lib x inputs s₁ u b.object) :
    u.work.Ended b.object.id := by
  obtain ⟨hkinds, howned, st, hhead, hsuperseding⟩ :=
    hlib.enters _ (Table.mem_of_get? htype) _ (Table.mem_of_get? hx) hany
  have hmoved : b.object.type = tn ∧ (movedTo x inputs b.object).state = st := by
    cases oid with
    | none =>
        obtain ⟨-, htn, -, hstate⟩ := hstarts.made rfl
        have hinitial : x.kind = .initial := of_decide_eq_true hkind
        refine ⟨htn, ?_⟩
        rw [hhead] at hstate
        unfold movedTo
        rw [hinitial]
        exact (Option.some.inj hstate).symm
    | some id =>
        obtain ⟨-, hget⟩ := hstarts.taken id rfl
        have hexternal : x.kind = .external :=
          hkinds.resolve_right (of_decide_eq_false hkind)
        refine ⟨Typed.alone hlib htyped hs htype hx hget, ?_⟩
        unfold movedTo
        rw [hexternal, hhead]
  obtain ⟨p, hp, hstands⟩ := hsettles.placed
  simp only [Object.standing, Prod.mk.injEq] at hstands
  refine ⟨p, hp, ?_⟩
  rw [World.supersedes, hsettles.relinks.chained.lib, hstands.2.1, hstands.2.2.1, hmoved.1,
    hmoved.2, htype, Option.any_some, howned]
  exact hsuperseding

omit hlib in
/-- What a transition's inputs name is what its effect may. -/
theorem Names.nameable {s₁ : Ctx} {b : Begun} (hs : s.Chained lib) (hnames : s.Names x oid inputs)
    (hkind : x.kind ≠ .erasure) (hstarts : Starts lib tn x oid s s₁ b)
    (hsettles : Settles lib x inputs s₁ u b.object) {k c : String}
    (hstep : Step.supersede (.path (.name "inputs") k) ∈ x.effect)
    (hinput : Table.get? inputs k = some (.object c)) : Nameable s u b.object.id c := by
  obtain ⟨hother, hlasting, hheld⟩ := hnames k c hstep hinput
  refine ⟨?_, hlasting, ?_⟩
  · rintro rfl
    cases oid with
    | none =>
        have hfree := (hstarts.made rfl).1
        have hsome := hheld rfl
        rw [hfree] at hsome
        cases hsome
    | some id => exact hother (congrArg some (hstarts.taken id rfl).1.symm)
  · rw [hsettles.links hkind, hstarts.links]
    cases hnext : s.work.successor c with
    | none => rfl
    | some d => exact absurd (hs.sound.ended hnext) hlasting

variable {below : TakeBelow}
  (hbelow : Act.PassesBelow (Chained lib) Typed (Relinks lib) below)
  (hcreates : CreatesFresh lib below)

include hbelow

omit hlib in
/-- What follows an effect keeps the links. -/
theorem followThrough_relinks {id : String} {position : Int} {done : Unit}
    (heffect : ∀ done u, runSteps r t id inputs position below [] x.effect s = (.ok done, u) →
      Relinks lib s' u)
    (hrun : followThrough r t xn x id inputs position below s = (.ok done, u)) :
    Relinks lib s' u := by
  obtain ⟨_, s₁, hsteps, hrest⟩ := Program.bind_ok hrun
  have hstepped := heffect _ _ hsteps
  have hpasses : Act.Passes (Chained lib) (Relinks lib) (do
      cascades r t id inputs below xn
      Program.check (checkPlaced t id)
      Program.check (checkIdentity t x id)
      eraseFurther t x id inputs below) := by
    refine (relinks_walks lib).bind
      (cascades_passes (relinks_walks lib) r t id inputs hbelow xn) fun _ => ?_
    refine (relinks_walks lib).bind ((relinks_walks lib).reads (Act.Reads.check _)) fun _ => ?_
    refine (relinks_walks lib).bind ((relinks_walks lib).reads (Act.Reads.check _)) fun _ => ?_
    exact eraseFurther_passes (relinks_walks lib) hbelow redactedNote_relinks t x id inputs
  exact hstepped.trans (hpasses s₁ _ u hrest hstepped.chained)

include hcreates

/-- **A transition carried out keeps the links**: what it takes is not ended,
and what it names is not. -/
theorem carryOut_relinks (hs : s.Chained lib) (htyped : Typed s tn oid)
    (htype : lib.type? tn = some t) (hx : t.transition? xn = some x)
    (hkind : decide (x.kind = .initial) = oid.isNone) (hnames : s.Names x oid inputs)
    (hlasting : x.kind = .external ∨ x.kind = .assertion → ∀ o, s.target oid = some o →
      s.work.supersedes o = false) {guarded : Guarded} {id : String}
    (hrun : carryOut r t tn xn x oid inputs guarded below s = (.ok id, u)) :
    Relinks lib s u ∧ (oid = none → s.work.get id = none) := by
  obtain ⟨b, s₁, hbegun, hrest⟩ := Program.bind_ok hrun
  have hstarts := beginOutcome_starts hs htyped hbegun
  obtain ⟨id', s₂, houtcome, hrest⟩ := Program.bind_ok hrest
  have htarget : x.kind ≠ .initial → s.target oid = some b.object := by
    intro hne
    cases oid with
    | none => exact absurd (of_decide_eq_true hkind) hne
    | some id => exact (hstarts.taken id rfl).2
  have hopen : x.kind = .external ∨ x.kind = .assertion → s.work.supersedes b.object = false :=
    fun h => hlasting h _ (htarget fun heq => by rw [heq] at h; simp at h)
  have hmoved : s₁.work.supersedes b.object = true →
      (movedTo x inputs b.object).state = b.object.state := by
    intro hends
    rw [World.supersedes, hstarts.relinks.chained.lib, ← hs.lib] at hends
    rw [← World.supersedes] at hends
    unfold movedTo
    split
    case h_1 hexternal _ =>
      rw [hopen (.inl hexternal)] at hends
      cases hends
    case h_2 hassertion _ =>
      rw [hopen (.inr hassertion)] at hends
      cases hends
    case h_3 => rfl
  obtain ⟨rfl, hsettles⟩ :=
    outcome_settles hlib hstarts.relinks.chained hstarts.held hmoved houtcome
  obtain ⟨_, s₃, hfollowed, hrest⟩ := Program.bind_ok hrest
  obtain ⟨_, s₄, hrecorded, hdone⟩ := Program.bind_ok hrest
  cases hdone
  have hbegan := hstarts.relinks.trans hsettles.relinks
  have hfollow : Relinks lib s s₃ := by
    refine followThrough_relinks hbelow (fun done u hsteps => ?_) hfollowed
    by_cases hany : supersedesAny x.effect = true
    · have hkinds := (hlib.enters _ (Table.mem_of_get? htype) _ (Table.mem_of_get? hx) hany).1
      have hkept : x.kind ≠ .erasure := fun heq => by rw [heq] at hkinds; simp at hkinds
      have hended := hsettles.ended hlib hs.lib htyped htype hx hkind hany hstarts
      have hopened : ¬ s.work.Ended b.object.id := by
        rintro ⟨o, ho, hends⟩
        cases oid with
        | none =>
            rw [(hstarts.made rfl).1] at ho
            cases ho
        | some id =>
            obtain ⟨hid, hget⟩ := hstarts.taken id rfl
            rw [hid, hget] at ho
            cases ho
            rw [hopen (.inl (hkinds.resolve_right (of_decide_eq_false hkind)))] at hends
            cases hends
      exact runSteps_relinks hbelow hcreates hbegan.chained hended hopened
        (hlib.names _ (Table.mem_of_get? htype) _ (Table.mem_of_get? hx))
        (fun k c hstep hinput => hnames.nameable hs hkept hstarts hsettles hstep hinput) rfl
        (fun n hn => absurd hn List.not_mem_nil) hbegan (Relinks.refl hbegan.chained) hsteps
    · have hkept := runSteps_passes r t b.object.id inputs b.position (relinks_walks lib) hbelow
        (fun s f names hs => changedAttrs_relinks hs f names) [] x.effect
        (fun h => absurd h hany) s₂ done u hsteps hbegan.chained
      exact hbegan.trans hkept
  exact ⟨hfollow.trans (recordEvent_relinks hfollow.chained hrecorded),
    fun hnone => (hstarts.made hnone).1⟩

end

section

variable {lib : Library} {r : Readers} (hlib : lib.Superseding r.metrics)

/-- Whether a transition may be taken of an object as it is requested. -/
def Available (t : FlowType) (x : Transition) (o : Object) : Prop :=
  (x.kind = .external → takesFrom t x o.state = true) ∧
    (x.kind = .assertion → (t.state? o.state).any (!·.isFinal) = true)

include hlib

/-- An available object has not ended, where the transition may move it. -/
theorem Available.lasting {s : Ctx} {t : FlowType} {tn xn : String} {x : Transition} {o : Object}
    (h : Available t x o) (hs : s.work.lib = lib) (htype : lib.type? tn = some t)
    (hx : t.transition? xn = some x) (htn : o.type = tn)
    (hkind : x.kind = .external ∨ x.kind = .assertion) : s.work.supersedes o = false := by
  rcases hkind with hexternal | hassertion
  · exact taken_lasting hlib hs htype hx hexternal htn (h.1 hexternal)
  · by_contra hends
    rw [Bool.not_eq_false, World.supersedes, hs, htn, htype, Option.any_some,
      Bool.and_eq_true] at hends
    obtain ⟨st, hstate, hsuperseding⟩ := (Option.any_eq_true _ _).mp hends.2
    have hfinal := hlib.final _ (Table.mem_of_get? htype) _ (Table.mem_of_get? hstate) hsuperseding
    have hlasts := h.2 hassertion
    rw [hstate, Option.any_some, hfinal] at hlasts
    cases hlasts

theorem takeUnwound_relinks {below : TakeBelow}
    (hbelow : Act.PassesBelow (Chained lib) Typed (Relinks lib) below)
    (hcreates : CreatesFresh lib below) {depth : Nat} {tn xn : String} {oid : Option String}
    {inputs : Table String Value} {s u : Ctx} {id : String} (hs : s.Chained lib)
    (htyped : Typed s tn oid)
    (havailable : depth = 0 → ∀ t x o, lib.type? tn = some t → t.transition? xn = some x →
      s.target oid = some o → Available t x o)
    (hrun : takeUnwound r below depth tn xn oid inputs s = (.ok id, u)) :
    Relinks lib s u ∧ (oid = none → s.work.get id = none) := by
  obtain ⟨ctx, s₁, hctx, hrest⟩ := Program.bind_ok hrun
  cases hctx
  rw [hs.lib] at hrest
  cases htype : lib.type? tn with
  | none =>
    rw [htype] at hrest
    cases hrest
  | some t =>
    rw [htype] at hrest
    dsimp only at hrest
    cases hfound : (t.transition? xn).filter fun x => decide (x.kind = .initial) = oid.isNone with
    | none =>
      rw [hfound] at hrest
      cases hrest
    | some x =>
      rw [hfound] at hrest
      dsimp only at hrest
      obtain ⟨hx, hkind⟩ := Option.filter_eq_some_iff.mp hfound
      split at hrest
      · cases hrest
      case isFalse hcaused =>
        obtain ⟨⟨given, guarded⟩, s₂, hchecked, hcarried⟩ := Program.bind_ok hrest
        obtain ⟨haside, hnames, htakes⟩ :=
          checked_names hlib hs htype hx (of_decide_eq_true hkind) hchecked
        have hread := Relinks.beside hs haside
        have htarget : s₂.target oid = s.target oid := by rw [target, target, haside.work]
        have htyped' := (relinks_walks lib).taken hs hread htyped
        have hlasting : x.kind = .external ∨ x.kind = .assertion → ∀ o,
            s₂.target oid = some o → s₂.work.supersedes o = false := by
          intro hkinds o ho
          have htn := Typed.alone hlib htyped' hread.chained.lib htype hx ho
          refine Available.lasting hlib ?_ hread.chained.lib htype hx htn hkinds
          rw [htarget] at ho
          by_cases hdepth : depth = 0
          · exact havailable hdepth t x o htype hx ho
          · have hpos : 0 < depth := Nat.pos_of_ne_zero hdepth
            refine ⟨fun hexternal => htakes hpos (by rw [hexternal]; decide) o ho,
              fun hassertion => ?_⟩
            exact absurd (by simp [hassertion, hpos]) hcaused
        have hnamed : s₂.Names x oid given := by
          intro k b hstep hinput
          rw [haside.work]
          exact hnames k b hstep hinput
        have hkept := carryOut_relinks hlib hbelow hcreates hread.chained htyped' htype hx
          (of_decide_eq_true hkind) hnamed hlasting hcarried
        exact ⟨hread.trans hkept.1, fun hnone => haside.work ▸ hkept.2 hnone⟩

omit hlib in
/-- A transition taken is one unwound, between what only notes. -/
theorem take_unwound {left depth : Nat} {tn xn : String} {oid : Option String}
    {inputs : Table String Value} {s u : Ctx} {id : String}
    (hrun : take r (left + 1) depth tn xn oid inputs s = (.ok id, u)) :
    ∃ s₁ u₁, Aside s s₁ ∧ Aside u₁ u ∧
      takeUnwound r (take r left (depth + 1)) depth tn xn oid inputs s₁ = (.ok id, u₁) := by
  obtain ⟨_, -, hrest⟩ := Program.check_bind_ok hrun
  obtain ⟨_, s₁, hnoted, hrest⟩ := Program.bind_ok hrest
  cases hnoted
  obtain ⟨id', u₁, htaken, hrest⟩ := Program.bind_ok hrest
  cases hrest
  exact ⟨{ s with taking := (tn, xn) :: s.taking }, u₁, ⟨rfl, rfl, rfl, rfl, rfl, rfl, rfl, rfl⟩,
    ⟨rfl, rfl, rfl, rfl, rfl, rfl, rfl, rfl⟩, htaken⟩

theorem take_unwound_relinks {left depth : Nat}
    (hbelow : Act.PassesBelow (Chained lib) Typed (Relinks lib) (take r left (depth + 1)))
    (hcreates : CreatesFresh lib (take r left (depth + 1))) {tn xn : String}
    {oid : Option String} {inputs : Table String Value} {s u : Ctx} {id : String}
    (hs : s.Chained lib) (htyped : Typed s tn oid)
    (havailable : depth = 0 → ∀ t x o, lib.type? tn = some t → t.transition? xn = some x →
      s.target oid = some o → Available t x o)
    (hrun : take r (left + 1) depth tn xn oid inputs s = (.ok id, u)) :
    Relinks lib s u ∧ (oid = none → s.work.get id = none) := by
  obtain ⟨s₁, u₁, hbegun, hended, htaken⟩ := take_unwound hrun
  have hfirst := Relinks.beside hs hbegun
  have htaken := takeUnwound_relinks hlib hbelow hcreates hfirst.chained
    ((relinks_walks lib).taken hs hfirst htyped)
    (fun hdepth t x o htype hx ho => havailable hdepth t x o htype hx (by
      rwa [target, hbegun.work] at ho)) htaken
  exact ⟨(hfirst.trans htaken.1).trans (Relinks.beside htaken.1.chained hended),
    fun hnone => hbegun.work ▸ htaken.2 hnone⟩

/-- **Every nesting of transitions keeps the links**, and makes an object under
an id that was free. -/
theorem take_relinks (left depth : Nat) (hdepth : 0 < depth) :
    Act.PassesBelow (Chained lib) Typed (Relinks lib) (take r left depth) ∧
      CreatesFresh lib (take r left depth) := by
  induction left generalizing depth with
  | zero =>
      have hnever : ∀ tn xn oid inputs s id u,
          take r 0 depth tn xn oid inputs s ≠ (.ok id, u) := by
        intro tn xn oid inputs s id u hrun
        obtain ⟨_, -, hrest⟩ := Program.check_bind_ok hrun
        obtain ⟨_, s₁, hnoted, hrest⟩ := Program.bind_ok hrest
        cases hnoted
        obtain ⟨id', u₁, hstopped, -⟩ := Program.bind_ok hrest
        cases hstopped
      exact ⟨fun tn xn oid inputs s id u hrun => absurd hrun (hnever _ _ _ _ _ _ _),
        fun tn xn inputs s id u _ hrun => absurd hrun (hnever _ _ _ _ _ _ _)⟩
  | succ left ih =>
      obtain ⟨hbelow, hcreates⟩ := ih (depth + 1) (Nat.succ_pos _)
      have hlater : depth = 0 → False := fun h => absurd h hdepth.ne'
      refine ⟨fun tn xn oid inputs s id u hrun hs => ?_, fun tn xn inputs s id u hs hrun => ?_⟩
      · exact (take_unwound_relinks hlib hbelow hcreates hs.1 hs.2
          (fun h => (hlater h).elim) hrun).1
      · exact (take_unwound_relinks hlib hbelow hcreates hs (fun _ h => by cases h)
          (fun h => (hlater h).elim) hrun).2 rfl

end

end Ctx

end ObjectFlow
