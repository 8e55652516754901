import ObjectFlow.Base.Lockstep
import ObjectFlow.Keyed
import ObjectFlow.LogReplays

/-!
# Checking a request

A check simulates a request on the store as it stands and asks no evaluator.
Where the rules it meets ask none, it is the request's own run in lockstep: all
that tells the two contexts apart is whether the run is a check and the answers
it was given, which nothing else reads.
-/

namespace ObjectFlow

open Base

/-! ### What asks no evaluator -/

/-- An expression of a type's asks no evaluator, with names bound: it comes to
the same whatever the evaluators answer, and leaves none unanswered. -/
def Expr.AsksNone (m : MetricReader) (lib : Library) (t : FlowType) (bound : List String)
    (e : Expr) : Prop :=
  ∀ (ev : Evaluator) (env : Env) (answers : Option (Table String String)),
    ev.world.lib = lib → ev.type = some t → ev.metrics = true →
    (∀ n ∈ bound, (Table.get? env n).isSome) →
      Evaluator.meaning m e { ev with answers } env = Evaluator.meaning m e ev env ∧
        ∀ note ∈ (Evaluator.meaning m e ev env).notes, note.isUnanswered = false

/-- The name a step binds for those after it. -/
def Step.binding : Step → List String
  | .create _ _ _ (some name) => [name]
  | _ => []

section

variable (m : MetricReader) (lib : Library) (t : FlowType) (P : String → String → Prop)

/-- An effect's expression asks no evaluator, nor do the sides of a quotient it
divides once. -/
def Expr.WritesUnasked (bound : List String) (e : Expr) : Prop :=
  e.AsksNone m lib t bound ∧
    ∀ a b, e = .bin .div a b → a.AsksNone m lib t bound ∧ b.AsksNone m lib t bound

/-- What a step's inputs are filled from asks no evaluator. -/
def FilledUnasked (bound : List String) (binds : List (String × Expr)) : Prop :=
  ∀ bind ∈ binds, bind.2.WritesUnasked m lib t bound

mutual

/-- A step's expressions ask no evaluator, and it takes only transitions of
those given: one of a name it calls is of any type. -/
def Step.Unasked (bound : List String) : Step → Prop
  | .assign _ e | .add _ e | .remove _ e | .supersede e => e.WritesUnasked m lib t bound
  | .clear _ => True
  | .create type transition binds _ =>
      FilledUnasked m lib t bound binds ∧ P type transition
  | .call target transition binds =>
      target.WritesUnasked m lib t bound ∧ FilledUnasked m lib t bound binds ∧
        ∀ type, P type transition
  | .foreach item array range filter _ steps =>
      (∀ e ∈ array, e.WritesUnasked m lib t bound) ∧
        (∀ e ∈ range, e.WritesUnasked m lib t bound) ∧
        (∀ e ∈ filter, e.WritesUnasked m lib t (item :: bound)) ∧
        StepsUnasked (item :: bound) steps

/-- An effect's steps, each with the names bound before it. -/
def StepsUnasked (bound : List String) : List Step → Prop
  | [] => True
  | step :: rest => step.Unasked bound ∧ StepsUnasked (step.binding ++ bound) rest

end

/-- Transitions of a library whose guards ask no evaluator, nor, as in no
library, do their effects, and which take only each other: by a step, a
cascade, or what an erasure drives. -/
structure Library.Unasked : Prop where
  guards : ∀ tn xn t x, P tn xn → lib.type? tn = some t → t.transition? xn = some x →
    ∀ g ∈ x.guards, ∀ c, t.condition? g.1 = some c → c.expression.AsksNone m lib t []
  effect : ∀ tn xn t x, P tn xn → lib.type? tn = some t → t.transition? xn = some x →
    StepsUnasked m lib t P [] x.effect
  driven : ∀ tn xn t, P tn xn → lib.type? tn = some t → ∀ entry ∈ t.attributes,
    ∀ clause ∈ entry.2.cascade, clause.on.contains xn = true → ∀ type, P type clause.transition
  forgotten : ∀ tn xn t x, P tn xn → lib.type? tn = some t → t.transition? xn = some x →
    x.kind = .erasure → ∀ kind ∈ t.observations, P kind.2 "forget"
  grouped : ∀ tn xn t x, P tn xn → lib.type? tn = some t → t.transition? xn = some x →
    x.kind = .erasure → ∀ other ot entry, lib.type? other = some ot → entry ∈ ot.transitions →
      entry.2.kind = .erasure → P other entry.1

end

/-! ### A request's context and its check's -/

/-- The context a check of the request would run in. -/
def Ctx.asCheck (ctx : Ctx) : Ctx := { ctx with answers := [], checking := true }

variable {lib : Library}

namespace World

@[simp] theorem lib_keepWritten (w : World) (id : String) : (w.keepWritten id).lib = w.lib := by
  unfold keepWritten
  split <;> rfl

@[simp] theorem lib_change (w : World) (id : String) (f : Object → Object) :
    (w.change id f).lib = w.lib := by
  unfold change
  split
  case h_1 => rfl
  case h_2 => exact lib_keepWritten w id

@[simp] theorem lib_insert (w : World) (o : Object) : (w.insert o).lib = w.lib :=
  lib_keepWritten w o.id

end World

namespace Act

variable {α β : Type}

/-- What a run keeps: the library its store has, and no guard named as left
unevaluated. -/
def Steady (lib : Library) (s : Ctx) : Prop := s.work.lib = lib ∧ s.unevaluated = []

/-- Run from a check's context, it does what it does from the request's, on a
store whose library is the one given, and names no guard as left unevaluated. -/
def Checks (lib : Library) (p : Act α) : Prop := Program.Commutes Ctx.asCheck (Steady lib) p

theorem Checks.pure (a : α) : Checks lib (Pure.pure a : Act α) := Program.Commutes.pure a

theorem Checks.stop (e : Stop) : Checks lib (Program.stop e : Act α) := Program.Commutes.stop e

theorem Checks.bind {p : Act α} {f : α → Act β} (hp : Checks lib p)
    (hf : ∀ a, Checks lib (f a)) : Checks lib (p >>= f) :=
  Program.Commutes.bind hp hf

theorem Checks.read {f : Ctx → α} (h : ∀ s, f s.asCheck = f s) :
    Checks lib (Program.read f : Act α) :=
  Program.Commutes.read h

theorem Checks.check {f : Ctx → Except Stop α} (h : ∀ s, f s.asCheck = f s) :
    Checks lib (Program.check f) :=
  Program.Commutes.check fun s _ => h s

theorem Checks.modify {f : Ctx → Ctx} (h : ∀ s, f s.asCheck = (f s).asCheck)
    (hlib : ∀ s, (f s).work.lib = s.work.lib)
    (hnamed : ∀ s, (f s).unevaluated = s.unevaluated) :
    Checks lib (Program.modify f : Act Unit) :=
  Program.Commutes.modify h fun s hs => ⟨(hlib s).trans hs.1, (hnamed s).trans hs.2⟩

/-- What is run on the context as it stands, reading neither difference. -/
theorem Checks.inContext {k : Ctx → Act α} (h : ∀ s, k s.asCheck = k s)
    (hk : ∀ s, s.work.lib = lib → Checks lib (k s)) : Checks lib (context >>= k) :=
  Program.Commutes.readThen (fun s _ => h s) fun s hs => hk s hs.1

theorem Checks.mapStop {g : Stop → Stop} {p : Act α} (h : Checks lib p) :
    Checks lib (p.mapStop g) :=
  Program.Commutes.mapStop h

theorem Checks.forM {f : α → Act Unit} (items : List α) (h : ∀ a ∈ items, Checks lib (f a)) :
    Checks lib (items.forM f) :=
  Program.Commutes.forM items h

theorem Checks.notRun (what : String) : Checks lib (notRun what : Act α) := Checks.stop _

theorem Checks.refuse (v : Verdict) : Checks lib (refuse v : Act α) := Checks.stop _

theorem Checks.valueInRange (id : String) : Checks lib (valueInRange id : Act α) := Checks.stop _

end Act

open Act

/-! ### Checks and guards -/

theorem noteRead_checks (r : Reading) : Checks lib (noteRead r) :=
  Checks.modify (fun _ => rfl) (fun _ => rfl) fun _ => rfl

theorem checkRecording_checks (inputs : Table String Value) :
    Checks lib (checkRecording inputs) := by
  unfold checkRecording
  split
  case h_1 subject _ =>
    refine Checks.bind ?_ fun read => Checks.bind (Checks.check fun _ => rfl) fun _ =>
      Checks.pure _
    unfold checkRecorded
    split
    case h_1 =>
      refine Checks.bind (Checks.check fun _ => rfl) fun _ => ?_
      refine Checks.bind (Checks.read fun _ => rfl) fun found => ?_
      refine Checks.bind (noteRead_checks _) fun _ => ?_
      cases (found.flatMap Prod.snd).head? with
      | none => exact Checks.pure _
      | some recorded => exact Checks.stop _
    case h_2 => exact Checks.bind (Checks.check fun _ => rfl) fun _ => Checks.pure _
  case h_2 => exact Checks.pure _

theorem enforce_checks (tn g : String) (c : Condition) (mode : Enforce) (ok : Option Bool)
    (notes : List Note) (after : Guarded) : Checks lib (enforce tn g c mode ok notes after) := by
  refine Checks.inContext (fun _ => rfl) fun s _ => ?_
  cases mode with
  | deny => exact Checks.stop _
  | warn =>
      exact Checks.bind (Checks.modify (fun _ => rfl) (fun _ => rfl) fun _ => rfl) fun _ => Checks.pure _
  | audit => exact Checks.pure _

section

variable {r : Readers} {m : MetricReader} {t : FlowType} {x : Transition}

/-- A guard that asks no evaluator is found to hold, or not, by a check as by
the request. -/
theorem guard_checked {e : Expr} (he : e.AsksNone m lib t []) {s : Ctx} (hs : s.work.lib = lib)
    (oid : Option String) (inputs : Table String Value) (g : String) :
    (s.asCheck.guardEvaluator t x oid inputs g).eval m e =
        (s.guardEvaluator t x oid inputs g).eval m e ∧
      ∀ note ∈ ((s.guardEvaluator t x oid inputs g).eval m e).notes, note.isUnanswered = false := by
  obtain ⟨hsame, hnotes⟩ := he (s.guardEvaluator t x oid inputs g) [] none hs rfl rfl
    fun n hn => by cases hn
  refine ⟨?_, fun note hnote => ?_⟩
  · exact congrArg (fun x : Evaluated Term => x >>= Term.answer) hsame
  · rcases Noted.mem_bind_notes hnote with hfirst | ⟨term, -, hlast⟩
    · exact hnotes note hfirst
    · cases term <;> simp [Term.answer, notRun] at hlast

theorem evaluated_notes {α : Type} {e : Evaluated α} {found : α × List Note}
    (h : evaluated e = .ok found) : found.2 = e.notes := by
  unfold evaluated at h
  split at h
  · cases h
    rfl
  · cases h

/-- The truth of a value notes nothing. -/
theorem truth_notes (v : Value) (note : Note) : note ∉ (truth v).notes := by
  unfold truth
  split
  · exact List.not_mem_nil
  · exact List.not_mem_nil

theorem takeGuard_checks (tn : String) (oid : Option String) (inputs : Table String Value)
    (before : Guarded) (g : String) (mode : Enforce)
    (hg : ∀ c, t.condition? g = some c → c.expression.AsksNone m lib t []) :
    Checks lib (takeGuard m t tn x oid inputs before g mode) := by
  unfold takeGuard
  split
  case h_1 => exact Checks.notRun _
  case h_2 c hc =>
    refine Program.Commutes.checkThen (fun s hs => ?_) fun s found hs hfound => ?_
    · rw [(guard_checked (hg c hc) hs.1 oid inputs g).1]
    · have hanswered : found.2.any Note.isUnanswered = false := by
        rw [evaluated_notes hfound, List.any_eq_false]
        intro note hnote
        rcases Noted.mem_bind_notes hnote with hfirst | ⟨v, -, hlast⟩
        · simp [(guard_checked (hg c hc) hs.1 oid inputs g).2 note hfirst]
        · exact absurd hlast (truth_notes v note)
      refine Checks.bind (noteRead_checks _) fun _ => ?_
      refine Checks.inContext (fun s => ?_) fun s _ => ?_
      · simp only [hanswered, Bool.and_false, Bool.false_eq_true, if_false]
      · simp only [hanswered, Bool.and_false, Bool.false_eq_true, if_false]
        split
        · exact Checks.pure _
        · exact enforce_checks _ _ _ _ _ _ _

theorem takeGuards_checks (tn : String) (oid : Option String) (inputs : Table String Value)
    (guards : List (String × Enforce)) (before : Guarded)
    (hg : ∀ g ∈ guards, ∀ c, t.condition? g.1 = some c → c.expression.AsksNone m lib t []) :
    Checks lib (takeGuards m t tn x oid inputs guards before) := by
  induction guards generalizing before with
  | nil => exact Checks.pure _
  | cons guard rest ih =>
      obtain ⟨g, mode⟩ := guard
      refine Checks.bind ?_ fun after => ih after fun g hmem => hg g (List.mem_cons_of_mem _ hmem)
      exact takeGuard_checks tn oid inputs before g mode (hg (g, mode) List.mem_cons_self)

theorem noteAsserted_checks (oid : Option String) (inputs : Table String Value) :
    Checks lib (noteAsserted x oid inputs) := by
  unfold noteAsserted
  split
  · refine Checks.bind (Checks.check fun _ => rfl) fun admits => ?_
    exact Checks.modify (fun _ => rfl) (fun _ => rfl) fun _ => rfl
  · exact Checks.pure _

theorem checkRecords_checks (xn : String) (inputs : Table String Value) :
    Checks lib (checkRecords t xn inputs) := by
  unfold checkRecords
  split
  · exact checkRecording_checks _
  · exact Checks.pure _

theorem withDefaults_checked (oid : Option String) (s : Ctx) (specs : List (String × Input))
    (inputs : Table String Value) :
    withDefaults m t oid s.asCheck specs inputs = withDefaults m t oid s specs inputs := by
  induction specs generalizing inputs with
  | nil => rfl
  | cons entry rest ih =>
      obtain ⟨k, spec⟩ := entry
      simp only [withDefaults, ih]
      rfl

theorem checked_checks (tn xn : String) (oid : Option String) (inputs : Table String Value)
    (depth : Nat)
    (hg : ∀ g ∈ x.guards, ∀ c, t.condition? g.1 = some c →
      c.expression.AsksNone r.metrics lib t []) :
    Checks lib (checked r t tn xn x oid inputs depth) := by
  refine Checks.bind (Checks.check fun s => ?_) fun inputs => ?_
  · simp only [checkInputs, withDefaults_checked]
    rfl
  refine Checks.bind (noteAsserted_checks oid inputs) fun _ => ?_
  refine Checks.bind (Checks.check fun _ => rfl) fun _ => ?_
  refine Checks.bind (checkRecords_checks xn inputs) fun read => ?_
  refine Checks.bind (Checks.check fun _ => rfl) fun inputs => ?_
  exact Checks.bind (takeGuards_checks _ _ _ _ _ hg) fun guarded => Checks.pure _

end

/-! ### Erasures -/

theorem position_checks : Checks lib Act.position :=
  Program.Commutes.draw (fun _ => rfl) fun _ hs => hs

theorem redactNote_checks (l : String) : Checks lib (redactNote l) := by
  refine Checks.inContext (fun _ => rfl) fun s _ => ?_
  split
  · exact Checks.pure _
  · refine Checks.bind position_checks fun position => ?_
    exact Checks.modify (fun _ => rfl) (fun _ => World.lib_insert _ _) fun _ => rfl

theorem redactOther_checks (cleared : List (String × String × Int)) (id : String)
    (redacted : List String) : Checks lib (redactOther cleared id redacted) := by
  refine Checks.inContext (fun _ => rfl) fun s _ => ?_
  split
  · exact Checks.pure _
  · split
    · exact Checks.pure _
    · refine Checks.bind (Checks.modify (fun _ => rfl) (fun _ => rfl) fun _ => rfl) fun _ => ?_
      refine Checks.bind position_checks fun position => ?_
      exact Checks.modify (fun _ => rfl) (fun _ => World.lib_insert _ _) fun _ => rfl

theorem redactOthers_checks (erased : String) (since : Nat) :
    Checks lib (redactOthers erased since) := by
  refine Checks.inContext (fun _ => rfl) fun s _ => ?_
  refine Checks.bind (Checks.modify (fun _ => rfl) (fun _ => rfl) fun _ => rfl) fun _ => ?_
  exact Checks.forM _ fun entry _ => redactOther_checks _ _ _

theorem proposalRedacted_checks (pt : FlowType) (p : Object) (state left transition : String)
    (redacted erased : List String) :
    Checks lib (proposalRedacted pt p state left transition redacted erased) := by
  refine Checks.bind position_checks fun position => ?_
  exact Checks.modify (fun _ => rfl) (fun _ => World.lib_insert _ _) fun _ => rfl

theorem invalidateProposals_checks (r : Readers) (erased : String) :
    Checks lib (invalidateProposals r erased) := by
  refine Checks.inContext (fun _ => rfl) fun s _ => ?_
  split
  · exact Checks.pure _
  · refine Checks.bind (Checks.forM _ fun id _ => ?_) fun _ => ?_
    · refine Checks.inContext (fun _ => rfl) fun s _ => ?_
      split
      · exact Checks.pure _
      · exact proposalRedacted_checks _ _ _ _ _ _ _
    · refine Checks.inContext (fun _ => rfl) fun s _ => Checks.forM _ fun id _ => ?_
      refine Checks.inContext (fun _ => rfl) fun s _ => ?_
      split
      · exact Checks.pure _
      · split
        · exact Checks.pure _
        · exact proposalRedacted_checks _ _ _ _ _ _ _

theorem eraseObject_checks (r : Readers) (t : FlowType) (o : Object) :
    Checks lib (eraseObject r t o) := by
  refine Checks.inContext (fun _ => rfl) fun s _ => ?_
  refine Checks.bind (Checks.modify (fun _ => rfl) (fun _ => rfl) fun _ => rfl) fun _ => ?_
  refine Checks.bind (redactOthers_checks _ _) fun _ => ?_
  refine Checks.bind (Checks.modify (fun _ => rfl) (fun _ => rfl) fun _ => rfl) fun _ => ?_
  exact Checks.bind (invalidateProposals_checks r _) fun _ => Checks.pure _

/-! ### Effects and cascades -/

section

variable (r : Readers) {t : FlowType} (id : String) (inputs : Table String Value)
  (position : Int)

/-- The names given are bound. -/
def Binds (bound : List String) (env : Env) : Prop := ∀ n ∈ bound, (Table.get? env n).isSome

theorem Binds.set {bound : List String} {env : Env} (h : Binds bound env) (n : String) (v : Value) :
    Binds (n :: bound) (Table.set env n v) := by
  intro k hk
  by_cases hkn : n = k
  · subst hkn
    rw [Table.get?_set_self]
    rfl
  · rw [Table.get?_set_of_ne _ _ hkn]
    rcases List.mem_cons.mp hk with rfl | hmem
    · exact absurd rfl hkn
    · exact h k hmem

theorem evaluating_checks {α : Type} {f : Ctx → Evaluated α}
    (h : ∀ s, s.work.lib = lib → f s.asCheck = f s) : Checks lib (evaluating f) := by
  refine Program.Commutes.readThen (fun s hs => ?_) fun s _ => ?_
  · rw [h s hs.1]
  · exact Checks.bind (Checks.modify (fun _ => rfl) (fun _ => rfl) fun _ => rfl) fun _ =>
      Checks.check fun _ => rfl

/-- The value of an expression that asks none is the same whatever the
evaluators answer. -/
theorem Expr.AsksNone.value {m : MetricReader} {bound : List String} {e : Expr}
    (he : e.AsksNone m lib t bound) (ev : Evaluator) {env : Env}
    (answers : Option (Table String String)) (hlib : ev.world.lib = lib) (ht : ev.type = some t)
    (hmetrics : ev.metrics = true) (henv : Binds bound env) :
    (Evaluator.meaning m e).value { ev with answers } env =
      (Evaluator.meaning m e).value ev env :=
  congrArg (fun x : Evaluated Term => x >>= Term.toValue)
    (he ev env answers hlib ht hmetrics henv).1

/-- A quotient divided once, of sides that ask none. -/
theorem quotientAt_asksNone {m : MetricReader} {bound : List String} {a b : Expr}
    (ha : a.AsksNone m lib t bound) (hb : b.AsksNone m lib t bound) (scale : Nat) (ev : Evaluator)
    {env : Env} (answers : Option (Table String String)) (hlib : ev.world.lib = lib)
    (ht : ev.type = some t) (hmetrics : ev.metrics = true) (henv : Binds bound env) :
    quotientAt a b (Evaluator.meaning m a) (Evaluator.meaning m b) scale { ev with answers } env =
      quotientAt a b (Evaluator.meaning m a) (Evaluator.meaning m b) scale ev env := by
  have hsides : operands a b (Evaluator.meaning m a) (Evaluator.meaning m b) { ev with answers } env
      = operands a b (Evaluator.meaning m a) (Evaluator.meaning m b) ev env := by
    unfold operands
    rw [ha.value ev answers hlib ht hmetrics henv, hb.value ev answers hlib ht hmetrics henv]
  unfold quotientAt
  rw [hsides]
  rfl

theorem effectValue_checks {bound : List String} {env : Env} (henv : Binds bound env) {e : Expr}
    (he : e.WritesUnasked r.metrics lib t bound) (how : Evaluating) :
    Checks lib (effectValue r t id inputs position env e how) := by
  refine Checks.bind (evaluating_checks fun s hs => ?_) fun found => ?_
  · let ev : Evaluator := { s.effectEvaluator t id inputs with
      answers := some s.answers
      event := some position }
    dsimp only
    split
    case h_1 => exact he.1.value { ev with filterMode := true } (some []) hs rfl rfl henv
    case h_2 scale a b =>
      obtain ⟨ha, hb⟩ := he.2 a b rfl
      exact quotientAt_asksNone ha hb scale ev (some []) hs rfl rfl henv
    case h_3 => exact he.1.value ev (some []) hs rfl rfl henv
  · cases how with
    | filtering => exact Checks.pure _
    | plain =>
        dsimp only
        split
        · exact Checks.valueInRange _
        · exact Checks.pure _
    | writtenAt scale =>
        dsimp only
        split
        · exact Checks.valueInRange _
        · exact Checks.pure _

theorem changeAttrs_checks (f : Table String Value → Table String Value) (names : List String) :
    Checks lib (Program.modify fun ctx => (ctx.changeAttrs id f).noteWrote id names) :=
  Checks.modify (fun _ => rfl) (fun _ => World.lib_change _ _ _) fun _ => rfl

theorem assign_checks {bound : List String} {env : Env} (henv : Binds bound env) {e : Expr}
    (he : e.WritesUnasked r.metrics lib t bound) (location : String) :
    Checks lib (assign r t id inputs position env location e) := by
  refine Checks.inContext (fun _ => rfl) fun s _ => ?_
  split
  · exact Checks.pure _
  refine Checks.bind (effectValue_checks r id inputs position henv he _) fun v => ?_
  split
  · exact Checks.valueInRange _
  split
  · exact changeAttrs_checks id _ _
  split
  · exact Checks.valueInRange _
  refine Checks.bind (Checks.check fun _ => rfl) fun v => ?_
  split
  · exact Checks.valueInRange _
  · exact changeAttrs_checks id _ _

theorem addOrRemove_checks {bound : List String} {env : Env} (henv : Binds bound env) {e : Expr}
    (he : e.WritesUnasked r.metrics lib t bound) (adding : Bool) (location : String) :
    Checks lib (addOrRemove r t id inputs position env adding location e) := by
  refine Checks.inContext (fun _ => rfl) fun s _ => ?_
  split
  · exact Checks.pure _
  refine Checks.bind (effectValue_checks r id inputs position henv he _) fun v => ?_
  dsimp only
  split
  · exact Checks.valueInRange _
  · exact changeAttrs_checks id _ _

theorem arguments_checks {bound : List String} {env : Env} (henv : Binds bound env)
    {binds : List (String × Expr)} (hbinds : FilledUnasked r.metrics lib t bound binds) :
    Checks lib (arguments r t id inputs position env binds) := by
  induction binds with
  | nil => exact Checks.pure _
  | cons bind rest ih =>
      obtain ⟨k, e⟩ := bind
      have hrest := ih fun b hb => hbinds b (List.mem_cons_of_mem _ hb)
      refine Checks.inContext (fun _ => rfl) fun s _ => ?_
      split
      · exact hrest
      refine Checks.bind (effectValue_checks r id inputs position henv
        (hbinds (k, e) List.mem_cons_self) _) fun v => ?_
      exact Checks.bind hrest fun others => Checks.pure _

theorem itemsGiven_checks {bound : List String} {env : Env} (henv : Binds bound env)
    {array range : Option Expr} (harray : ∀ e ∈ array, e.WritesUnasked r.metrics lib t bound)
    (hrange : ∀ e ∈ range, e.WritesUnasked r.metrics lib t bound) :
    Checks lib (itemsGiven r t id inputs position env array range) := by
  unfold itemsGiven
  split
  case h_1 n =>
    refine Checks.bind (effectValue_checks r id inputs position henv (hrange n rfl) _) fun v => ?_
    split <;> exact Checks.pure _
  case h_2 a =>
    refine Checks.bind (effectValue_checks r id inputs position henv (harray a rfl) _) fun v => ?_
    split
    · exact Checks.pure _
    · exact Checks.notRun _
  case h_3 => exact Checks.pure _

theorem keptItems_checks {bound : List String} {env : Env} (henv : Binds bound env)
    {item : String} {f : Expr} (hf : f.WritesUnasked r.metrics lib t (item :: bound))
    (items : List Value) : Checks lib (keptItems r t id inputs position env item f items) := by
  induction items with
  | nil => exact Checks.pure _
  | cons i rest ih =>
      refine Checks.bind (effectValue_checks r id inputs position (henv.set item i) hf _)
        fun v => ?_
      exact Checks.bind (Checks.check fun _ => rfl) fun keep =>
        Checks.bind ih fun others => Checks.pure _

theorem looped_checks {bound : List String} {env : Env} (henv : Binds bound env) {item : String}
    {array range filter : Option Expr}
    (harray : ∀ e ∈ array, e.WritesUnasked r.metrics lib t bound)
    (hrange : ∀ e ∈ range, e.WritesUnasked r.metrics lib t bound)
    (hfilter : ∀ e ∈ filter, e.WritesUnasked r.metrics lib t (item :: bound)) (limit : Int) :
    Checks lib (looped r t id inputs position env item array range filter limit) := by
  refine Checks.bind ?_ fun items => Checks.bind ?_ fun kept => ?_
  · refine Checks.bind (itemsGiven_checks r id inputs position henv harray hrange) fun items => ?_
    exact Checks.inContext (fun _ => rfl) fun s _ => Checks.pure _
  · unfold filteredItems
    split
    case h_1 f => exact keptItems_checks r id inputs position henv (hfilter f rfl) items
    case h_2 => exact Checks.pure _
  · split
    · exact Checks.refuse _
    · exact Checks.pure _

theorem supersede_checks {bound : List String} {env : Env} (henv : Binds bound env) {e : Expr}
    (he : e.WritesUnasked r.metrics lib t bound) :
    Checks lib (supersede r t id inputs position env e) := by
  refine Checks.bind (effectValue_checks r id inputs position henv he _) fun v => ?_
  split
  · exact Checks.modify (fun _ => rfl) (fun _ => World.lib_change _ _ _) fun _ => rfl
  · exact Checks.notRun _

variable {P : String → String → Prop} {below : TakeBelow}
  (hbelow : ∀ tn xn oid inputs, P tn xn → Checks lib (below tn xn oid inputs))

include hbelow

theorem create_checks {bound : List String} {env : Env} (henv : Binds bound env)
    {type transition : String} {binds : List (String × Expr)}
    (hbinds : FilledUnasked r.metrics lib t bound binds) (hP : P type transition)
    (result : Option String) :
    Checks lib (create r t id inputs position below env type transition binds result) := by
  refine Checks.bind (arguments_checks r id inputs position henv hbinds) fun values => ?_
  exact Checks.bind (hbelow _ _ _ _ hP).mapStop fun made => Checks.pure _

theorem call_checks {bound : List String} {env : Env} (henv : Binds bound env) {target : Expr}
    {transition : String} {binds : List (String × Expr)}
    (htarget : target.WritesUnasked r.metrics lib t bound)
    (hbinds : FilledUnasked r.metrics lib t bound binds) (hP : ∀ type, P type transition) :
    Checks lib (call r t id inputs position below env target transition binds) := by
  refine Checks.bind (effectValue_checks r id inputs position henv htarget _) fun v => ?_
  refine Checks.inContext (fun _ => rfl) fun s _ => ?_
  split
  · exact Checks.pure _
  · split
    · exact Checks.notRun _
    · refine Checks.bind (arguments_checks r id inputs position henv hbinds) fun values => ?_
      exact Checks.bind (hbelow _ _ _ _ (hP _)).mapStop fun _ => Checks.pure _
  · exact Checks.notRun _

end

/-- The names a step binds are bound after it. -/
theorem step_binds (r : Readers) (t : FlowType) (id : String) (inputs : Table String Value)
    (position : Int) (below : TakeBelow) {bound : List String} {env : Env}
    (henv : Binds bound env) (step : Step) :
    Program.Yields (Binds (step.binding ++ bound)) (step.run r t id inputs position below env) := by
  cases step with
  | create type transition binds result =>
      refine Program.Yields.bind fun values => Program.Yields.bind fun made => ?_
      cases result with
      | none => exact Program.Yields.pure henv
      | some name => exact Program.Yields.pure (henv.set name _)
  | foreach item array range filter limit steps =>
      exact Program.Yields.bind fun _ => Program.Yields.bind fun _ => Program.Yields.pure henv
  | _ => exact Program.Yields.bind fun _ => Program.Yields.pure henv

section

variable (r : Readers) {t : FlowType} (id : String) (inputs : Table String Value)
  (position : Int) {P : String → String → Prop} {below : TakeBelow}

mutual

theorem step_checks {bound : List String} {env : Env} (henv : Binds bound env)
    (hbelow : ∀ tn xn oid inputs, P tn xn → Checks lib (below tn xn oid inputs)) :
    ∀ step : Step, step.Unasked r.metrics lib t P bound →
      Checks lib (step.run r t id inputs position below env)
  | .assign location _, h =>
      Checks.bind (assign_checks r id inputs position henv h location) fun _ => Checks.pure _
  | .clear names, _ => Checks.bind (changeAttrs_checks id _ names) fun _ => Checks.pure _
  | .add location _, h =>
      Checks.bind (addOrRemove_checks r id inputs position henv h true location) fun _ =>
        Checks.pure _
  | .remove location _, h =>
      Checks.bind (addOrRemove_checks r id inputs position henv h false location) fun _ =>
        Checks.pure _
  | .create _ _ _ result, h =>
      create_checks r id inputs position hbelow henv h.1 h.2 result
  | .call _ _ _, h =>
      Checks.bind (call_checks r id inputs position hbelow henv h.1 h.2.1 h.2.2) fun _ =>
        Checks.pure _
  | .foreach item _ _ _ limit steps, h =>
      Checks.bind (looped_checks r id inputs position henv h.1 h.2.1 h.2.2.1 limit) fun items =>
        Checks.bind (Checks.forM items fun i _ =>
          runSteps_checks (henv.set item i) hbelow steps h.2.2.2) fun _ => Checks.pure _
  | .supersede _, h =>
      Checks.bind (supersede_checks r id inputs position henv h) fun _ => Checks.pure _

/-- **An effect that asks no evaluator** does in a check what it does in the
request. -/
theorem runSteps_checks {bound : List String} {env : Env} (henv : Binds bound env)
    (hbelow : ∀ tn xn oid inputs, P tn xn → Checks lib (below tn xn oid inputs)) :
    ∀ steps : List Step, StepsUnasked r.metrics lib t P bound steps →
      Checks lib (runSteps r t id inputs position below env steps)
  | [], _ => Checks.pure _
  | step :: rest, h =>
      Program.Commutes.bindYields (step_checks henv hbelow step h.1)
        (step_binds r t id inputs position below henv step)
        fun _ hbinds => runSteps_checks hbinds hbelow rest h.2

end

theorem passedDown_checks (binds : List (String × Expr)) :
    Checks lib (passedDown r t id inputs binds) := by
  induction binds with
  | nil => exact Checks.pure _
  | cons bind rest ih =>
      obtain ⟨k, e⟩ := bind
      refine Checks.bind (evaluating_checks fun _ _ => rfl) fun found => ?_
      exact Checks.bind ih fun others => Checks.pure _

variable (hbelow : ∀ tn xn oid inputs, P tn xn → Checks lib (below tn xn oid inputs))

include hbelow

theorem cascade_checks (an : String) (clause : CascadeClause)
    (hP : ∀ type, P type clause.transition) :
    Checks lib (cascade r t id inputs below an clause) := by
  refine Checks.bind (evaluating_checks fun _ _ => rfl) fun found => ?_
  refine Checks.inContext (fun _ => rfl) fun s _ => ?_
  dsimp only
  split
  · exact Checks.refuse _
  · refine Checks.forM _ fun p _ => ?_
    refine Checks.bind (passedDown_checks r id inputs clause.inputs) fun values => ?_
    exact Checks.bind (hbelow _ _ _ _ (hP _)).mapStop fun _ => Checks.pure _

theorem cascades_checks (xn : String)
    (hP : ∀ entry ∈ t.attributes, ∀ clause ∈ entry.2.cascade, clause.on.contains xn = true →
      ∀ type, P type clause.transition) :
    Checks lib (cascades r t id inputs below xn) := by
  refine Checks.forM _ fun ⟨an, a⟩ hentry => ?_
  dsimp only
  split
  · refine Checks.forM _ fun clause hclause => ?_
    obtain ⟨hmem, hon⟩ := List.mem_filter.mp hclause
    exact cascade_checks r id inputs hbelow _ clause (hP (an, a) hentry clause hmem hon)
  · exact Checks.pure _

theorem forgetObservations_checks (hP : ∀ kind ∈ t.observations, P kind.2 "forget") :
    Checks lib (forgetObservations t id inputs below) := by
  refine Checks.bind (Checks.forM _ fun kind hkind => ?_) fun _ => ?_
  · refine Checks.inContext (fun _ => rfl) fun s _ => ?_
    split
    · exact Checks.pure _
    · exact Checks.forM _ fun x _ => Checks.bind (hbelow _ _ _ _ (hP kind hkind)) fun _ =>
        Checks.pure _
  · exact Checks.inContext (fun _ => rfl) fun s _ =>
      Checks.forM _ fun l _ => redactNote_checks _

theorem eraseMember_checks
    (hP : ∀ other ot entry, lib.type? other = some ot → entry ∈ ot.transitions →
      entry.2.kind = .erasure → P other entry.1) (o : Object) :
    Checks lib (eraseMember inputs below o) := by
  refine Checks.inContext (fun _ => rfl) fun s hs => ?_
  split
  · exact Checks.pure _
  dsimp only
  cases htype : s.work.lib.type? o.type with
  | none => exact Checks.pure _
  | some ot =>
      split
      case h_1 => exact Checks.pure _
      case h_2 entry hfound =>
        refine Checks.bind (Checks.mapStop (hbelow _ _ _ _ ?_)) fun _ => Checks.pure _
        refine hP o.type ot _ (hs ▸ htype) (List.mem_of_find?_eq_some hfound) ?_
        simpa using List.find?_some hfound

theorem eraseChain_checks
    (hP : ∀ other ot entry, lib.type? other = some ot → entry ∈ ot.transitions →
      entry.2.kind = .erasure → P other entry.1) :
    Checks lib (eraseChain id inputs below) := by
  refine Checks.inContext (fun _ => rfl) fun s _ => ?_
  split
  · exact Checks.pure _
  refine Checks.bind (Checks.modify (fun _ => rfl) (fun _ => rfl) fun _ => rfl) fun _ => ?_
  refine Checks.bind (Checks.forM _ fun o _ => eraseMember_checks inputs hbelow hP o) fun _ => ?_
  exact Checks.modify (fun _ => rfl) (fun _ => rfl) fun _ => rfl

theorem eraseFurther_checks (x : Transition)
    (hforgotten : x.kind = .erasure → ∀ kind ∈ t.observations, P kind.2 "forget")
    (hgrouped : x.kind = .erasure → ∀ other ot entry, lib.type? other = some ot →
      entry ∈ ot.transitions → entry.2.kind = .erasure → P other entry.1) :
    Checks lib (eraseFurther t x id inputs below) := by
  unfold eraseFurther
  split
  case isTrue hkind =>
    exact Checks.bind (forgetObservations_checks id inputs hbelow (hforgotten hkind)) fun _ =>
      eraseChain_checks id inputs hbelow (hgrouped hkind)
  case isFalse => exact Checks.pure _

end

end ObjectFlow
