import ObjectFlow.Checking
import ObjectFlow.Resent

/-!
# What a check answers

The verdict a check gives is the verdict the request would be given: one
transition is taken alike in both, with everything it causes, so are the
invariants judged, and the request decided.  A key its actor applied before is
the request's alone: it is answered what was recorded, where the check, which
is given none, decides anew.
-/

namespace ObjectFlow

open Base
open Act

variable {lib : Library}

/-! ### What a check answers -/

/-- A check's answer: the verdict the request would receive, and the guards it
left unevaluated. -/
structure Checked where
  told : Told
  unevaluated : List String := []

/-- The guards the transition a check takes leaves unevaluated. -/
def unevaluatedBy (r : Readers) (w : World) (alloc : Counters) (req : Request)
    (filedAt cause : Option Int) : List String :=
  match asked r w req with
  | .error _ => []
  | .ok a => (carried r req a (Ctx.start w alloc req a [] true filedAt cause)).2.unevaluated

/-- The guards a check of a request leaves unevaluated: none where it takes no
transition, and for an approval those of the request its proposal holds. -/
def unevaluatedOf (r : Readers) (w : World) (alloc : Counters) (req : Request) : List String :=
  let target := req.objectId.bind w.get
  let deciding := target.any (·.type = PROPOSAL)
  let changing := target.any (·.type = DECLARATION_CHANGE) ||
    (req.objectId.isNone && req.type = some DECLARATION_CHANGE)
  if req.propose || changing then []
  else if deciding then
    match decidable' w req with
    | .error _ => []
    | .ok (_, p, _, state) =>
        if state ≠ "EXECUTED" then []
        else
          let position := alloc.position + 1
          unevaluatedBy r w { alloc with position } (heldRequest r req p) (p.time "filed_at")
            (some position)
  else unevaluatedBy r w alloc req none none

namespace KeyedStore

/-- The verdict a request would receive, simulated on the store as it stands:
no key is looked up, no earlier version loaded, no evaluator asked and nothing
written. -/
def check (r : Readers) (s : KeyedStore) (now : Int) (attempts : Table String (List Value))
    (req : Request) : Checked :=
  let w := s.opened now attempts
  match (decide' r w s.drawing req [] true).1 with
  | .ok (v, _) => ⟨.verdict v {}, unevaluatedOf r w s.drawing req⟩
  | .error (.refused v refusal) => ⟨.verdict v refusal, unevaluatedOf r w s.drawing req⟩
  | .error (.notRun e) => ⟨.notRun e, []⟩

end KeyedStore

/-- What a caller is told, a call refused on an object the store does not hold
naming none. -/
def Told.unmade (w : World) : Told → Told
  | .verdict v refusal => .verdict (v.unmade w) refusal
  | other => other

/-! ### One transition -/

section

variable (r : Readers)

theorem insert_checks (o : Object) : Checks lib (Act.insert o) :=
  Checks.modify (fun _ => rfl) (fun _ => World.lib_insert _ _) fun _ => rfl

theorem drawNumber_checks (scope : Scope) : Checks lib (drawNumber scope) := by
  refine Checks.inContext (fun _ => rfl) fun s _ => ?_
  split
  · exact Checks.stop _
  · exact Checks.bind (Checks.modify (fun _ => rfl) (fun _ => rfl) fun _ => rfl) fun _ => Checks.pure _

theorem mintEach_checks (t : FlowType) (attrs : List (String × Attribute)) (o : Object) :
    Checks lib (mintEach r t attrs o) := by
  induction attrs generalizing o with
  | nil => exact Checks.pure _
  | cons entry rest ih =>
      obtain ⟨a, spec⟩ := entry
      unfold mintEach
      split
      · exact ih o
      · refine Checks.bind (Checks.check fun _ => rfl) fun scope => ?_
        refine Checks.bind (drawNumber_checks _) fun n => ?_
        refine Checks.bind (insert_checks o) fun _ => ?_
        exact Checks.bind (Checks.check fun _ => rfl) fun text => ih _

theorem mintedFirst_checks (t : FlowType) (created : Bool) (o : Object) :
    Checks lib (mintedFirst r t created o) := by
  unfold mintedFirst
  split
  · exact Checks.bind (mintEach_checks r t _ o) fun o =>
      Checks.bind (insert_checks o) fun _ => Checks.pure _
  · exact Checks.pure _

theorem withAttributeDefaults_checks (t : FlowType) (inputs : Table String Value)
    (attrs : List (String × Attribute)) (o : Object) :
    Checks lib (withAttributeDefaults r t inputs attrs o) := by
  induction attrs generalizing o with
  | nil => exact Checks.pure _
  | cons entry rest ih =>
      obtain ⟨a, spec⟩ := entry
      unfold withAttributeDefaults
      split
      · exact ih o
      · refine Checks.bind (Checks.check fun _ => rfl) fun v => ?_
        split
        · exact ih o
        · exact Checks.bind (Checks.check fun _ => rfl) fun v => ih _

theorem createObject_checks (t : FlowType) (tn xn : String) (x : Transition)
    (inputs : Table String Value) : Checks lib (createObject r t tn xn x inputs) := by
  unfold createObject
  split
  · exact Checks.notRun _
  · refine Checks.bind (Program.Commutes.draw (fun _ => rfl) fun _ hs => hs) fun id => ?_
    refine Checks.inContext (fun _ => rfl) fun s _ => ?_
    refine Checks.bind (insert_checks _) fun _ => ?_
    refine Checks.bind (withAttributeDefaults_checks r t inputs _ _) fun o => ?_
    exact Checks.bind (Checks.modify (fun _ => rfl) (fun _ => rfl) fun _ => rfl) fun _ => Checks.pure _

theorem beginOutcome_checks (t : FlowType) (tn xn : String) (x : Transition)
    (oid : Option String) (inputs : Table String Value) (guarded : Guarded) :
    Checks lib (beginOutcome r t tn xn x oid inputs guarded) := by
  refine Checks.inContext (fun _ => rfl) fun s _ => ?_
  refine Checks.bind position_checks fun position => ?_
  refine Checks.bind (Checks.modify (fun _ => rfl) (fun _ => rfl) fun _ => rfl) fun _ => ?_
  refine Checks.bind ?_ fun object => ?_
  · unfold heldOrMade
    split
    · exact Checks.pure _
    · exact createObject_checks r t tn xn x inputs
  · exact Checks.bind (Checks.modify (fun _ => rfl) (fun _ => rfl) fun _ => rfl) fun _ => Checks.pure _

theorem outcome_checks (t : FlowType) (tn xn : String) (x : Transition)
    (inputs : Table String Value) (b : Begun) : Checks lib (outcome r t tn xn x inputs b) := by
  refine Checks.bind ?_ fun o => ?_
  · unfold erasedFirst
    split
    · exact eraseObject_checks r t _
    · exact Checks.pure _
  refine Checks.bind (Checks.check fun _ => rfl) fun o => ?_
  refine Checks.bind (Checks.modify (fun _ => rfl) (fun _ => rfl) fun _ => rfl) fun _ => ?_
  refine Checks.bind (mintedFirst_checks r t _ o) fun o => ?_
  refine Checks.inContext (fun _ => rfl) fun s _ => ?_
  exact Checks.bind (insert_checks _) fun _ => Checks.pure _

theorem setIndex_steady (rows : List (String × String)) (position : Int) (s : Ctx) :
    (s.setIndex rows position).work.lib = s.work.lib ∧
      (s.setIndex rows position).unevaluated = s.unevaluated := by
  unfold Ctx.setIndex
  induction rows generalizing s with
  | nil => exact ⟨rfl, rfl⟩
  | cons row rest ih =>
      obtain ⟨hlib, hnamed⟩ := ih { s with
        work := s.work.change row.1 fun o => { o with writes := Table.set o.writes row.2 position }
        index := s.index ++ [(row.1, row.2, position)] }
      exact ⟨hlib.trans (World.lib_change _ _ _), hnamed⟩

theorem setIndex_checked (rows : List (String × String)) (position : Int) (s : Ctx) :
    s.asCheck.setIndex rows position = (s.setIndex rows position).asCheck := by
  unfold Ctx.setIndex
  induction rows generalizing s with
  | nil => rfl
  | cons row rest ih =>
      rw [List.foldl_cons, List.foldl_cons, ← ih]
      rfl

/-- The rows of a transition's index set in a check's context. -/
theorem recordRow_checked (t : FlowType) (xn : String) (b : Begun) (o : Object)
    (merged : List (String × String × Int × Int × Int)) (id : String) (s : Ctx) :
    recordRow t xn b o merged id s.asCheck = (recordRow t xn b o merged id s).asCheck ∧
      (recordRow t xn b o merged id s).work.lib = s.work.lib ∧
      (recordRow t xn b o merged id s).unevaluated = s.unevaluated := by
  unfold recordRow
  dsimp only
  refine ⟨?_, ?_, ?_⟩
  · rw [← setIndex_checked]
    rfl
  · exact (setIndex_steady _ _ _).1.trans (World.lib_change _ _ _)
  · exact (setIndex_steady _ _ _).2

/-- A transition's event is the same in a check's context. -/
theorem record_checked (t : FlowType) (xn : String) (x : Transition)
    (inputs : Table String Value) (b : Begun) (id : String) (s : Ctx) :
    record t xn x inputs b id s.asCheck = (record t xn x inputs b id s).map Ctx.asCheck ∧
      ∀ u, record t xn x inputs b id s = .ok u →
        u.work.lib = s.work.lib ∧ u.unevaluated = s.unevaluated := by
  unfold record
  dsimp only [Ctx.asCheck]
  cases s.work.get id with
  | none => exact ⟨rfl, fun u h => by cases h⟩
  | some held =>
      dsimp only
      split
      · exact ⟨rfl, fun u h => by cases h⟩
      · obtain ⟨hrow, hsteady⟩ := recordRow_checked t xn b _ _ id s
        refine ⟨congrArg Except.ok ?_, fun u h => ?_⟩
        · exact (congrArg (recordLast t xn x inputs b _ _ id) hrow).trans rfl
        · cases h
          exact hsteady

theorem recordEvent_checks (t : FlowType) (xn : String) (x : Transition)
    (inputs : Table String Value) (b : Begun) (id : String) :
    Checks lib (recordEvent t xn x inputs b id) := by
  intro s hs
  obtain ⟨hsame, hsteady⟩ := record_checked t xn x inputs b id s
  unfold recordEvent
  simp only [Program.bind_run, Program.check, hsame]
  cases hrecord : record t xn x inputs b id s with
  | error e => exact ⟨rfl, hs⟩
  | ok u =>
      obtain ⟨hlib, hnamed⟩ := hsteady u hrecord
      exact ⟨rfl, hlib.trans hs.1, hnamed.trans hs.2⟩

variable {P : String → String → Prop}

theorem followThrough_checks {below : TakeBelow}
    (hbelow : ∀ tn xn oid inputs, P tn xn → Checks lib (below tn xn oid inputs))
    (hP : lib.Unasked r.metrics P) {t : FlowType} {tn xn : String} {x : Transition}
    (htaken : P tn xn) (ht : lib.type? tn = some t) (hx : t.transition? xn = some x) (id : String)
    (inputs : Table String Value) (position : Int) :
    Checks lib (followThrough r t xn x id inputs position below) := by
  refine Checks.bind (runSteps_checks r id inputs position (fun n hn => by cases hn) hbelow _
    (hP.effect tn xn t x htaken ht hx)) fun _ => ?_
  refine Checks.bind (cascades_checks r id inputs hbelow xn (hP.driven tn xn t htaken ht))
    fun _ => ?_
  refine Checks.bind (Checks.check fun _ => rfl) fun _ => ?_
  refine Checks.bind (Checks.check fun _ => rfl) fun _ => ?_
  exact eraseFurther_checks id inputs hbelow x (hP.forgotten tn xn t x htaken ht hx)
    (hP.grouped tn xn t x htaken ht hx)

theorem takeUnwound_checks {below : TakeBelow}
    (hbelow : ∀ tn xn oid inputs, P tn xn → Checks lib (below tn xn oid inputs))
    (hP : lib.Unasked r.metrics P) (depth : Nat) {tn xn : String} (htaken : P tn xn)
    (oid : Option String) (inputs : Table String Value) :
    Checks lib (takeUnwound r below depth tn xn oid inputs) := by
  refine Checks.inContext (fun _ => rfl) fun s hs => ?_
  split
  · exact Checks.notRun _
  case h_2 t ht =>
    rw [hs] at ht
    split
    · exact Checks.refuse _
    case h_2 x hfound =>
      have hx := Option.eq_some_of_filter_eq_some hfound
      split
      · exact Checks.notRun _
      · refine Checks.bind (checked_checks tn xn oid inputs depth
          (hP.guards tn xn t x htaken ht hx)) fun found => ?_
        refine Checks.bind (beginOutcome_checks r t tn xn x oid _ _) fun b => ?_
        refine Checks.bind (outcome_checks r t tn xn x _ b) fun id => ?_
        refine Checks.bind (followThrough_checks r hbelow hP htaken ht hx id _ _) fun _ => ?_
        exact Checks.bind (recordEvent_checks t xn x _ b id) fun _ => Checks.pure _

theorem noted_checks {tn xn : String} {p : Act String} (h : Checks lib p) :
    Checks lib (noted tn xn p) := by
  refine Checks.bind (Checks.modify (fun _ => rfl) (fun _ => rfl) fun _ => rfl) fun _ => ?_
  refine Checks.bind h fun id => ?_
  exact Checks.bind (Checks.modify (fun _ => rfl) (fun _ => rfl) fun _ => rfl) fun _ => Checks.pure _

/-- **A transition whose guards ask no evaluator**, nor those of any it causes,
does in a check what it does in the request. -/
theorem take_checks (hP : lib.Unasked r.metrics P) (left depth : Nat) (tn xn : String)
    (oid : Option String) (inputs : Table String Value) (htaken : P tn xn) :
    Checks lib (take r left depth tn xn oid inputs) := by
  induction left generalizing depth tn xn oid inputs with
  | zero =>
      exact Checks.bind (Checks.check fun _ => rfl) fun _ => noted_checks (Checks.notRun _)
  | succ left ih =>
      refine Checks.bind (Checks.check fun _ => rfl) fun _ => noted_checks ?_
      exact takeUnwound_checks r (fun tn xn oid inputs h => ih (depth + 1) tn xn oid inputs h) hP
        depth htaken oid inputs

/-! ### The invariants and the decision -/

theorem judge_checks (first : Int) (reason : String) (id : String) (j : Judged) :
    Checks lib (judge r first reason id j) := by
  refine Checks.inContext (fun _ => rfl) fun s _ => ?_
  split
  · exact Checks.pure _
  · refine Checks.bind (Checks.check fun _ => rfl) fun found => ?_
    refine Checks.bind (Checks.modify (fun _ => rfl) (fun _ => rfl) fun _ => rfl) fun _ => ?_
    refine Checks.inContext (fun _ => rfl) fun s _ => ?_
    dsimp only
    split
    · exact Checks.pure _
    · exact Checks.bind (Checks.modify (fun _ => rfl) (fun _ => World.lib_change _ _ _)
        fun _ => rfl) fun _ => Checks.pure _

theorem judgeAll_checks (first : Int) (reason : String) (ids : List String) (j : Judged) :
    Checks lib (judgeAll r first reason ids j) := by
  induction ids generalizing j with
  | nil => exact Checks.pure _
  | cons id rest ih => exact Checks.bind (judge_checks r first reason id j) ih

theorem withRefusedReads_checked (s : Ctx) (e : Stop) :
    withRefusedReads s.asCheck e = withRefusedReads s e := by
  cases e <;> rfl

theorem carried_checks (hP : lib.Unasked r.metrics P) (req : Request) (a : Asked)
    (htaken : P a.typeName req.transition) : Checks lib (carried r req a) := by
  refine Checks.bind ?_ fun root => Checks.inContext (fun _ => rfl) fun s _ => ?_
  · exact Program.Commutes.tellStop withRefusedReads_checked
      (take_checks r hP _ _ _ _ _ _ htaken)
  refine Checks.bind ?_ fun j => ?_
  · exact Checks.inContext (fun _ => rfl) fun s _ => judgeAll_checks r _ _ _ _
  split
  · exact Checks.check fun _ => rfl
  · exact Program.Commutes.tellStop withRefusedReads_checked (Checks.refuse _)

end

/-- A request takes only transitions whose guards ask no evaluator: its own,
or the one of the request it approves, and those they cause. -/
def Request.AsksNone (r : Readers) (w : World) (req : Request) : Prop :=
  ∃ P, w.lib.Unasked r.metrics P ∧
    (∀ a, asked r w req = .ok a → P a.typeName req.transition) ∧
    ∀ p ∈ req.objectId.bind w.get, p.type = PROPOSAL →
      ∀ a, asked r w (heldRequest r req p) = .ok a → P a.typeName (heldRequest r req p).transition

section

variable {r : Readers} {w : World} {req : Request} {P : String → String → Prop}

theorem decideOrStop_checked (hP : w.lib.Unasked r.metrics P)
    (htaken : ∀ a, asked r w req = .ok a → P a.typeName req.transition) (alloc : Counters)
    (answers : Table String String) (filedAt cause : Option Int) :
    decideOrStop r w alloc req [] true filedAt cause =
      decideOrStop r w alloc req answers false filedAt cause := by
  unfold decideOrStop
  cases ha : asked r w req with
  | error stop => rfl
  | ok a =>
      have hrun := (carried_checks r hP req a (htaken a ha)
        (Ctx.start w alloc req a answers false filedAt cause) ⟨rfl, rfl⟩).1
      dsimp only
      rw [show Ctx.start w alloc req a [] true filedAt cause =
        (Ctx.start w alloc req a answers false filedAt cause).asCheck from rfl, hrun]
      rfl

theorem decideProposal_checked (hP : w.lib.Unasked r.metrics P)
    (htaken : ∀ p ∈ req.objectId.bind w.get, ∀ a, asked r w (heldRequest r req p) = .ok a →
      P a.typeName (heldRequest r req p).transition) (alloc : Counters)
    (answers : Table String String) :
    decideProposal r w alloc req [] true = decideProposal r w alloc req answers false := by
  unfold decideProposal
  cases hd : decidable' w req with
  | error stop => rfl
  | ok found =>
      obtain ⟨who, p, pt, state⟩ := found
      dsimp only
      split
      · rfl
      · rw [decideOrStop_checked hP (htaken p (decidable'_target hd).1)]

/-- What a request's object is, it is of the one it names. -/
theorem held_of_any {q : Object → Bool} {o : Option Object} (h : o.any q = true) {p : Object}
    (hp : p ∈ o) : q p = true := by
  rw [Option.mem_def] at hp
  rw [hp] at h
  exact h

/-- **A request whose guards ask no evaluator** is decided by a check as it is
by the request. -/
theorem decide'_checked (hnone : req.AsksNone r w) (alloc : Counters)
    (answers : Table String String) :
    decide' r w alloc req [] true = decide' r w alloc req answers false := by
  obtain ⟨P, hP, htaken, hheld⟩ := hnone
  unfold decide'
  dsimp only
  rw [decideOrStop_checked hP htaken alloc answers]
  by_cases hdeciding : (req.objectId.bind w.get).any (·.type = PROPOSAL) = true
  · have hheld' : ∀ p ∈ req.objectId.bind w.get, ∀ a, asked r w (heldRequest r req p) = .ok a →
        P a.typeName (heldRequest r req p).transition := by
      intro p hp
      have hproposal := held_of_any hdeciding hp
      exact hheld p hp (by simpa using hproposal)
    rw [decideProposal_checked hP hheld' alloc answers]
  · simp only [hdeciding, Bool.false_eq_true, if_false]

theorem unevaluatedBy_nil (hP : w.lib.Unasked r.metrics P)
    (htaken : ∀ a, asked r w req = .ok a → P a.typeName req.transition) (alloc : Counters)
    (filedAt cause : Option Int) : unevaluatedBy r w alloc req filedAt cause = [] := by
  unfold unevaluatedBy
  cases ha : asked r w req with
  | error stop => rfl
  | ok a =>
      exact (carried_checks r hP req a (htaken a ha)
        (Ctx.start w alloc req a [] true filedAt cause) ⟨rfl, rfl⟩).2.2

theorem unevaluatedOf_nil (hnone : req.AsksNone r w) (alloc : Counters) :
    unevaluatedOf r w alloc req = [] := by
  obtain ⟨P, hP, htaken, hheld⟩ := hnone
  unfold unevaluatedOf
  dsimp only
  split
  · rfl
  · split
    case isTrue hdeciding =>
      cases hd : decidable' w req with
      | error stop => rfl
      | ok found =>
          obtain ⟨who, p, pt, state⟩ := found
          have hp := (decidable'_target hd).1
          dsimp only
          split
          · rfl
          · exact unevaluatedBy_nil hP (hheld p hp (by simpa using held_of_any hdeciding hp)) _ _ _
    case isFalse => exact unevaluatedBy_nil hP htaken _ _ _

end

/-- **A check agrees with its request.**  On a store whose earlier versions are
loaded, a check of a request whose guards ask no evaluator leaves none of them
unevaluated, and is told what the request is at the same instant, whatever the
evaluators answer, where its actor applied nothing under its key: but that a
call refused on an object the request was creating names it, and that the
store may refuse what the request decided to write. -/
theorem check_agrees (r : Readers) (hex : Json → String) {s : KeyedStore} (hloaded : s.loaded = s)
    (now : Int) (attempts : Table String (List Value)) (req : Request)
    (answers : Table String String) (hnone : req.AsksNone r (s.opened now attempts))
    (hkey : ∀ key ∈ KeyedStore.keyOf (s.opened now attempts) req,
      Table.get? s.records key = none) :
    (s.check r now attempts req).unevaluated = [] ∧
      ((s.request r hex now attempts req answers).1 =
          (s.check r now attempts req).told.unmade (s.request r hex now attempts req answers).2.world ∨
        (s.request r hex now attempts req answers).1 = .failed) := by
  have hdecided := decide'_checked hnone s.drawing answers
  have hfresh : ((KeyedStore.keyOf (s.opened now attempts) req).map fun key =>
      (key, KeyedStore.digestOf hex (s.opened now attempts) req key)).bind
        (fun k => (Table.get? s.records k.1).map fun held => (k, held)) = none := by
    cases hof : KeyedStore.keyOf (s.opened now attempts) req with
    | none => rfl
    | some key =>
        show (Table.get? s.records key).map _ = none
        rw [hkey key hof]
        rfl
  unfold KeyedStore.request KeyedStore.check KeyedStore.outcome
  rw [hloaded]
  dsimp only
  rw [hfresh, hdecided, unevaluatedOf_nil hnone]
  rcases decide' r (s.opened now attempts) s.drawing req answers false with
    ⟨(⟨v, refusal⟩ | e) | ⟨v, c⟩, alloc⟩
  · exact ⟨rfl, .inl rfl⟩
  · exact ⟨rfl, .inl rfl⟩
  · refine ⟨rfl, ?_⟩
    dsimp only [KeyedStore.settled, Store.settle]
    cases (s.opened now attempts).write r c with
    | none => exact .inr rfl
    | some world => exact .inl rfl

/-! ### An item locked, and one tagged under a key -/

namespace Locked

/-- An item whose `tag` a guard denies. -/
def item : FlowType :=
  { CallingBack.item with
    conditions := [("locked", { expression := .bool false })]
    transitions := [("tag", { kind := .internal, fromStates := some (.states ["OPEN"])
                              guards := [("locked", .deny)]
                              effect := [.assign "note" (.str "seen")] })] }

def store : KeyedStore :=
  { Retrying.store with
    world := { Retrying.store.world with
               lib := { types := [("Item", item), ("Person", CallingBack.person)] } } }

/-- A tag sent under no key. -/
def tag : Request := { Retrying.tag "ann" with idempotencyKey := none }

end Locked

/-- A literal is the same whatever the evaluators answer. -/
theorem text_unasked (m : MetricReader) (lib : Library) (t : FlowType) (bound : List String)
    (text : String) : (Expr.str text).WritesUnasked m lib t bound :=
  ⟨fun _ _ _ _ _ _ _ => ⟨rfl, fun _ h => by cases h⟩, fun _ _ h => by cases h⟩

theorem bool_asksNone (m : MetricReader) (lib : Library) (t : FlowType) (bound : List String)
    (b : Bool) : (Expr.bool b).AsksNone m lib t bound :=
  fun _ _ _ _ _ _ _ => ⟨rfl, fun _ h => by cases h⟩

/-- A type of a library of two is one of them. -/
theorem type?_of_pair {lib : Library} {a b : String × FlowType} (h : lib.types = [a, b])
    {tn : String} {t : FlowType} (ht : lib.type? tn = some t) : t = a.2 ∨ t = b.2 := by
  have hmem := Table.mem_of_get? ht
  rw [h] at hmem
  rcases List.mem_cons.mp hmem with rfl | hrest
  · exact .inl rfl
  · cases List.mem_singleton.mp hrest
    exact .inr rfl

/-- In a library of one item and its people, whose tag has literal guards and
writes a literal, no tag asks an evaluator. -/
theorem tag_unasked (m : MetricReader) {lib : Library} (item : FlowType) {x : Transition}
    (htypes : ∀ tn t, lib.type? tn = some t → t = item ∨ t = CallingBack.person)
    (hx : item.transition? "tag" = some x)
    (hguards : ∀ g ∈ x.guards, ∀ c, item.condition? g.1 = some c → ∃ b, c.expression = .bool b)
    (heffect : x.effect = [.assign "note" (.str "seen")]) (hkind : x.kind ≠ .erasure)
    (hwhole : ∀ entry ∈ item.attributes, entry.2.cascade = []) :
    lib.Unasked m fun _ xn => xn = "tag" := by
  have hfound : ∀ {tn xn t y}, xn = "tag" → lib.type? tn = some t → t.transition? xn = some y →
      t = item ∧ y = x := by
    rintro tn xn t y rfl ht hy
    rcases htypes tn t ht with rfl | rfl
    · exact ⟨rfl, Option.some.inj (hy.symm.trans hx)⟩
    · cases hy
  refine ⟨?_, ?_, ?_, ?_, ?_⟩
  · intro tn xn t y htaken ht hy g hg c hc
    obtain ⟨rfl, rfl⟩ := hfound htaken ht hy
    obtain ⟨b, hb⟩ := hguards g hg c hc
    rw [hb]
    exact bool_asksNone m lib t [] b
  · intro tn xn t y htaken ht hy
    obtain ⟨rfl, rfl⟩ := hfound htaken ht hy
    rw [heffect]
    exact ⟨text_unasked m lib t [] "seen", trivial⟩
  · intro tn xn t _ ht entry hentry clause hclause
    rcases htypes tn t ht with rfl | rfl
    · rw [hwhole entry hentry] at hclause
      cases hclause
    · cases List.mem_singleton.mp hentry
      cases hclause
  · intro tn xn t y htaken ht hy herasure
    obtain ⟨rfl, rfl⟩ := hfound htaken ht hy
    exact absurd herasure hkind
  · intro tn xn t y htaken ht hy herasure
    obtain ⟨rfl, rfl⟩ := hfound htaken ht hy
    exact absurd herasure hkind

/-- A locked item's tag: its check and its request are refused by one guard. -/
theorem check_agrees_locked :
    (Locked.store.check CallingBack.readers 5 [] Locked.tag).unevaluated = [] ∧
      ((Locked.store.request CallingBack.readers Retrying.hex 5 [] Locked.tag []).1 =
          (Locked.store.check CallingBack.readers 5 [] Locked.tag).told.unmade
            (Locked.store.request CallingBack.readers Retrying.hex 5 [] Locked.tag []).2.world ∨
        (Locked.store.request CallingBack.readers Retrying.hex 5 [] Locked.tag []).1 = .failed) := by
  have hitem : (Locked.tag.objectId.bind (Locked.store.opened 5 []).get).any (·.type = "Item") =
      true := by decide +kernel
  refine check_agrees CallingBack.readers Retrying.hex rfl 5 [] Locked.tag [] ?_ fun key h => ?_
  · refine ⟨_, tag_unasked _ Locked.item ?_ rfl ?_ rfl (by decide) ?_, fun _ _ => rfl, ?_⟩
    · exact fun tn t ht => type?_of_pair rfl ht
    · intro g hg c hc
      cases List.mem_singleton.mp hg
      cases hc
      exact ⟨false, rfl⟩
    · decide
    · exact fun p hp hproposal => absurd (held_of_any hitem hp) (by simp [hproposal, PROPOSAL])
  · cases h

/-- The tag sent again under its key, by a caller that read an older version. -/
def Retrying.tagAgain : Request := { Retrying.tag "ann" with expectedVersion := some 0 }

/-- A first version has none before it to load. -/
theorem World.loadEarlier_first {w : World} (h : w.lib.version = 1)
    (versions : Table Int Library) : w.loadEarlier versions = w := by
  unfold World.loadEarlier
  rw [h]
  rfl

/-- A request under a key leaves the library as it was. -/
theorem KeyedStore.request_lib (r : Readers) (hex : Json → String) (s : KeyedStore) (now : Int)
    (attempts : Table String (List Value)) (req : Request) (answers : Table String String) :
    (s.request r hex now attempts req answers).2.world.lib = s.world.lib := by
  rcases @KeyedStore.settled_world r hex s.loaded now attempts req answers with
    ⟨hsame, -⟩ | ⟨c, hwrite, -⟩
  · have hlib := congrArg World.lib hsame
    exact hlib
  · have hlib := PortStore.write_lib hwrite
    exact hlib

/-- A check of a tag resent under its key, naming the version its caller read
before it, is told that version is stale, where the request replays. -/
theorem check_knows_no_key :
    let later := (Retrying.sent Retrying.store (Retrying.tag "ann")).2
    later.loaded = later ∧
      Retrying.tagAgain.AsksNone CallingBack.readers (later.opened 5 []) ∧
      (Retrying.sent later Retrying.tagAgain).1.satisfied = true ∧
      (later.check CallingBack.readers 5 [] Retrying.tagAgain).told.satisfied = false := by
  intro later
  have hlib : later.world.lib = Retrying.store.world.lib := KeyedStore.request_lib _ _ _ _ _ _ _
  have hitem : (Retrying.tagAgain.objectId.bind (later.opened 5 []).get).any (·.type = "Item") =
      true := by decide +kernel
  refine ⟨?_, ⟨_, tag_unasked _ CallingBack.item ?_ rfl ?_ rfl (by decide) (by decide),
    fun _ _ => rfl, ?_⟩, by decide +kernel, by decide +kernel⟩
  · unfold KeyedStore.loaded
    rw [World.loadEarlier_first (by rw [hlib]; rfl)]
  · intro tn t ht
    refine type?_of_pair (a := ("Item", _)) (b := ("Person", _)) ?_ ht
    show later.world.lib.types = _
    rw [hlib]
    rfl
  · intro g hg
    cases hg
  · exact fun p hp hproposal =>
      absurd (held_of_any hitem hp) (by simp [hproposal, PROPOSAL])

end ObjectFlow
