import ObjectFlow.Base.Concurs
import ObjectFlow.Eval

/-!
# Evaluations in another manner

The evaluator leaves some of what an evaluation comes across out of its notes:
what a derived attribute's own evaluation leaves unanswered or fails, the
verdict of a part evaluated for the record alone.  A `Manner` says how these are
treated; the evaluation in a manner is the evaluator's in everything else.
-/

namespace ObjectFlow

open Base

/-- How an evaluation treats what the evaluator gives a rule of its own. -/
structure Manner where
  /-- What a derived attribute's evaluation tells the one reading it. -/
  derived : Evaluated Value → Evaluated Value
  /-- A part that does not decide. -/
  aside : Meaning → Evaluator → Env → Evaluated Unit
  /-- Whether the rest of an `all` that has failed is evaluated too. -/
  rest : Evaluator → Bool
  /-- What is kept of what a metric's argument notes, read in the store as the
  request found it. -/
  before : Note → Bool

/-- Whether a note tells how an evaluation went: an evaluator unanswered or a
division by zero. -/
def Note.tells (n : Note) : Bool := n.isUnanswered || n.isFailedArithmetic

/-- The evaluator's own. -/
def Manner.core : Manner where
  derived x := x.keeping fun n => !n.tells
  aside := Meaning.aside
  rest ev := ev.reading.isSome
  before _ := false

namespace Manner

variable (h : Manner) (m : MetricReader) (below : Evaluator → Expr → Evaluated Value)

/-! ### Names and members -/

/-- A member of an object. -/
def memberOf (ev : Evaluator) (id name : String) : Evaluated Term := do
  ev.noteRead id
  match ev.world.get id with
  | none => notRun ("a member `" ++ name ++ "` of an object the store does not hold")
  | some o =>
      match ev.world.lib.type? o.type with
      | none => notRun ("the type " ++ o.type)
      | some t =>
          match ev.builtin? o t name with
          | some answer => answer
          | none =>
              match t.attribute? name, named? t.observations name, t.derived? name with
              | some a, _, _ =>
                  match Table.get? o.attrs name, a.declared, a.opposite with
                  | some v, _, _ => pure (.value v)
                  | none, .reference target, some opposite =>
                      pure (.value (Evaluator.oppositeEnd ev.world o target opposite a.many))
                  | none, _, _ => pure (.value .absent)
              | none, some kind, _ => pure (.value (Evaluator.collection ev.world o kind))
              | none, none, some e => do
                  let v ← h.derived (below (ev.forDerived t o.id) e)
                  return .value (m.typedDerived ev.world t e v)
              | none, none, none =>
                  notRun ("the member `" ++ o.type ++ "." ++ name ++ "`")

/-- A member of what a path reaches. -/
def member (ev : Evaluator) (base : Term) (name : String) : Evaluated Term :=
  match base with
  | .value (.object id) => h.memberOf m below ev id name
  | base => ev.member m below base name

/-- What a bare name reads that no name bound is: a member of the object, or
what the evaluator reads. -/
def freeName (ev : Evaluator) (n : String) : Evaluated Term :=
  match ev.type, ev.this with
  | some t, some id =>
      if !RESERVED.contains n && t.hasMember n then h.memberOf m below ev id n
      else ev.freeName m below n
  | _, _ => ev.freeName m below n

/-- A bare name. -/
def name (ev : Evaluator) (n : String) (env : Env) : Evaluated Term :=
  match Table.get? env n with
  | some v => pure (.value v)
  | none => h.freeName m below ev n

/-- A bare name, its object noted where it is named. -/
def nameTerm (ev : Evaluator) (n : String) (env : Env) : Evaluated Term := do
  let t ← h.name m below ev n env
  if (Table.get? env n).isNone then ev.nameObject t
  return t

def pathTerm (base : Expr) (baseMeaning : Meaning) (member : String) : Meaning := fun ev env => do
  let t ←
    if ev.readsCreated base member env then h.name m below ev member env
    else do
      let b ← baseMeaning ev env
      h.member m below ev b member
  ev.nameObject t
  return t

/-! ### Conditions -/

/-- `and`, `or` and `implies`. -/
def logic (op : BinOp) (l r : Meaning) : Meaning := fun ev env => do
  let deciding := decide (op ≠ .and)
  let a := (← l.truth ev env).map fun b => if op = .implies then !b else b
  if a = some deciding then do
    h.aside r ev env
    return .value (.bool deciding)
  else do
    let b ← r.truth ev env
    return .value <| ofTruth <|
      if b = some deciding then b
      else match a, b with
        | some a, some _ => some a
        | _, _ => none

def binaryTerm (op : BinOp) (l r : Expr) (lm rm : Meaning) : Meaning := fun ev env =>
  if op = .and ∨ op = .or ∨ op = .implies then h.logic op lm rm ev env
  else do
    let (a, b) ← operands l r lm rm ev env
    return .value (← ev.combined op a b)

/-! ### Aggregates -/

/-- Whether every selected element meets the body. -/
def allMeet (a : Aggregate) (ev : Evaluator) (env : Env) (body : Meaning) :
    List Value → Bool → Bool → Evaluated (Option Bool)
  | [], failed, unknown => pure (if failed then some false else if unknown then none else some true)
  | item :: rest, true, unknown => do
      h.aside body ev (a.bound env item)
      allMeet a ev env body rest true unknown
  | item :: rest, false, unknown => do
      match ← body.truth ev (a.bound env item) with
      | some false => if !h.rest ev then pure (some false) else allMeet a ev env body rest true unknown
      | none => allMeet a ev env body rest false true
      | some true => allMeet a ev env body rest false unknown

/-- The aggregate's value over what it selected. -/
def fold (a : Aggregate) (ev : Evaluator) (env : Env) (selected : List Value) (undecided : Bool) :
    Evaluated Value :=
  match a.kind, a.body with
  | .all, some b => do return ofTruth (← h.allMeet a ev env b selected false undecided)
  | _, _ => a.fold ev env selected undecided

/-- What an aggregate answers of the elements its `where` selects. -/
def conclude (a : Aggregate) (ev : Evaluator) (env : Env) (scanned : Option String)
    (selected : List Value) (undecided : Bool) : Evaluated (Value × List String) := do
  Aggregate.record ev scanned selected
  let (met, unmet) ← a.meet ev env selected
  let v ← h.fold a ev env met (undecided || unmet)
  return (v, objectIds met)

/-- The aggregate over the items given. -/
def choosing (a : Aggregate) (ev : Evaluator) (env : Env) (scanned : Option String)
    (items : List Value) : Evaluated (Value × List String) := do
  let examined := if scanned.isSome then ev.inside.examining else ev.inside
  let (selected, undecided) ← a.select env examined items
  h.conclude a ev.inside env scanned selected undecided

/-- An aggregate's value and what it selected. -/
def aggregateChoosing (a : Aggregate) (collection : Meaning) (filter : Option Expr)
    (sides : List EqSide) (ev : Evaluator) (env : Env) : Evaluated (Value × List String) := do
  match ← rangeOf ev (← collection ev env) with
  | .absent => return (.absent, [])
  | .items items => h.choosing a ev env none items
  | .scan t => do
      let narrowed ← match filter with
        | some f => narrowing ev.inside t a.var f sides env
        | none => pure none
      h.choosing a ev env (some t) (ev.scanItems (scanObjects ev.world t narrowed))

def aggregateTerm (kind : AggKind) (distinct : Bool) (var : Option String)
    (collection : Option Meaning) (filter : Option Expr) (filterMeaning : Option Meaning)
    (sides : List EqSide) (body : Option Meaning) : Meaning := fun ev env =>
  match var, collection with
  | some var, some collection => do
      let (v, chosen) ← h.aggregateChoosing ⟨kind, distinct, var, filterMeaning, body⟩ collection
        filter sides ev env
      chosen.forM ev.nameId
      return .value v
  | _, _ => notRun ("a metric's own `" ++ kind.text ++ "`")

/-! ### Metrics -/

/-- The dimensions a metric's read binds. -/
def metricBinds (ev : Evaluator) (env : Env) :
    List (String × Expr × Meaning) → Table String Value → Evaluated (Option (Table String Value))
  | [], bound => pure (some bound)
  | (d, _, m) :: rest, bound => do
      let v ← m.value ev env
      match ev.committed with
      | some committed => do
          if ev.this.any fun id => (committed.get id).isNone then
            notRun ("a metric guard of an object the request itself creates, whose arguments " ++
              "no consultation before it can resolve")
          let before : Evaluator :=
            { world := committed, type := ev.type, this := ev.this, inputs := ev.inputs,
              actor := ev.actor, answers := ev.answers }
          let was ← (m.value before env).keeping h.before
          if !was.same v then
            notRun ("a metric guard's argument the request itself writes, which check 61 " ++
              "refuses at publish")
      | none => pure ()
      if v.isAbsent then return none
      else metricBinds ev env rest (Table.set bound d v)

/-- A metric read. -/
def metricTerm (name : Expr) (binds : List (String × Expr × Meaning)) (window : Option Meaning) :
    Meaning := fun ev env => do
  if !ev.metrics then
    Noted.note .unanswered
    return .value .absent
  else
    let committed := ev.committed.getD ev.world
    let found ← Noted.lift (m.find committed ev.answers name (ev.type.map (·.name)))
    match ← h.metricBinds ev env binds [] with
    | none => return .value .absent
    | some bound =>
        let length ← match window with
          | none => pure none
          | some o => do
              match ← o.value ev env with
              | .duration s => pure (some s)
              | other => notRun ("a window of " ++ other.kind)
        let v ← Noted.lift (found bound length)
        let bindings := bound.map fun (d, v) =>
          let personal := binds.any fun (b, x, _) => b = d && readsPersonal committed.lib x
          d ++ ": " ++ (if personal then PERSONAL else v.written)
        ev.consult (name.metricName ++ "(" ++ ", ".intercalate bindings ++ ")") v
        return .value v

/-! ### The tree -/

mutual

/-- The meaning of an expression, evaluated in the manner. -/
def meaning : Expr → Meaning
  | .num n => fun ev _ => numberTerm n ev
  | .str s => fun _ _ => pure (.value (.text s))
  | .bool b => fun _ _ => pure (.value (.bool b))
  | .dur n unit => fun ev _ => durationTerm n unit ev
  | .money currency amount => fun _ _ => moneyTerm currency amount
  | .name n => fun ev env => h.nameTerm m below ev n env
  | .path b member => h.pathTerm m below b (meaning b) member
  | .call f args => callTerm f (baseMeaning f) (argMeanings args)
  | .agg kind distinct var collection filter body =>
      h.aggregateTerm kind distinct var (optionMeaning collection) filter (optionMeaning filter)
        (optionSides filter) (optionMeaning body)
  | .metric name binds window _ => h.metricTerm m name (bindMeanings binds) (optionMeaning window)
  | .changed names e => changedTerm names (meaning e)
  | .set items => setTerm (meanings items)
  | .not e => notTerm (meaning e)
  | .neg e => negTerm (meaning e)
  | .isNull e negated => isNullTerm (meaning e) negated
  | .in' l r => membership (meaning l) r (itemMeanings r) (meaning r)
  | .bin op l r => h.binaryTerm op l r (meaning l) (meaning r)
  | .if' c a b => ifTerm (meaning c) (meaning a) (meaning b)
  | .param n => fun _ _ => notRun ("the parameter :" ++ n ++ ", which nothing bound")
  | .lit v => fun _ _ => pure (.value v)

/-- The meaning of what a path is a member of. -/
def baseMeaning : Expr → Option Meaning
  | .path b _ => some (meaning b)
  | _ => none

/-- The meanings of a set literal's elements. -/
def itemMeanings : Expr → Option (List Meaning)
  | .set items => some (meanings items)
  | _ => none

/-- The sides of the equations a filter requires. -/
def sides : Expr → List EqSide
  | .bin .and l r => sides r ++ sides l
  | .bin .eq l r => [⟨l, r, meaning r⟩, ⟨r, l, meaning l⟩]
  | _ => []

def meanings : List Expr → List Meaning
  | [] => []
  | e :: rest => meaning e :: meanings rest

def argMeanings : List Expr → List (Expr × Meaning)
  | [] => []
  | e :: rest => (e, meaning e) :: argMeanings rest

def bindMeanings : List (String × Expr) → List (String × Expr × Meaning)
  | [] => []
  | (d, e) :: rest => (d, e, meaning e) :: bindMeanings rest

def optionMeaning : Option Expr → Option Meaning
  | none => none
  | some e => some (meaning e)

def optionSides : Option Expr → List EqSide
  | none => []
  | some e => sides e

end

/-- A derived attribute's value, read so many hops from the deepest. -/
def derivedValue : Nat → Evaluator → Expr → Evaluated Value
  | 0 => fun _ _ => notRun "derived attributes read more than 64 deep, each reading the next"
  | hops + 1 => fun ev e => do (← h.meaning m (derivedValue hops) e ev []).answer

end Manner

/-- What a request asks of the evaluator: a clause's value, a value its effects
write with the names they bind, a quotient written to a decimal. -/
inductive Question where
  | clause (e : Expr)
  | value (e : Expr) (env : Env)
  | quotient (l r : Expr) (scale : Nat) (env : Env)

/-- What the evaluator answers. -/
def Question.answered (m : MetricReader) (ev : Evaluator) : Question → Evaluated Value
  | .clause e => ev.eval m e
  | .value e env => ev.evalIn m e env
  | .quotient l r scale env =>
      quotientAt l r (Evaluator.meaning m l) (Evaluator.meaning m r) scale ev env

/-- What an evaluation in the manner answers. -/
def Manner.answered (h : Manner) (m : MetricReader) (ev : Evaluator) : Question → Evaluated Value
  | .clause e => do (← h.meaning m (h.derivedValue m DERIVED_HOPS) e ev []).answer
  | .value e env => Meaning.value (h.meaning m (h.derivedValue m DERIVED_HOPS) e) ev env
  | .quotient l r scale env =>
      quotientAt l r (h.meaning m (h.derivedValue m DERIVED_HOPS) l)
        (h.meaning m (h.derivedValue m DERIVED_HOPS) r) scale ev env

end ObjectFlow
