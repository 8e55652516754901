import ObjectFlow.Base.Noted
import ObjectFlow.FlowData
import ObjectFlow.Operators

/-!
# What an evaluation is given and what it notes

An evaluation reads a world, the object and type a rule is on, the request's
inputs and who acts, and answers a value or why it did not run.  What it reads
and consults on the way is noted in order; whether an evaluator was left
unanswered and whether a division was by zero are notes too.

How a metric is read and how a derived zero is typed are the metric
evaluator's, given here as `MetricReader`.
-/

namespace ObjectFlow

open Base

/-- An evaluator's call: its namespace, function and arguments, as written. -/
structure Call where
  evaluator : String
  function : String
  arguments : List String
  /-- What the sandbox says of it. -/
  said : String
deriving DecidableEq

/-- Why the core did not run what it was asked. -/
inductive NotRun where
  /-- A construct the core does not run, named. -/
  | unsupported (what : String)
  /-- An evaluator's call the request's answers hold no verdict for. -/
  | unanswered (call : Call)
  /-- An arithmetic past its type's bound, on the object named. -/
  | outOfRange (id : String)
deriving DecidableEq

/-- Who acts. -/
structure Who where
  id : String
  kind : String
  /-- The principal it acts for, by its identity. -/
  principal : Option String := none
  /-- Whether its object is in a state in which it acts. -/
  acts : Bool := true
deriving DecidableEq

/-- What a subterm evaluates to: a value, or one of the names a path continues
from. -/
inductive Term where
  | value (v : Value)
  | inputs
  | actor
  /-- A type or an enumeration. -/
  | typeRef (name : String)
  /-- A state category. -/
  | category (name : String)

def Term.kind : Term → String
  | value v => v.kind
  | inputs => "the inputs"
  | actor => "the actor"
  | typeRef _ => "a type"
  | category _ => "a category"

/-- What an evaluation notes. -/
inductive Note where
  /-- An evaluator asked did not answer, or a metric was left unread. -/
  | unanswered
  /-- A division of present values by zero. -/
  | failedArithmetic
  /-- An object read, with the version it is at. -/
  | read (id : String) (version : Int)
  /-- What a scan of a type matched, under the rule's name. -/
  | scan (rule type : String) (ids : List String)
  /-- A value consulted, under the rule's name and the reference. -/
  | consulted (rule reference : String) (value : Value)
  /-- An object a reference of a clause evaluated to. -/
  | named (id : String)

/-- Whether a note is part of what a rule's evaluation read. -/
def Note.isReading : Note → Bool
  | .read .. | .scan .. | .consulted .. => true
  | _ => false

def Note.isUnanswered : Note → Bool
  | .unanswered => true
  | _ => false

def Note.isFailedArithmetic : Note → Bool
  | .failedArithmetic => true
  | _ => false

/-- What the notes of a rule's evaluation add to a reading. -/
def Reading.after (r : Reading) : Note → Reading
  | .read id version => { r with objects := Table.set r.objects id version }
  | .scan rule type ids =>
      let mine := (Table.get? r.scans rule).getD []
      let held := (Table.get? mine type).getD []
      { r with scans := Table.set r.scans rule (Table.set mine type (addNames held ids)) }
  | .consulted rule reference v =>
      let mine := (Table.get? r.consulted rule).getD []
      { r with consulted := Table.set r.consulted rule (Table.set mine reference v) }
  | _ => r

/-- What the notes given record. -/
def Reading.ofNotes (notes : List Note) : Reading := notes.foldl Reading.after {}

/-- Another's reads added to these. -/
def Reading.merge (mine other : Reading) : Reading where
  objects := other.objects.foldl (fun t (k, v) => Table.set t k v) mine.objects
  scans := other.scans.foldl (fun t (rule, types) =>
    Table.set t rule (types.foldl (fun m (type, ids) =>
      Table.set m type (addNames ((Table.get? m type).getD []) ids))
      ((Table.get? t rule).getD []))) mine.scans
  consulted := other.consulted.foldl (fun t (rule, refs) =>
    Table.set t rule (refs.foldl (fun m (ref, v) => Table.set m ref v)
      ((Table.get? t rule).getD []))) mine.consulted

abbrev Evaluated (α : Type) := Noted Note NotRun α

/-- The names an expression binds: a loop's item, a creation's result. -/
abbrev Env := Table String Value

def notRun {α : Type} (what : String) : Evaluated α := Noted.fail (.unsupported what)

/-- What reading a metric needs of the metric evaluator. -/
structure MetricReader where
  /-- The metric an expression names, as a rule of a type names it, over the
  store given: how it reads for the dimensions bound and the window asked. -/
  find : World → Option (Table String String) → Expr → Option String →
    Except NotRun (Table String Value → Option Int → Except NotRun Value)
  /-- A derived attribute's value, its zero typed as its expression is. -/
  typedDerived : World → FlowType → Expr → Value → Value

/-- A metric evaluator for rules that read no metric. -/
def noMetrics : MetricReader where
  find _ _ _ _ := .error (.unsupported "a metric")
  typedDerived _ _ _ v := v

/-- An evaluation of expressions for one object, or none, and one request. -/
structure Evaluator where
  world : World
  /-- The object `this` names. -/
  this : Option String := none
  /-- The type whose names a bare name resolves against. -/
  type : Option FlowType := none
  inputs : Table String Value := []
  /-- On a creation, the attributes it takes as inputs. -/
  creating : Option (List String) := none
  actor : Option Who := none
  /-- An element whose filter is unknown is left out. -/
  filterMode : Bool := false
  /-- The position of the event an effect belongs to. -/
  event : Option Int := none
  /-- The answers the store's evaluators give; none where none is asked. -/
  answers : Option (Table String String) := none
  /-- Whether a metric is computed where it is read. -/
  metrics : Bool := true
  /-- The store as the request found it, where it is not the world itself. -/
  committed : Option World := none
  /-- The rule whose reads are recorded. -/
  reading : Option String := none
  /-- Inside a scan's `where`, where an object examined is not yet read. -/
  quiet : Bool := false
  /-- Inside a part evaluated for the record alone. -/
  aside : Bool := false
  /-- Whether the objects a clause names are noted, and the one it is on. -/
  naming : Option (Option String) := none
  /-- Inside an aggregate, where nothing is named. -/
  within : Bool := false
  /-- Whether a scan of a type leaves out `this`, as an invariant's does. -/
  others : Bool := false

/-- What an expression means to an evaluator, with names bound. -/
abbrev Meaning := Evaluator → Env → Evaluated Term

/-- The members every object has. -/
def OBJECT_MEMBERS : List String :=
  ["id", "open", "created_at", "created_by_kind", "recorded_from", "declaration_version"]

/-- The members an object answers where its type declares none of the name. -/
def YIELDING_MEMBERS : List String :=
  ["type", "recorded_by_kind", "actor_id", "intervals", "transitions", "attempts", "labels"]

/-- The names a bare name always reads so. -/
def RESERVED : List String := ["now", "this", "inputs", "actor", "referrers", "this_event"]

def ACTOR_KINDS : List String := ["human", "agent", "service"]

/-- The most derived attributes, each reading the next, one evaluation goes
inside. -/
def DERIVED_HOPS : Nat := 64

/-- What a consulted reference writes for a value read from anything
personal. -/
def PERSONAL : String := "(personal)"

namespace FlowType

/-- A derived attribute's expression. -/
def derived? (t : FlowType) (name : String) : Option Expr := named? t.derived name

/-- Whether a type declares a member of the name. -/
def declaresMember (t : FlowType) (m : String) : Bool :=
  (t.attribute? m).isSome || (t.derived? m).isSome || (named? t.observations m).isSome

/-- Whether a bare name reads as a member of the object. -/
def hasMember (t : FlowType) (m : String) : Bool :=
  m = "state" || t.declaresMember m || OBJECT_MEMBERS.contains m

/-- Whether a bare name reads as a state category. -/
def hasCategory (t : FlowType) (c : String) : Bool :=
  c = "closed" || t.states.any fun (_, s) => s.category = c

end FlowType

namespace Evaluator

variable (ev : Evaluator)

/-- An object read, with the version it is at, unless a scan is only examining
it. -/
def noteRead (id : String) : Evaluated Unit :=
  if ev.reading.isSome && !ev.quiet then
    match ev.world.get id with
    | some o => Noted.note (.read id o.version)
    | none => pure ()
  else pure ()

/-- A value a rule consulted. -/
def consult (reference : String) (v : Value) : Evaluated Unit :=
  match ev.reading with
  | some rule => Noted.note (.consulted rule reference v)
  | none => pure ()

/-- An object noted as named, but the one the clause is on. -/
def nameId (id : String) : Evaluated Unit :=
  match ev.naming with
  | some on => if !ev.within && on ≠ some id then Noted.note (.named id) else pure ()
  | none => pure ()

/-- An object a reference evaluated to, noted where it is named. -/
def nameObject : Term → Evaluated Unit
  | .value (.object id) => ev.nameId id
  | _ => pure ()

def outOfRange {α : Type} : Evaluated α := Noted.fail (.outOfRange (ev.this.getD ""))

/-- The evaluator of a derived attribute an evaluation reads: on its object
alone, asking the same answers and recording under the same rule. -/
def forDerived (t : FlowType) (id : String) : Evaluator where
  world := ev.world
  type := some t
  this := some id
  answers := ev.answers
  metrics := ev.metrics
  reading := ev.reading
  naming := ev.naming
  within := ev.within

/-- The evaluator of a part evaluated for the record alone. -/
def setAside : Evaluator := { ev with aside := true }

/-- The evaluator of a scan's `where`. -/
def examining : Evaluator := { ev with quiet := true }

/-- The evaluator of what an aggregate's elements meet. -/
def inside : Evaluator := { ev with within := true }

/-- Whether a bare name, bound by nothing, reads as one of the type's
states. -/
def readsState (env : Env) (n : String) : Bool :=
  match ev.type with
  | none => false
  | some t => (Table.get? env n).isNone && !RESERVED.contains n && !t.hasMember n &&
      (t.state? n).isSome

/-- Whether a bare name, bound by nothing, reads as a type. -/
def readsType (env : Env) (n : String) : Bool :=
  (Table.get? env n).isNone && !(n = "closed" || RESERVED.contains n) &&
    !ACTOR_KINDS.contains n &&
    ev.type.all fun t => !(t.hasMember n || (t.state? n).isSome ||
      t.states.any fun (_, s) => s.category = n)

end Evaluator

/-- A term's value, a category by a text no other value is. -/
def Term.toValue : Term → Evaluated Value
  | .value v => pure v
  | .category c => pure (.text ("category:" ++ c))
  | other => notRun ("an expression whose value is " ++ other.kind)

/-- A rule's value, a category by its name. -/
def Term.answer : Term → Evaluated Value
  | .value v => pure v
  | .category c => pure (.text c)
  | other => notRun ("an expression whose value is " ++ other.kind)

/-- A meaning's value. -/
def Meaning.value (m : Meaning) (ev : Evaluator) (env : Env) : Evaluated Value := do
  (← m ev env).toValue

/-- The truth of a value, three-valued. -/
def truth (v : Value) : Evaluated (Option Bool) :=
  match truth? v with
  | some b => pure b
  | none => notRun ("a condition whose value is " ++ v.kind ++ ", not a boolean")

/-- A meaning's truth. -/
def Meaning.truth (m : Meaning) (ev : Evaluator) (env : Env) : Evaluated (Option Bool) := do
  ObjectFlow.truth (← m.value ev env)

/-- A truth as a value. -/
def ofTruth : Option Bool → Value
  | some b => .bool b
  | none => .absent

/-- A part that does not decide, evaluated for the record alone: its verdict,
any evaluator it leaves unanswered and an arithmetic past its bound are set
aside. -/
def Meaning.aside (m : Meaning) (ev : Evaluator) (env : Env) : Evaluated Unit :=
  if ev.reading.isSome || ev.naming.isSome then
    let x := m.value ev.setAside env
    match x.outcome with
    | .ok _ | .error (.outOfRange _) =>
        Noted.noteAll (x.notes.filter fun n => !n.isUnanswered)
    | .error e => do
        Noted.noteAll x.notes
        Noted.fail e
  else pure ()

/-- `combine`, an arithmetic of present values with no value refused as out of
range; a division by zero is unknown and noted. -/
def Evaluator.combined (ev : Evaluator) (op : BinOp) (a b : Value) : Evaluated Value :=
  match combine op a b with
  | .error what => notRun what
  | .ok v =>
      if v.isAbsent && !a.isAbsent && !b.isAbsent then
        if op = .div && b.isZero then do
          Noted.note .failedArithmetic
          return v
        else ev.outOfRange
      else pure v

end ObjectFlow
