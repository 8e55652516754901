import ObjectFlow.Reach
import ObjectFlow.Take

/-!
# Deciding a request

A request's checks before anything is taken, its transition with everything
that causes, the invariants its writes could violate, and the change it leaves
to be written.
-/

namespace ObjectFlow

open Base

/-- The type of the store's operator. -/
def OPERATOR_TYPE : String := "Operator"

/-- What a satisfied request leaves to be written: each event with its object,
and whether the event created it, in position order; the rows of the write
index; the admissions recorded and discharged; and what an erasure redacts. -/
structure Change where
  writes : List (Object × Bool × Event) := []
  index : List (String × String × Int) := []
  /-- An object, the invariant, the event and the reason. -/
  admitted : List (String × String × Int × String) := []
  discharged : List (String × String × Int) := []
  redacted : Table String (List String) := []
  redactedInputs : List (Int × String) := []
  redactedWrites : List (Int × String) := []
  merged : List (String × String × Int × Int × Int) := []
  external : List (String × String × String × String) := []
  externalRemoved : List (String × String × String) := []
  redactedSpans : List (String × String × Int) := []
  attempts : List Observed := []
  renamedActors : List (String × String) := []
  /-- Whether an event was recorded on an object while a transition of it was
  in progress: kept for what is proved, and read by nothing. -/
  reentered : Bool := false

/-- Everything a request read when refused. -/
def refusedReads (ctx : Ctx) : Reading :=
  let read := ctx.read.merge ctx.effectRead
  ctx.events.foldl (fun read e =>
    match ctx.work.get e.objectId with
    | some o => { read with objects := Table.set read.objects o.id o.version }
    | none => read) read

/-- What a request asks of its transition, once it is found. -/
structure Asked where
  who : Who
  typeName : String
  type : FlowType
  transition : Transition
  oid : Option String
  inputs : Table String Value

/-- The transition of a request, and the type it is of. -/
def requestTransition (w : World) (req : Request) (tn : String) (oid : Option String) :
    Except Stop (FlowType × Transition) :=
  match w.lib.type? tn with
  | none =>
      if oid.isNone then .error (.refused (.unknownType tn
        (some (if w.lib.version = 0 then .unreachableFromHere else .selfServiceable))) {})
      else .error (.refused (.unknownTransition req.transition) {})
  | some t =>
      match (t.transition? req.transition).filter fun x =>
          decide (x.kind = .initial) = oid.isNone with
      | some x => .ok (t, x)
      | none => .error (.refused (.unknownTransition req.transition) {})

/-- A transition is requestable unless its type is the operator's or it is taken
only through others. -/
def checkRequestable (t : FlowType) (x : Transition) : Except Stop Unit :=
  if t.name = OPERATOR_TYPE then .error (.refused (.notRequestable []) {})
  else if !x.onlyVia.isEmpty then .error (.refused (.notRequestable x.onlyVia) {})
  else .ok ()

/-- An assertion runs from any state but a final one, an erasure at any. -/
def checkAvailable (w : World) (t : FlowType) (x : Transition) (oid : Option String) :
    Except Stop Unit :=
  match oid.bind w.get with
  | none => .ok ()
  | some o =>
      let available : Bool := match x.kind with
        | .assertion => (t.state? o.state).any fun s => !s.isFinal
        | .erasure => true
        | _ => takesFrom t x o.state
      if available then .ok () else .error (.refused (.unavailable o.state) {})

/-- An assertion's own inputs, a state and invariants by name. -/
def assertedInput (k : String) (raw : Json) : Except InputReason Value :=
  match raw with
  | .string s => if k = "to" then .ok (.text s) else .error .wrongType
  | .array items =>
      let names := items.filterMap Json.string?
      if k = "admits" ∧ names.length = items.length then .ok (.set (names.map Value.text))
      else .error .wrongType
  | _ => .error .wrongType

/-- A request's inputs as their declared types hold them, and those at fault.  A
null is not supplied, but where the transition clears by it. -/
def decodedInputs (r : Readers) (lib : Library) (t : FlowType) (x : Transition) :
    Table String Json → Except Stop (Table String Value × List (String × InputReason))
  | [] => .ok ([], [])
  | (k, raw) :: rest => do
      let (inputs, wrong) ← decodedInputs r lib t x rest
      if x.kind = .assertion ∧ (k = "to" ∨ k = "admits") then
        match assertedInput k raw with
        | .ok v => return (Table.set inputs k v, wrong)
        | .error why => return (inputs, (k, why) :: wrong)
      else match inputType t x k with
        | none => .error (.notRun (.unsupported ("the input " ++ k)))
        | some (declared, many, media) =>
            match r.decode lib declared many raw with
            | .error why => return (inputs, (k, why) :: wrong)
            | .ok v =>
                if v.isAbsent then
                  return (if x.clearableInputs.contains k then Table.set inputs k v else inputs,
                    wrong)
                else if mediaTaken media v then return (Table.set inputs k v, wrong)
                else return (inputs, (k, .wrongMediaType) :: wrong)

/-- The inputs a request sends, as its transition takes them. -/
def requestInputs (r : Readers) (lib : Library) (t : FlowType) (x : Transition) (req : Request) :
    Except Stop (Table String Value) := do
  let unknown := (Table.keys req.inputs).filter fun k => !takes x k
  if !unknown.isEmpty then invalid (unknown.map fun k => (k, .unknownInput))
  else
    let (inputs, wrong) ← decodedInputs r lib t x req.inputs
    if wrong.isEmpty then return inputs else invalid wrong

/-- The checks of a request before its transition is taken. -/
def asked (r : Readers) (w : World) (req : Request) : Except Stop Asked := do
  let who ← requestWho w req
  let (typeName, oid) ← requestTarget w req
  let (type, transition) ← requestTransition w req typeName oid
  checkStale w req
  checkRequestable type transition
  checkAvailable w type transition oid
  let inputs ← requestInputs r w.lib type transition req
  return { who, typeName, type, transition, oid, inputs }

/-- A request's working copy of the store as it begins. -/
def Ctx.start (w : World) (alloc : Counters) (req : Request) (a : Asked)
    (answers : Table String String) (checking : Bool) (filedAt cause : Option Int) : Ctx where
  work := w
  before := w
  alloc
  who := a.who
  requested := a.typeName
  occurred := req.occurredAt
  filedAt
  at' := req.occurredAt.getD w.now
  answers
  checking
  causes := cause.toList

/-! ### The invariants -/

/-- The text of an invariant's name before a suffix. -/
def beforeSuffix (name suffix : String) : Option String :=
  let chars := name.toList
  let n := chars.length - suffix.length
  if chars.drop n = suffix.toList then some (String.ofList (chars.take n)) else none

/-- The attributes an invariant reads, generated ones included. -/
def invariantReads (t : FlowType) (name : String) : List String :=
  if name = IDENTITY_TAKEN then (t.actorIdentity.map Prod.fst).toList
  else match beforeSuffix name "_unique", beforeSuffix name "_invariant" with
    | some a, _ => [a]
    | none, some s =>
        ((t.states.find? fun (state, _) => state.toLower = s).map fun (_, st) =>
          st.requiredAttributes).getD []
    | none, none => ((named? t.invariants name).map Expr.namesRead).getD []

/-- Whether an invariant fails on an object because the request erased what it
reads: its own attribute, or an object a reference it reads names. -/
def erasureBroke (ctx : Ctx) (o : Object) (name : String) : Bool :=
  match ctx.work.lib.type? o.type with
  | none => false
  | some t =>
      let read := invariantReads t name
      ((Table.get? ctx.erased o.id).getD []).any read.contains ||
        read.any fun a => match o.attr a with
          | .object other => (Table.get? ctx.erased other).isSome
          | _ => false

/-- What the invariants come to. -/
structure Judged where
  admitted : List (String × String × Int × String) := []
  discharged : List (String × String × Int) := []
  violated : List InvariantFailure := []

/-- Whether a violation is admitted: an assertion admits what it names, an
erasure what it leaves violated. -/
def admits (ctx : Ctx) (o : Object) (name : String) : Bool :=
  (ctx.asserted = some o.id && ctx.admits.contains name) ||
    ctx.admits.contains (o.type ++ "." ++ name) || erasureBroke ctx o name

/-- The last event the request recorded on an object. -/
def lastEvent (ctx : Ctx) (id : String) : Option Int :=
  ((ctx.events.filter fun e => e.objectId = id).map (·.position)).foldl (fun last p =>
    some (match last with
      | none => p
      | some q => max p q)) none

/-- What an object's invariants read, on its last event. -/
def Ctx.noteJudged (ctx : Ctx) (last : Option Int) (read : Reading) : Ctx :=
  { ctx with
    read := ctx.read.merge read
    readings := match last with
      | none => ctx.readings
      | some p =>
          Table.set ctx.readings p (((Table.get? ctx.readings p).getD {}).merge read) }

/-- An object's invariants judged: a violation is admitted, or refuses; an
admission whose invariant holds again is discharged. -/
def judge (r : Readers) (first : Int) (reason : String) (id : String) (j : Judged) :
    Act Judged := do
  let ctx ← Act.context
  match ctx.work.get id with
  | none => return j
  | some o => do
      let last := lastEvent ctx id
      let (failing, notes) ← Program.check fun ctx =>
        evaluated (failingInvariants r.metrics ctx.work o last.isSome)
      Program.modify fun ctx => ctx.noteJudged last (readingOf notes)
      let ctx ← Act.context
      let holding := o.admissions.filter fun n => !failing.contains n
      let unstanding := failing.filter fun n => !o.admissions.contains n
      let admitted := unstanding.filter (admits ctx o)
      let refusing := unstanding.filter fun n => !admits ctx o n
      if !refusing.isEmpty then
        let shown := if (ctx.before.get id).isSome then some o.id else none
        return { j with violated := j.violated ++ refusing.map fun n => ⟨shown, o.type, n⟩ }
      else do
        let standing := addNames (o.admissions.filter fun n => !holding.contains n) admitted
        Program.modify fun ctx =>
          { ctx with work := ctx.work.change id fun o => { o with admissions := standing } }
        return { j with
          admitted := j.admitted ++ admitted.map fun n => (id, n, first, reason)
          discharged := j.discharged ++ holding.map fun n => (id, n, first) }

/-- The objects affected judged, in their order. -/
def judgeAll (r : Readers) (first : Int) (reason : String) : List String → Judged → Act Judged
  | [], j => return j
  | id :: rest, j => do
      let j ← judge r first reason id j
      judgeAll r first reason rest j

/-! ### The change -/

/-- The reason an admission records: the request's, unless it is personal. -/
def admissionReason (lib : Library) (a : Asked) : String :=
  if inputPersonal lib a.type a.transition "reason" then PERSONAL
  else ((Table.get? a.inputs "reason").map textOf).getD ""

/-- A request's events in the order they were allocated in. -/
def inPositionOrder (events : List Event) : List Event :=
  events.insertionSort fun a b => a.position ≤ b.position

/-- An event with what its rules read, its own object's entry left to its
order. -/
def withReads (readings : Table Int Reading) (e : Event) : Event :=
  match Table.get? readings e.position with
  | none => e
  | some r => { e with reads := { r with objects := Table.erase r.objects e.objectId } }

/-- Each event with its object, and whether it is the first of one created. -/
def eventWrites (work : World) (created : List String) :
    List String → List Event → Option (List (Object × Bool × Event))
  | _, [] => some []
  | seen, e :: rest => do
      let o ← work.get e.objectId
      let others ← eventWrites work created (e.objectId :: seen) rest
      return (o, !seen.contains e.objectId && created.contains e.objectId, e) :: others

/-- A row of a creation names the object its event made. -/
def namingCreated (events : List Event) (row : Observed) : Observed :=
  match row.objectId with
  | some _ => row
  | none =>
      { row with
        objectId := (events.find? fun e => e.position = row.appliedPosition).map (·.objectId) }

/-- The verdict and the change of a request whose transition was taken and
whose invariants hold. -/
def settled (root : String) (j : Judged) (ctx : Ctx) : Except Stop (Verdict × Change) :=
  let events := inPositionOrder (ctx.events.map (withReads ctx.readings))
  match eventWrites ctx.work ctx.created [] events with
  | none => .error (.notRun (.unsupported "an event on an object the request did not keep"))
  | some writes =>
      .ok (.satisfied root (((ctx.work.get root).map (·.version)).getD 0)
          (events.map (·.position)) [] ctx.flags false,
        { writes
          index := ctx.index
          admitted := j.admitted
          discharged := j.discharged
          redacted := ctx.erased
          redactedInputs := ctx.redactedInputs
          redactedWrites := ctx.redactedWrites
          merged := ctx.merged
          external := ctx.external
          externalRemoved := ctx.externalRemoved
          redactedSpans := ctx.redactedSpans
          attempts := ctx.observed.map (namingCreated events)
          renamedActors := ctx.renamed
          reentered := ctx.reentered })

/-- A refusal with everything the request had read. -/
def withRefusedReads (ctx : Ctx) : Stop → Stop
  | .refused v r => .refused v { r with reads := refusedReads ctx }
  | other => other

/-- The invariants the request's writes could violate, each judged. -/
def judgeAffected (r : Readers) (reason : String) : Act Judged := do
  let ctx ← Act.context
  let first := ((ctx.events.map (·.position)).min?).getD 0
  judgeAll r first reason (affectedByWrites ctx.work ctx.before) {}

/-- A request's transition taken and its invariants judged, and the change it
leaves. -/
def carried (r : Readers) (req : Request) (a : Asked) : Act (Verdict × Change) := do
  let root ← (take r (CALL_DEPTH + 1) 0 a.typeName req.transition a.oid a.inputs).tellStop
    withRefusedReads
  let ctx ← Act.context
  let j ← judgeAffected r (admissionReason ctx.work.lib a)
  if j.violated.isEmpty then Program.check (settled root j)
  else (Act.refuse (.invariantViolated j.violated)).tellStop withRefusedReads

/-- A request decided, and the counters as it leaves them, the numbers a refused
request drew among them. -/
def decideOrStop (r : Readers) (w : World) (alloc : Counters) (req : Request)
    (answers : Table String String) (checking : Bool) (filedAt cause : Option Int) :
    Except Stop (Verdict × Change) × Counters :=
  match asked r w req with
  | .error stop => (.error stop, alloc)
  | .ok a =>
      let (decided, ctx) := carried r req a
        (Ctx.start w alloc req a answers checking filedAt cause)
      (decided, ctx.alloc)

end ObjectFlow
