import ObjectFlow.Verdict

/-!
# What a transition is checked for before its outcome

The checks of a transition in the order it makes them: where it may be taken
from, its inputs, the generated guards, and the guards it declares.
-/

namespace ObjectFlow

open Base

/-- The type of the labels recorded on any subject. -/
def LABEL : String := "label"

def PROPOSAL : String := "Proposal"

def SUBSCRIPTION : String := "Subscription"

/-- Whether a transition may be taken from a state. -/
def takesFrom (t : FlowType) (x : Transition) (state : String) : Bool :=
  match x.fromStates with
  | none => false
  | some (.states states) => states.contains state
  | some .any => (t.state? state).any (!·.isFinal) &&
      !(x.kind = .external && x.toStates.head? = some state)

/-- The inputs a transition takes that write an attribute or are required to. -/
def Transition.attributeInputs (x : Transition) : List String :=
  x.requiredInputs ++ x.optionalInputs

/-- Whether a transition takes an input of a name. -/
def takes (x : Transition) (k : String) : Bool :=
  (x.kind = .assertion && (k = "to" || k = "admits")) || x.attributeInputs.contains k ||
    (named? x.inputs k).isSome

/-- The type an input is declared of: the transition's own input, or the
attribute it writes. -/
def inputType (t : FlowType) (x : Transition) (k : String) :
    Option (Declared × Bool × List String) :=
  match named? x.inputs k with
  | some spec => some (spec.declared, spec.many, spec.mediaTypes)
  | none => (t.attribute? k).map fun a => (a.declared, a.many, a.mediaTypes)

/-- Whether an input is marked `not_blank`, by its own declaration or its
attribute's. -/
def notBlankInput (t : FlowType) (x : Transition) (k : String) : Bool :=
  match named? x.inputs k with
  | some spec => spec.notBlank
  | none => (t.attribute? k).any (·.notBlank)

/-- The evaluator of a transition's expressions: on its object, with its
inputs, over the working copy and the store as the request found it. -/
def Ctx.evaluator (ctx : Ctx) (t : FlowType) (oid : Option String) (inputs : Table String Value) :
    Evaluator where
  world := ctx.work
  type := some t
  this := oid
  committed := some ctx.before
  inputs := inputs
  actor := some ctx.who

/-- The object a transition is taken on, where it exists before it. -/
def Ctx.target (ctx : Ctx) (oid : Option String) : Option Object := oid.bind ctx.work.get

/-- A caused transition is taken only from a state it may be, an erasure from
any, and with inputs it takes. -/
def checkCaused (t : FlowType) (x : Transition) (oid : Option String)
    (inputs : Table String Value) (ctx : Ctx) : Except Stop Unit :=
  match (ctx.target oid).filter fun o => x.kind ≠ .erasure && !takesFrom t x o.state with
  | some o => .error (.refused (.unavailable o.state) {})
  | none =>
      let unknown := (Table.keys inputs).filter fun k => !takes x k
      if unknown.isEmpty then .ok ()
      else .error (.refused (.invalidInput (unknown.map fun k => (k, .unknownInput))) {})

/-- Whether a value names objects of a type, or any where it may. -/
def namesObjects (w : World) (target : String) (v : Value) : Bool :=
  let ids := match v with
    | .set items => items
    | one => [one]
  ids.all fun i => match i with
    | .object id => (w.get id).any fun o => target = ANY_TYPE || w.lib.isA o.type target
    | _ => false

/-- The inputs at fault: a caused transition's file of a media type its list
does not take, and a reference naming no object of its type. -/
def wrongInputs (t : FlowType) (x : Transition) (inputs : Table String Value) (depth : Nat)
    (ctx : Ctx) : List (String × InputReason) :=
  inputs.flatMap fun (k, v) =>
    if v.isAbsent then []
    else match inputType t x k with
      | none => []
      | some (declared, _, media) =>
          (if depth > 0 && !mediaTaken media v then [(k, .wrongMediaType)] else []) ++
          match declared with
          | .reference target =>
              if namesObjects ctx.work target v then [] else [(k, .noSuchObject)]
          | _ => []

/-- The required inputs left out that no default or optional attribute
covers. -/
def leftOut (t : FlowType) (x : Transition) (inputs : Table String Value) : List String :=
  x.requiredInputs.filter fun k => (Table.get? inputs k).isNone &&
    match t.attribute? k with
    | none => true
    | some a => !a.optional && a.default.isNone

/-- The inputs with each default given, and those missing. -/
def withDefaults (m : MetricReader) (t : FlowType) (oid : Option String) (ctx : Ctx) :
    List (String × Input) → Table String Value →
      Except Stop (Table String Value × List String)
  | [], inputs => .ok (inputs, [])
  | (k, spec) :: rest, inputs =>
      if (Table.get? inputs k).isSome then withDefaults m t oid ctx rest inputs
      else match spec.default with
        | some d => do
            let v ← evaluatedOnly ((ctx.evaluator t oid inputs).eval m d)
            withDefaults m t oid ctx rest (Table.set inputs k v)
        | none => do
            let (inputs, missing) ← withDefaults m t oid ctx rest inputs
            return (inputs, if spec.optional then missing else k :: missing)

/-- The inputs given blank that are marked `not_blank`. -/
def blankInputs (t : FlowType) (x : Transition) (inputs : Table String Value) : List String :=
  (inputs.filter fun (k, v) => match v with
    | .text s => trim s = "" && notBlankInput t x k
    | _ => false).map Prod.fst

def invalid {α : Type} (inputs : List (String × InputReason)) : Except Stop α :=
  .error (.refused (.invalidInput inputs) {})

/-- Inputs as a transition takes them: known, of their types, none missing and
none blank, each default given. -/
def checkInputs (m : MetricReader) (t : FlowType) (x : Transition) (oid : Option String)
    (inputs : Table String Value) (depth : Nat) (ctx : Ctx) : Except Stop (Table String Value) := do
  if depth > 0 then checkCaused t x oid inputs ctx
  let wrong := wrongInputs t x inputs depth ctx
  if !wrong.isEmpty then invalid wrong
  else
    let left := leftOut t x inputs
    if !left.isEmpty then invalid (left.map fun k => (k, .missing))
    else
      let (inputs, missing) ← withDefaults m t oid ctx x.inputs inputs
      if !missing.isEmpty then invalid (missing.map fun k => (k, .missing))
      else
        let blank := blankInputs t x inputs
        if !blank.isEmpty then invalid (blank.map fun k => (k, .malformed))
        else return inputs

/-- What an assertion admits: its `to` is a state it lists, other than the one
the object is in, and its `admits` only invariants it may admit. -/
def assertionAdmits (x : Transition) (oid : Option String) (inputs : Table String Value)
    (ctx : Ctx) : Except Stop (List String) :=
  let current := (ctx.target oid).map (·.state)
  match Table.get? inputs "to" with
  | some (.text s) =>
      if x.toStates.contains s && current ≠ some s then
        let admits := match Table.get? inputs "admits" with
          | some (.set items) => items.map textOf
          | _ => []
        if admits.all x.mayAdmit.contains then .ok admits
        else invalid [("admits", .notAllowed)]
      else invalid [("to", .notAllowed)]
  | _ => invalid [("to", .notAllowed)]

/-- A subscription's inputs at fault: one naming no installed type, transitions
none of its types has, or durations that are not positive or out of order. -/
def subscriptionInputs (lib : Library) (inputs : Table String Value) :
    List (String × InputReason) :=
  let target := match Table.get? inputs "target_type" with
    | some (.text t) => if (lib.type? t).isSome then some t else none
    | _ => none
  let duration := fun k => match Table.get? inputs k with
    | some (.duration d) => some d
    | _ => none
  let named := match target, Table.get? inputs "transitions" with
    | some target, some (.set names) =>
        let family := (Table.get? inputs "target_family").any fun v => v.same (.bool true)
        let declared := lib.types.flatMap fun (n, t) =>
          if (if family then lib.isA n target else n = target) then t.transitions.map Prod.fst
          else []
        if names.all fun n => match n with
            | .text xn => declared.contains xn
            | _ => false
        then [] else [("transitions", .notAllowed)]
    | _, _ => []
  (if target.isNone then [("target_type", .notAllowed)] else []) ++ named ++
    (["lagging_after", "dead_after"].filter fun k => (duration k).any (· ≤ 0)).map
      (fun k => (k, .notAllowed)) ++
    match duration "lagging_after", duration "dead_after" with
    | some lagging, some dead =>
        if lagging > 0 && dead > 0 && dead < lagging then [("dead_after", .notAllowed)] else []
    | _, _ => []

/-- The generated guard that holds an occurred time to its bounds. -/
def occurredWithin {α : Type} : Except Stop α :=
  .error (.refused (.unsatisfied "occurred_within" (some .selfServiceable)) {})

/-- The requested transition's bound takes an occurred time no further back
than it and not after now; one with no bound, or a correction, takes none. -/
def checkOccurred (x : Transition) (inputs : Table String Value) (ctx : Ctx) :
    Except Stop Unit :=
  match ctx.occurred with
  | none => .ok ()
  | some occurred =>
      let now := ctx.filedAt.getD ctx.work.now
      let within := (x.backdatingLimit.bind parseDuration).any fun limit =>
        now - limit ≤ occurred && occurred ≤ now
      if (Table.get? inputs "corrects").isSome || !within then occurredWithin else .ok ()

/-- No transition the request takes precedes the current interval of what its
inputs change on its object. -/
def checkPrecedes (t : FlowType) (x : Transition) (o : Object) (inputs : Table String Value)
    (ctx : Ctx) : Except Stop Unit :=
  let changing := (ctx.work.lib.tracked t).filter fun m =>
    (Table.get? inputs m).any fun v => !v.same (o.attr m)
  let assertedElsewhere := x.kind = .assertion &&
    !(match Table.get? inputs "to" with
      | some (.text s) => s = o.state
      | _ => false)
  let changing := if x.kind = .external || assertedElsewhere then changing ++ ["state"]
    else changing
  if changing.any fun m => (Spans.of o.spans m).getLast?.any fun last => ctx.at' < last.enteredAt
  then occurredWithin else .ok ()

/-- Whether a reference attribute is a part's end back to its whole. -/
def ownerEnd (lib : Library) (a : Attribute) : Bool :=
  match a.declared, a.opposite with
  | .reference target, some back =>
      ((lib.type? target).bind (·.attribute? back)).any (·.composite)
  | _, _ => false

/-- Whether an object is in a final state. -/
def World.isFinal (w : World) (o : Object) : Bool :=
  ((w.lib.type? o.type).bind (·.state? o.state)).any (·.isFinal)

/-- `whole_open`: a part is not moved into a whole that is finished. -/
def checkWholeOpen (t : FlowType) (x : Transition) (o : Object) (inputs : Table String Value)
    (ctx : Ctx) : Except Stop Unit :=
  let closed := x.attributeInputs.findSome? fun k =>
    match Table.get? inputs k, t.attribute? k with
    | some (.object whole), some a =>
        if ownerEnd ctx.work.lib a && !(o.attr k).same (.object whole) &&
          (ctx.work.get whole).any ctx.work.isFinal then some whole else none
    | _, _ => none
  match closed with
  | some whole => .error (.guard "whole_open" .selfServiceable [whole])
  | none => .ok ()

mutual

/-- The attributes a step assigns or adds to, at any depth. -/
def Step.assigned : Step → List String
  | .assign location _ | .add location _ => [location]
  | .foreach _ _ _ _ _ steps => assignedAll steps
  | _ => []

def assignedAll : List Step → List String
  | [] => []
  | s :: rest => s.assigned ++ assignedAll rest

end

/-- `not_erased`: an erased object's personal attributes are not written
again. -/
def checkNotErased (t : FlowType) (x : Transition) (o : Object) (inputs : Table String Value) :
    Except Stop Unit :=
  if x.kind ≠ .erasure && o.erased &&
      ((x.attributeInputs.filter fun k => (Table.get? inputs k).isSome) ++
        assignedAll x.effect).any t.personal
  then .error (.refused (.unsatisfied "not_erased" (some .unreachableFromHere)) {})
  else .ok ()

/-- A successor an input names is neither this object nor one already
superseded. -/
def checkSuccessor (x : Transition) (oid : Option String) (inputs : Table String Value)
    (ctx : Ctx) : Except Stop Unit :=
  let refused := x.effect.findSome? fun step => match step with
    | .supersede (.path (.name "inputs") k) =>
        match Table.get? inputs k with
        | some (.object successor) =>
            let superseded := (ctx.work.get successor).any fun s =>
              ((ctx.work.lib.type? s.type).bind (·.state? s.state)).any (·.superseding)
            if oid = some successor || superseded then some successor else none
        | _ => none
    | _ => none
  match refused with
  | some successor => .error (.guard "successor_not_superseded" .selfServiceable [successor])
  | none => .ok ()

/-- The observations that correct the one named, by the types that can, each
type's match recorded as a scan. -/
def correctionsOf (w : World) (named : Value) : List (String × List Object) :=
  w.lib.types.filterMap fun (kn, k) =>
    if (k.attribute? "corrects").isNone then none
    else some (kn, (w.ofTypeWhere kn none [("corrects", named)]).filter fun o =>
      (o.attr "corrects").same named)

/-- A scan's matches as a reading records them. -/
def recordScan (rule type : String) (matched : List Object) : Reading :=
  readingOf (matched.map (fun o => .read o.id o.version) ++
    [.scan rule type (matched.map Object.id)])

/-- What the request's rules read, added to what they read before. -/
def Act.noteRead (r : Reading) : Act Unit :=
  Program.modify fun ctx => { ctx with read := ctx.read.merge r }

/-- A correction names an observation of its subject that nothing has corrected
yet; with what it read. -/
def checkCorrection (subject corrected : String) : Act Reading := do
  let named := Value.object corrected
  Program.check fun ctx =>
    if (ctx.work.get corrected).any fun c => (c.attr "subject").same (.object subject)
    then .ok () else invalid [("corrects", .notAllowed)]
  let found ← Program.read fun ctx => correctionsOf ctx.work named
  let read := found.foldl (fun r (kn, matched) =>
    r.merge (recordScan "corrects_current" kn matched)) ({} : Reading)
  Act.noteRead read
  match (found.flatMap Prod.snd).head? with
  | some recorded => Act.refuseNaming "corrects_current" .selfServiceable recorded.id
  | none => return read

/-- A new fact is not added to a subject the request found finished. -/
def checkSubjectOpen (subject : String) : Act Reading := do
  Program.check fun ctx =>
    if (ctx.before.get subject).any ctx.before.isFinal then
      .error (.guard "subject_open" .unreachableFromHere [subject])
    else .ok ()
  return {}

/-- A recording that corrects another, or adds a fact to its subject. -/
def checkRecorded (subject : String) (inputs : Table String Value) : Act Reading :=
  match Table.get? inputs "corrects" with
  | some (.object corrected) => checkCorrection subject corrected
  | _ => checkSubjectOpen subject

/-- A recording's own checks, with what they read; a mirror's observations are
the import's. -/
def checkRecording (inputs : Table String Value) : Act Reading :=
  match Table.get? inputs "subject" with
  | some (.object subject) => do
      let read ← checkRecorded subject inputs
      Program.check fun ctx =>
        if ((ctx.work.get subject).bind fun s => ctx.work.lib.type? s.type).any (·.mirror) then
          .error (.guard "subject_owned" .unreachableFromHere [subject])
        else .ok ()
      return read
  | _ => return {}

/-- A label's name trimmed and in lower case, not empty once it is. -/
def labelName (inputs : Table String Value) : Except Stop (Table String Value) :=
  match Table.get? inputs "name" with
  | some (.text name) =>
      let name := (trim name).toLower
      if name = "" then invalid [("name", .malformed)]
      else .ok (Table.set inputs "name" (.text name))
  | _ => .ok inputs

/-- The generated guards over the state and the inputs, in their order. -/
def checkGenerated (t : FlowType) (tn : String) (x : Transition) (oid : Option String)
    (inputs : Table String Value) (depth : Nat) (ctx : Ctx) : Except Stop Unit := do
  if tn = SUBSCRIPTION ∧ x.kind = .initial then
    let wrong := subscriptionInputs ctx.work.lib inputs
    if !wrong.isEmpty then invalid wrong
  if depth = 0 then checkOccurred x inputs ctx
  match ctx.target oid with
  | some o => do
      checkPrecedes t x o inputs ctx
      checkWholeOpen t x o inputs ctx
      checkNotErased t x o inputs
  | none => .ok ()
  checkSuccessor x oid inputs ctx

/-- The inputs as the guards read them: every required one provided, and a
label's name as it is kept. -/
def providedInputs (tn : String) (x : Transition) (xn : String) (inputs : Table String Value) :
    Except Stop (Table String Value) :=
  match x.requiredInputs.find? fun k => (Table.get? inputs k).isNone with
  | some k => .error (.refused (.unsatisfied (k ++ "_provided") (some .selfServiceable)) {})
  | none => if tn = LABEL ∧ xn = "record" then labelName inputs else .ok inputs

/-- The evaluator of a transition's guard. -/
def Ctx.guardEvaluator (ctx : Ctx) (t : FlowType) (x : Transition) (oid : Option String)
    (inputs : Table String Value) (guardName : String) : Evaluator :=
  { ctx.evaluator t oid inputs with
    creating := if oid.isNone then
      some (x.attributeInputs.filter fun i => (t.attribute? i).isSome) else none
    reading := some guardName
    naming := some oid
    answers := if ctx.checking then none else some ctx.answers }

/-- What a transition's guards come to: what they read, and those that failed
and refuse nothing. -/
structure Guarded where
  read : Reading := {}
  failed : List Failed := []

/-- What a guard that did not hold comes to, by how it is enforced. -/
def enforce (tn guardName : String) (c : Condition) (mode : Enforce) (ok : Option Bool)
    (notes : List Note) (after : Guarded) : Act Guarded := do
  let ctx ← Act.context
  let unanswered := notes.any Note.isUnanswered
  let read := readingOf notes
  let objects := inIdOrder ctx.work (namedIn notes)
  match mode with
  | .deny => Program.stop (.refused
      (.unsatisfied guardName (if unanswered then some .temporal else c.remedy))
      { unknown := ok.isNone, consulted := read.consulted, objects })
  | .warn => do
      let told := if tn = ctx.requested then guardName else qualified guardName tn
      Program.modify fun ctx =>
        { ctx with flags := ctx.flags ++ [⟨told, c.remedy, ok.isNone, objects⟩] }
      let failed : Failed := ⟨guardName, true, c.remedy, ok.isNone, read⟩
      return { after with failed := after.failed ++ [failed] }
  | .audit =>
      let failed : Failed := ⟨guardName, false, c.remedy, ok.isNone, read⟩
      return { after with failed := after.failed ++ [failed] }

/-- A guard of a transition, taken after what came of those before it. -/
def takeGuard (m : MetricReader) (t : FlowType) (tn : String) (x : Transition)
    (oid : Option String) (inputs : Table String Value) (before : Guarded) (guardName : String)
    (mode : Enforce) : Act Guarded :=
  match t.condition? guardName with
  | none => Act.notRun ("the guard " ++ guardName ++ ", which " ++ tn ++ " does not declare")
  | some c => do
      let (ok, notes) ← Program.check fun ctx => evaluated do
        truth (← (ctx.guardEvaluator t x oid inputs guardName).eval m c.expression)
      let read := readingOf notes
      Act.noteRead read
      let after := { before with read := before.read.merge read }
      let ctx ← Act.context
      if ctx.checking && notes.any Note.isUnanswered then do
        let told := if tn = ctx.requested then guardName else qualified guardName tn
        Program.modify fun ctx => { ctx with unevaluated := ctx.unevaluated ++ [told] }
        return after
      else if ok = some true then return after
      else enforce tn guardName c mode ok notes after

/-- A transition's guards, in their order. -/
def takeGuards (m : MetricReader) (t : FlowType) (tn : String) (x : Transition)
    (oid : Option String) (inputs : Table String Value) :
    List (String × Enforce) → Guarded → Act Guarded
  | [], before => return before
  | (g, mode) :: rest, before => do
      let after ← takeGuard m t tn x oid inputs before g mode
      takeGuards m t tn x oid inputs rest after

end ObjectFlow
