import ObjectFlow.Effects

/-!
# Taking a transition

One transition, the requested one or one it causes: its checks, its guards,
its outcome, its effect and its cascades, depth-first, and its event.  An
event's position is allocated as the outcome begins and its place among the
object's events as it ends.
-/

namespace ObjectFlow

open Base

/-- The most transitions one request takes each caused by the one before. -/
def CALL_DEPTH : Nat := 64

/-- The widest a format pads a number. -/
def IDENTIFIER_WIDTH : Nat := 20

/-! ### Minting -/

/-- A format's part rendered: the number, padded, or a value of the object;
none where the value is absent. -/
def renderPart (r : Readers) (w : World) (t : FlowType) (o : Object) (n : Int) :
    FormatPart → Except Stop (Option String)
  | .text s => .ok (some s)
  | .number width =>
      if IDENTIFIER_WIDTH < width then
        .error (.notRun (.unsupported "a format whose width is past the widest"))
      else .ok (some (padded width n))
  | .field e => do
      let v ← evaluatedOnly (({ world := w, type := some t, this := some o.id } : Evaluator).eval
        r.metrics e)
      return if v.isAbsent then none else some (textOf v)

/-- A segment's parts rendered, up to one that is absent. -/
def renderParts (r : Readers) (w : World) (t : FlowType) (o : Object) (n : Int) :
    List FormatPart → Except Stop (Option String)
  | [] => .ok (some "")
  | p :: rest => do
      match ← renderPart r w t o n p with
      | none => return none
      | some s => return (← renderParts r w t o n rest).map fun others => s ++ others

/-- An identifier's text: an optional segment with an absent value is left out
whole, and no other may have one. -/
def renderFormat (r : Readers) (w : World) (t : FlowType) (o : Object) (n : Int) (attr : String) :
    List FormatSegment → Except Stop String
  | [] => .ok ""
  | segment :: rest => do
      match ← renderParts r w t o n segment.parts with
      | some s => return s ++ (← renderFormat r w t o n attr rest)
      | none =>
          if segment.optional then renderFormat r w t o n attr rest
          else .error (.notRun (.unsupported
            ("a format field of " ++ t.name ++ "." ++ attr ++ " that is absent")))

/-- The scope an identifier numbers in. -/
def scopeOf (t : FlowType) (o : Object) (attr : String) (ident : Identifier) :
    Except Stop String :=
  match ident.scope with
  | none => .ok ""
  | some scope =>
      let v := o.attr scope
      if v.isAbsent then .error (.notRun (.unsupported
        ("minting " ++ t.name ++ "." ++ attr ++ " with its scope absent")))
      else .ok (textOf v)

/-- The next number of a sequence; one exhausted refuses the creation. -/
def drawNumber (scope : Scope) : Act Int := do
  let ctx ← Act.context
  match ctx.alloc.numbers.draw scope with
  | none => Program.stop (.guard "value_in_range" .unreachableFromHere [])
  | some (n, numbers) => do
      Program.modify fun ctx => { ctx with alloc := { ctx.alloc with numbers } }
      return n

/-- An object the operation makes or replaces. -/
def Act.insert (o : Object) : Act Unit :=
  Program.modify fun ctx => { ctx with work := ctx.work.insert o }

/-- Each identifier of a new object, numbered from 1 per sequence and scope, as
its format writes it. -/
def mintEach (r : Readers) (t : FlowType) : List (String × Attribute) → Object → Act Object
  | [], o => return o
  | (a, spec) :: rest, o =>
      match spec.identifier with
      | none => mintEach r t rest o
      | some ident => do
          let scope ← Program.check fun _ => scopeOf t o a ident
          let n ← drawNumber ⟨ident.sequence, scope⟩
          Act.insert o
          let text ← Program.check fun ctx => renderFormat r ctx.work t o n a ident.format
          mintEach r t rest { o with attrs := Table.set o.attrs a (.text text) }

def mint (r : Readers) (t : FlowType) (o : Object) : Act Object := do
  let o ← mintEach r t t.attributes o
  Act.insert o
  return o

/-! ### Beginning -/

/-- A transition whose outcome has begun: its object, what it was before, and
the position of its event. -/
structure Begun where
  object : Object
  fromState : Option String
  /-- Its attributes before, none where it is created. -/
  beforeAttrs : Table String Value
  /-- Its tracked values before, its spans' baseline. -/
  before : Option (List (String × Value))
  position : Int
  cause : Option Int
  consulted : Table String (Table String Value)

/-- The sets a new object stores, empty, and its counters, at 0. -/
def emptyAttributes (t : FlowType) : Table String Value :=
  t.attributes.foldl (fun attrs (a, spec) =>
    if spec.storedSet then Table.set attrs a (.set [])
    else if spec.declared = .scalar (.named "counter") then Table.set attrs a (.int 0)
    else attrs) []

/-- A new object with each attribute's default. -/
def withAttributeDefaults (r : Readers) (t : FlowType) (inputs : Table String Value) :
    List (String × Attribute) → Object → Act Object
  | [], o => return o
  | (a, spec) :: rest, o =>
      match spec.default with
      | none => withAttributeDefaults r t inputs rest o
      | some d => do
          let v ← Program.check fun ctx =>
            evaluatedOnly ((ctx.evaluator t (some o.id) inputs).eval r.metrics d)
          if v.isAbsent then withAttributeDefaults r t inputs rest o
          else do
            let v ← Program.check fun _ => fitted t a v o.id
            withAttributeDefaults r t inputs rest { o with attrs := Table.set o.attrs a v }

/-- A new object's id. -/
def Act.objectId (type : String) : Act String :=
  Program.draw fun ctx =>
    let n := ctx.alloc.object + 1
    (ctx.alloc.mintId type n, { ctx with alloc := { ctx.alloc with object := n } })

/-- The object a creation makes. -/
def createObject (r : Readers) (t : FlowType) (tn xn : String) (x : Transition)
    (inputs : Table String Value) : Act Object := do
  match x.toStates.head? with
  | none => Act.notRun ("an initial transition with no target (" ++ tn ++ "." ++ xn ++ ")")
  | some state => do
      let id ← Act.objectId tn
      let ctx ← Act.context
      let o : Object :=
        { id, type := tn, state, version := 0, attrs := emptyAttributes t, createdAt := ctx.at'
          createdByKind := ctx.who.kind, recordedFrom := ctx.at' }
      Act.insert o
      let o ← withAttributeDefaults r t inputs t.attributes o
      Program.modify fun ctx => { ctx with created := ctx.created ++ [id] }
      return o

/-- The rows of the attempt log of what refused nothing, linked to the event. -/
def observedRows (tn xn : String) (oid : Option String) (position : Int) (failed : List Failed) :
    List Observed :=
  failed.map fun f =>
    { type := tn, objectId := oid, transition := xn, clause := f.clause, remedy := f.remedy
      unknown := f.unknown, flagged := f.flagged, appliedPosition := position, reads := f.reading }

/-- A transition's object as it stands, or made. -/
def heldOrMade (r : Readers) (t : FlowType) (tn xn : String) (x : Transition)
    (inputs : Table String Value) : Option Object → Act Object
  | some o => return o
  | none => createObject r t tn xn x inputs

/-- The outcome begun: its event's position allocated, and its object as it
stands or made. -/
def beginOutcome (r : Readers) (t : FlowType) (tn xn : String) (x : Transition) (oid : Option String)
    (inputs : Table String Value) (guarded : Guarded) : Act Begun := do
  let ctx ← Act.context
  let found := ctx.target oid
  let position ← Act.position
  Program.modify fun ctx => { ctx with
    causes := position :: ctx.causes
    readings := Table.set ctx.readings position guarded.read
    observed := ctx.observed ++ observedRows tn xn oid position guarded.failed }
  let object ← heldOrMade r t tn xn x inputs found
  Program.modify fun ctx => { ctx with underway := object.id :: ctx.underway }
  return { object
           fromState := found.map (·.state)
           beforeAttrs := (found.map (·.attrs)).getD []
           before := found.map (trackedValues ctx.work.lib t)
           position
           cause := ctx.causes.head?
           consulted := guarded.read.consulted }

/-! ### The outcome -/

/-- A transition's inputs written to its object's attributes: one given as
absent clears its attribute. -/
def writeInputs (t : FlowType) (inputs : Table String Value) :
    List String → Object → Except Stop Object
  | [], o => .ok o
  | k :: rest, o =>
      match Table.get? inputs k with
      | none => writeInputs t inputs rest o
      | some v =>
          if v.isAbsent then
            writeInputs t inputs rest { o with attrs := Table.erase o.attrs k }
          else do
            let v ← fitted t k v o.id
            writeInputs t inputs rest { o with attrs := Table.set o.attrs k v }

/-- A recording dated as it is recorded, a correction as the fact it replaces;
a label with its subject's state. -/
def dated (w : World) (tn : String) (inputs : Table String Value) (at' : Int) (o : Object) :
    Object :=
  let occurred := match Table.get? inputs "corrects" with
    | some (.object c) => ((w.get c).map (·.attr "occurred_at")).getD (.timestamp w.now)
    | _ => .timestamp at'
  let attrs := Table.set (Table.set o.attrs "recorded_at" (.timestamp w.now)) "occurred_at" occurred
  let subject := if tn = LABEL then
      match Table.get? inputs "subject" with
      | some (.object subject) => w.get subject
      | _ => none
    else none
  match subject with
  | some s => { o with attrs := Table.set attrs "subject_state" (.text s.state) }
  | none => { o with attrs }

/-- The state a transition puts its object into. -/
def movedTo (x : Transition) (inputs : Table String Value) (o : Object) : Object :=
  match x.kind, x.toStates.head?, Table.get? inputs "to" with
  | .external, some state, _ => { o with state }
  | .assertion, _, some (.text state) => { o with state }
  | _, _, _ => o

/-- What an erasure leaves of its object, any other transition's as it is. -/
def erasedFirst (r : Readers) (t : FlowType) (x : Transition) (o : Object) : Act Object :=
  if x.kind = .erasure then eraseObject r t o else return o

/-- A new object with its identifiers minted, any other as it is. -/
def mintedFirst (r : Readers) (t : FlowType) (created : Bool) (o : Object) : Act Object :=
  if created then mint r t o else return o

/-- The object as the transition's own outcome leaves it, before its effect. -/
def outcome (r : Readers) (t : FlowType) (tn xn : String) (x : Transition)
    (inputs : Table String Value) (b : Begun) : Act String := do
  let o ← erasedFirst r t x b.object
  let o ← Program.check fun _ => writeInputs t inputs x.attributeInputs (movedTo x inputs o)
  Program.modify fun ctx => { ctx with
    wrote := Table.set ctx.wrote o.id
      (x.attributeInputs.filter fun k => (Table.get? inputs k).isSome) }
  let o ← mintedFirst r t b.fromState.isNone o
  let ctx ← Act.context
  let o := if t.observationOn.isSome && xn = "record" then dated ctx.work tn inputs ctx.at' o
    else o
  Act.insert o
  return o.id

/-- `whole_open` after the effect: a part moved, or made, into a whole the
request found finished. -/
def checkPlaced (t : FlowType) (id : String) (ctx : Ctx) : Except Stop Unit :=
  let closed := t.attributes.findSome? fun (a, spec) =>
    if !ownerEnd ctx.work.lib spec then none
    else match (ctx.work.get id).map (Object.attr · a) with
      | some (.object whole) =>
          let unmoved := (ctx.before.get id).any fun o => (o.attr a).same (.object whole)
          if !unmoved && (ctx.before.get whole).any ctx.before.isFinal then some whole else none
      | _ => none
  match closed with
  | some whole => .error (.guard "whole_open" .selfServiceable [whole])
  | none => .ok ()

/-- `identity_unchanged`: an actor's identity is written only at its
creation. -/
def checkIdentity (t : FlowType) (x : Transition) (id : String) (ctx : Ctx) : Except Stop Unit :=
  match t.actorIdentity, ctx.before.get id, ctx.work.get id with
  | some (a, _), some was, some now =>
      if x.kind ≠ .erasure && !(now.attr a).same (was.attr a) then
        .error (.guard "identity_unchanged" .unreachableFromHere [id])
      else .ok ()
  | _, _, _ => .ok ()

/-! ### Its event -/

/-- What a correction leaves: its object, the baseline of its spans, what each
attribute it corrects held and holds, and the spans it merged away. -/
structure Correcting where
  object : Object
  before : Option (List (String × Value))
  corrected : Table String (Value × Value × Option Int) := []
  merged : List (String × String × Int × Int × Int) := []

/-- One attribute corrected: the current span of a tracked member relabelled,
and its spans seeing no change. -/
def correctOne (lib : Library) (t : FlowType) (b : Begun) (imported : List Int) (c : Correcting)
    (m : String) : Correcting :=
  let v := c.object.attr m
  let was := (Table.get? b.beforeAttrs m).getD .absent
  let relabelled := if !was.same v && (lib.tracked t).contains m then
      correctSpan lib t c.object.spans m v b.position imported
    else none
  match relabelled with
  | none => { c with corrected := Table.set c.corrected m (was, v, none) }
  | some (spans, since, gone) =>
      { object := { c.object with spans }
        before := c.before.map fun tracked => tracked.map fun (n, u) => (n, if n = m then v else u)
        corrected := Table.set c.corrected m (was, v, some since)
        merged := c.merged ++ gone.toList.map fun (entered, at') =>
          (c.object.id, m, entered, at', b.position) }

/-- The attributes a transition wrote, by an input or an effect or by changing
a value. -/
def touched (wrote : List String) (was now : Table String Value) : List String :=
  let changed := Table.keys (Table.keep (fun a v => !((Table.get? was a).any (·.same v))) now)
  let gone := (Table.keys was).filter fun a => (Table.get? now a).isNone
  addNames (addNames wrote changed) gone

/-- The rows of the write index a transition sets: its object's, the part
relationship of the whole it is in, and the collections of the subject it
records on. -/
def indexRows (w : World) (t : FlowType) (xn : String) (o : Object) (touched : List String) :
    List (String × String) :=
  let own := touched.map fun a => (o.id, a)
  let wholes := t.attributes.filterMap fun (a, spec) =>
    match spec.opposite, o.attr a with
    | some back, .object whole => if ownerEnd w.lib spec then some (whole, back) else none
    | _, _ => none
  let recorded := if t.observationOn.isSome && xn = "record" then
      match o.attr "subject" with
      | .object subject =>
          match (w.get subject).bind fun s => w.lib.type? s.type with
          | some st =>
              (st.observations.filter fun (_, kind) => kind = t.name).map (fun (c, _) =>
                (subject, c)) ++
                if t.name = LABEL then [(subject, "labels")] else []
          | none => []
      | _ => []
    else []
  own ++ wholes ++ recorded

/-- The write index's rows of one event set. -/
def Ctx.setIndex (ctx : Ctx) (rows : List (String × String)) (position : Int) : Ctx :=
  rows.foldl (fun ctx (id, a) =>
    { ctx with
      work := ctx.work.change id fun o => { o with writes := Table.set o.writes a position }
      index := ctx.index ++ [(id, a, position)] }) ctx

/-- An external identifier's value as it is kept: text, or a number written
out. -/
def externalText : Value → Option String
  | .absent => none
  | v => some v.written

/-- The external identifiers a transition leaves and those it takes. -/
def externalChanges (t : FlowType) (id : String) (was now : Table String Value) :
    List (String × String × String) × List (String × String × String × String) :=
  let changed := t.attributes.filterMap fun (a, spec) => do
    let source ← spec.external
    let u := (Table.get? was a).getD .absent
    let v := (Table.get? now a).getD .absent
    if u.same v then none else some (source, a, u, v)
  (changed.filterMap fun (source, _, u, _) => (externalText u).map fun s => (source, s, id),
    changed.filterMap fun (source, a, _, v) => (externalText v).map fun s => (source, s, id, a))

/-- What an event records of its request. -/
def payloadOf (ctx : Ctx) (t : FlowType) (x : Transition) (inputs : Table String Value) (b : Begun)
    (id : String) (wrote : Table String Value)
    (corrected : Table String (Value × Value × Option Int)) : Payload :=
  if x.kind = .erasure then { erased := (Table.get? ctx.erased id).getD [], wrote }
  else
    let told := (x.kind = .assertion || !x.corrects.isEmpty) &&
      !inputPersonal ctx.work.lib t x "reason"
    { inputs, wrote, corrected
      reason := if told then (Table.get? inputs "reason").map textOf else none
      consulted := b.consulted }

/-- How an event came about. -/
def sourceOf (x : Transition) : String :=
  match x.kind with
  | .assertion => "asserted"
  | .erasure => "erased"
  | _ => if x.corrects.isEmpty then "observed" else "corrected"

/-- A transition's object as its event leaves it, with the rows of the write
index. -/
def recordRow (t : FlowType) (xn : String) (b : Begun) (o : Object)
    (merged : List (String × String × Int × Int × Int)) (id : String) (ctx : Ctx) : Ctx :=
  let names := touched ((Table.get? ctx.wrote id).getD []) b.beforeAttrs o.attrs
  let ctx := { ctx with
    work := ctx.work.change id fun _ => o
    wrote := Table.erase ctx.wrote id
    merged := ctx.merged ++ merged }
  ctx.setIndex (indexRows ctx.work t xn o names) b.position

/-- A transition's event, with what it wrote and the external identifiers it
left and took. -/
def recordLast (t : FlowType) (xn : String) (x : Transition) (inputs : Table String Value)
    (b : Begun) (o : Object) (corrected : Table String (Value × Value × Option Int)) (id : String)
    (ctx : Ctx) : Ctx :=
  let (wrote, work) := ctx.work.wrote id
  let (left, taken) := externalChanges t id b.beforeAttrs o.attrs
  let ctx := { ctx with
    work
    external := ctx.external ++ taken
    externalRemoved := ctx.externalRemoved ++ left
    underway := ctx.underway.tail
    causes := ctx.causes.tail }
  ctx.append
    { position := b.position
      objectId := id
      objectSeq := o.version
      transition := xn
      fromState := b.fromState
      toState := o.state
      changesState := b.fromState ≠ some o.state
      source := sourceOf x
      actorId := ctx.who.id
      actorKind := ctx.who.kind
      principal := ctx.who.principal
      cause := b.cause
      declarationVersion := ctx.work.lib.version
      recordedAt := ctx.work.now
      occurredAt := some ctx.at'
      payload := payloadOf ctx t x inputs b id wrote corrected }

/-- The transition's event, recorded as it ends with the spans it opens: the
correction it makes, its object's version, the rows of the write index, what it
wrote and the external identifiers it left and took. -/
def record (t : FlowType) (xn : String) (x : Transition) (inputs : Table String Value) (b : Begun)
    (id : String) (ctx : Ctx) : Except Stop Ctx :=
  match ctx.work.get id with
  | none => .error (.notRun (.unsupported ("the object " ++ id ++ ", which its own effect removed")))
  | some held =>
      let lib := ctx.work.lib
      let imported := if x.corrects.isEmpty then [] else ctx.work.imported
      let c := x.corrects.foldl (correctOne lib t b imported) { object := held, before := b.before }
      match recordSpans lib t c.object c.before b.position ctx.at' ctx.who.id ctx.who.kind with
      -- what an effect changed precedes its current interval
      | none => occurredWithin
      | some o =>
          let o := { o with version := o.version + 1 }
          .ok (recordLast t xn x inputs b o c.corrected id (recordRow t xn b o c.merged id ctx))

/-- The event recorded, where nothing refuses it. -/
def recordEvent (t : FlowType) (xn : String) (x : Transition) (inputs : Table String Value)
    (b : Begun) (id : String) : Act Unit := do
  let ctx ← Program.check (record t xn x inputs b id)
  Program.modify fun _ => ctx

/-! ### One transition -/

/-- Whether a transition is taken by one its `only_via` names. -/
def viaNamed (lib : Library) (x : Transition) (taking : Option (String × String)) : Bool :=
  match taking with
  | none => false
  | some (type, transition) => x.onlyVia.any fun v =>
      v = "any" ||
        let chars := v.toList
        let owner := String.ofList (chars.takeWhile (· ≠ '.'))
        chars.contains '.' && String.ofList ((chars.dropWhile (· ≠ '.')).drop 1) = transition &&
          lib.isA type owner

/-- `only_via` holds through a call, a creation and a cascade. -/
def checkVia (tn xn : String) (depth : Nat) (ctx : Ctx) : Except Stop Unit :=
  match (ctx.work.lib.type? tn).bind (·.transition? xn) with
  | some x =>
      if depth > 0 && !x.onlyVia.isEmpty && !viaNamed ctx.work.lib x ctx.taking.head? then
        .error (.refused (.notRequestable x.onlyVia) {})
      else .ok ()
  | none => .ok ()

/-- What an assertion admits, noted with its object. -/
def noteAsserted (x : Transition) (oid : Option String) (inputs : Table String Value) :
    Act Unit :=
  if x.kind = .assertion then do
    let admits ← Program.check (assertionAdmits x oid inputs)
    Program.modify fun ctx => { ctx with asserted := oid, admits }
  else return ()

/-- A recording's checks, with what they read; none of any other transition. -/
def checkRecords (t : FlowType) (xn : String) (inputs : Table String Value) : Act Reading :=
  if t.observationOn.isSome && xn = "record" then checkRecording inputs else return {}

/-- A transition's checks and its guards, with its inputs as it takes them. -/
def checked (r : Readers) (t : FlowType) (tn xn : String) (x : Transition) (oid : Option String)
    (inputs : Table String Value) (depth : Nat) : Act (Table String Value × Guarded) := do
  let inputs ← Program.check (checkInputs r.metrics t x oid inputs depth)
  noteAsserted x oid inputs
  Program.check (checkGenerated t tn x oid inputs depth)
  let read ← checkRecords t xn inputs
  let inputs ← Program.check fun _ => providedInputs tn x xn inputs
  let guarded ← takeGuards r.metrics t tn x oid inputs x.guards { read }
  return (inputs, guarded)

/-- What an erasure drives after its effect: the observations of its object
forgotten, and the other members of its supersession group erased. -/
def eraseFurther (t : FlowType) (x : Transition) (id : String) (inputs : Table String Value)
    (below : TakeBelow) : Act Unit :=
  if x.kind = .erasure then do
    forgetObservations t id inputs below
    eraseChain id inputs below
  else return ()

/-- What a transition does between its outcome and its event: its effect, its
cascades, the checks of where they leave its object, and what its erasure
drives. -/
def followThrough (r : Readers) (t : FlowType) (xn : String) (x : Transition) (id : String)
    (inputs : Table String Value) (position : Int) (below : TakeBelow) : Act Unit := do
  runSteps r t id inputs position below [] x.effect
  cascades r t id inputs below xn
  Program.check (checkPlaced t id)
  Program.check (checkIdentity t x id)
  eraseFurther t x id inputs below

/-- A transition whose checks passed: its outcome, its effect, its cascades, and
its event. -/
def carryOut (r : Readers) (t : FlowType) (tn xn : String) (x : Transition) (oid : Option String)
    (inputs : Table String Value) (guarded : Guarded) (below : TakeBelow) : Act String := do
  let b ← beginOutcome r t tn xn x oid inputs guarded
  let id ← outcome r t tn xn x inputs b
  followThrough r t xn x id inputs b.position below
  recordEvent t xn x inputs b id
  return id

/-- One transition, within the depth a request takes. -/
def takeUnwound (r : Readers) (below : TakeBelow) (depth : Nat) (tn xn : String)
    (oid : Option String) (inputs : Table String Value) : Act String := do
  let ctx ← Act.context
  match ctx.work.lib.type? tn with
  | none => Act.notRun ("the type " ++ tn)
  | some t =>
      match (t.transition? xn).filter fun x => decide (x.kind = .initial) = oid.isNone with
      | none => Act.refuse (.unknownTransition xn)
      | some x =>
          if x.kind = .assertion && depth > 0 then
            Act.notRun ("a caused assertion (" ++ tn ++ "." ++ xn ++ ")")
          else do
            let (inputs, guarded) ← checked r t tn xn x oid inputs depth
            carryOut r t tn xn x oid inputs guarded below

/-- A transition taken with the ones being taken noted. -/
def noted (tn xn : String) (p : Act String) : Act String := do
  Program.modify fun ctx => { ctx with taking := (tn, xn) :: ctx.taking }
  let id ← p
  Program.modify fun ctx => { ctx with taking := ctx.taking.tail }
  return id

/-- One transition, the requested one or one it causes, with the number of
transitions still allowed below it. -/
def take (r : Readers) : Nat → Nat → TakeBelow
  | 0, depth => fun tn xn _ _ => do
      Program.check (checkVia tn xn depth)
      noted tn xn (Act.notRun ("a chain of transitions each caused by the one before (" ++ tn ++
        "." ++ xn ++ ")"))
  | left + 1, depth => fun tn xn oid inputs => do
      Program.check (checkVia tn xn depth)
      noted tn xn (takeUnwound r (take r left (depth + 1)) depth tn xn oid inputs)

end ObjectFlow
