import ObjectFlow.Request

/-!
# Erasure

What an erasure clears and redacts: its object's personal attributes and
spans; the personal values its past events recorded, with what flowed from
them down into the objects its events caused and up into the callers that
passed them on; and the proposals on it.  Every other object whose value it
redacts records an event of its own.
-/

namespace ObjectFlow

open Base

/-! ### What expressions and steps carry -/

mutual

/-- The bare names an expression reads at the start of a path, a loop's own
binder excepted. -/
def Expr.namesRead : Expr → List String
  | .name n => [n]
  | .path b _ => b.namesRead
  | .call f args => f.namesRead ++ namesReadAll args
  | .agg _ _ var c f b =>
      namesReadOption c ++ (namesReadOption f ++ namesReadOption b).filter fun n => var ≠ some n
  | .metric n binds _ _ => n.namesRead ++ namesReadBinds binds
  | .changed _ e | .not e | .neg e | .isNull e _ => e.namesRead
  | .set items => namesReadAll items
  | .in' l r | .bin _ l r => l.namesRead ++ r.namesRead
  | .if' c a b => c.namesRead ++ a.namesRead ++ b.namesRead
  | _ => []

def namesReadAll : List Expr → List String
  | [] => []
  | e :: rest => e.namesRead ++ namesReadAll rest

def namesReadBinds : List (String × Expr) → List String
  | [] => []
  | (_, e) :: rest => e.namesRead ++ namesReadBinds rest

def namesReadOption : Option Expr → List String
  | none => []
  | some e => e.namesRead

end

/-- Whether an expression is the name given. -/
def Expr.isName (name : String) : Expr → Bool
  | .name n => n = name
  | _ => false

mutual

/-- Whether an expression reads one of the attributes given, bare or through
`this`. -/
def Expr.readsAttribute (attributes : List String) : Expr → Bool
  | .name n => attributes.contains n
  | .path b m => if b.isName "this" then attributes.contains m else b.readsAttribute attributes
  | .call f args => f.readsAttribute attributes || readsAttributeAll attributes args
  | .agg _ _ _ c f b => readsAttributeOption attributes c || readsAttributeOption attributes f ||
      readsAttributeOption attributes b
  | .metric n binds window fresh => n.readsAttribute attributes ||
      readsAttributeBinds attributes binds || readsAttributeOption attributes window ||
      readsAttributeOption attributes fresh
  | .changed _ e | .not e | .neg e | .isNull e _ => e.readsAttribute attributes
  | .set items => readsAttributeAll attributes items
  | .in' l r | .bin _ l r => l.readsAttribute attributes || r.readsAttribute attributes
  | .if' c a b => c.readsAttribute attributes || a.readsAttribute attributes ||
      b.readsAttribute attributes
  | _ => false

def readsAttributeAll (attributes : List String) : List Expr → Bool
  | [] => false
  | e :: rest => e.readsAttribute attributes || readsAttributeAll attributes rest

def readsAttributeBinds (attributes : List String) : List (String × Expr) → Bool
  | [] => false
  | (_, e) :: rest => e.readsAttribute attributes || readsAttributeBinds attributes rest

def readsAttributeOption (attributes : List String) : Option Expr → Bool
  | none => false
  | some e => e.readsAttribute attributes

end

/-- Whether an expression carries a tainted value: it reads a tainted input,
or an attribute holding one. -/
def carries (e : Expr) (inputs attributes : List String) : Bool :=
  inputs.any e.readsInput || e.readsAttribute attributes

mutual

/-- The inputs a step that takes a transition maps, each with the expressions
its value comes from: its own and, where it reads a loop's item, the loop's
array. -/
def Step.taking (lib : Library) (transition : String) (type : Option String) :
    Step → List (String × List Expr)
  | .create created tr inputs _ =>
      if tr = transition && type.all (lib.isA · created) then inputs.map fun (n, e) => (n, [e])
      else []
  | .call _ tr inputs => if tr = transition then inputs.map fun (n, e) => (n, [e]) else []
  | .foreach item array _ _ _ steps =>
      (stepsTaking lib transition type steps).map fun (n, exprs) =>
        if exprs.any fun e => e.namesRead.contains item then (n, exprs ++ array.toList)
        else (n, exprs)
  | _ => []

def stepsTaking (lib : Library) (transition : String) (type : Option String) :
    List Step → List (String × List Expr)
  | [] => []
  | s :: rest => s.taking lib transition type ++ stepsTaking lib transition type rest

end

mutual

/-- The locations a step assigns or adds an input to. -/
def Step.writtenFrom (input : String) : Step → List String
  | .assign location e | .add location e => if e.readsInput input then [location] else []
  | .foreach _ _ _ _ _ steps => writtenFromAll input steps
  | _ => []

def writtenFromAll (input : String) : List Step → List String
  | [] => []
  | s :: rest => s.writtenFrom input ++ writtenFromAll input rest

end

/-- The attributes an input writes: itself where it is an attribute's input,
and each location an effect step assigns or adds it to. -/
def attributesWritten (t : FlowType) (x : Transition) (input : String) : List String :=
  addNames [] ((if x.attributeInputs.contains input && (t.attribute? input).isSome then [input]
    else []) ++ writtenFromAll input x.effect)

/-! ### The types and versions events were written under -/

/-- The type an object was of under a version: its own, or the one a later
move took it from. -/
def typeThen (own : List Event) (current : String) (version : Int) : String :=
  own.reverse.foldl (fun was e =>
    match e.payload.movedFrom with
    | some before => if version ≤ e.declarationVersion then before else was
    | none => was) current

def World.objectTypeThen (w : World) (o : Object) (version : Int) : String :=
  if w.movedInto o.type then typeThen (w.movesOf o.id) o.type version else o.type

/-- The version an event's writes were declared by: its own, or the one a
migration installed. -/
def writtenUnder (e : Event) : Int :=
  if e.source = "migrated" then e.declarationVersion + 1 else e.declarationVersion

/-- The version of the last migration to write a value where it differs from
what the events before it wrote, of an object's events from the latest. -/
def lastMigrated (wrote : Event → Option Value) (indexed : Option Int) : List Event → Option Int
  | [] => none
  | e :: earlier =>
      let written := (wrote e).filter fun v => !v.isAbsent
      if e.source ≠ "migrated" || indexed.any (e.position ≤ ·) then
        lastMigrated wrote indexed earlier
      else match written with
        | none => lastMigrated wrote indexed earlier
        | some v =>
            if (earlier.findSome? wrote).any fun u => u.json = v.json then
              lastMigrated wrote indexed earlier
            else some (writtenUnder e)

/-- The version that declared what an object holds of an attribute: that of
the last migration to write it after the event the write index names, else
that event's. -/
def declaredUnder (w : World) (own : List Event) (indexed : Option Int)
    (current attr : String) : Option Int :=
  let wrote := fun (e : Event) =>
    let under := writtenUnder e
    Table.get? e.payload.wrote (w.namedUnder under (typeThen own current under) attr)
  match lastMigrated wrote indexed own.reverse with
  | some under => some under
  | none => (indexed.bind w.eventAt).map (·.declarationVersion)

/-! ### The walks up and down the log -/

/-- What an erasure redacts: the inputs and the writes events recorded, by
position and name, and what it clears on other objects, with the event that
carried it in. -/
structure Redactions where
  inputs : List (Int × String) := []
  writes : List (Int × String) := []
  cleared : List (String × String × Int) := []

def Redactions.append (r s : Redactions) : Redactions where
  inputs := r.inputs ++ s.inputs
  writes := r.writes ++ s.writes
  cleared := r.cleared ++ s.cleared

/-- The inputs of the callers that passed a personal value on, up an event's
cause chain until a level passes none on. -/
def callerTaint (w : World) : Nat → Event → (String → Bool) → List (Int × String)
  | 0, _, _ => []
  | fuel + 1, callee, tainted =>
      match callee.cause.bind w.eventAt with
      | none => []
      | some caller =>
          let version := writtenUnder caller
          let lib := w.libraryAt version
          let taken := (w.get caller.objectId).bind fun co =>
            (lib.type? (w.objectTypeThen co version)).bind (·.transition? caller.transition)
          match taken with
          | none => []
          | some cx =>
              let type := (w.get callee.objectId).map fun o =>
                w.objectTypeThen o (writtenUnder callee)
              let passed := fun n =>
                (stepsTaking lib callee.transition type cx.effect).any fun (input, exprs) =>
                  tainted input && exprs.any (·.readsInput n)
              ((Table.keys caller.payload.inputs).filter passed).map (fun n => (caller.position, n))
                ++ callerTaint w fuel caller passed

/-- What one caused event redacts of the inputs passed into it, with the
inputs and the attributes that carry them on. -/
def flowedInto (w : World) (f : Event) (p : Object) (pt : FlowType) (px : Transition)
    (under : Int) (type : String) (passed : List String) : Redactions × List String :=
  let installed := ((w.lib.type? p.type).map (·.attributes)).getD [] |>.map fun (a, _) =>
    (w.namedUnder under type a, a)
  let recorded := passed.filter fun n => (Table.get? f.payload.inputs n).isSome
  let personal := passed.flatMap fun n => (attributesWritten pt px n).filter pt.personal
  let written := personal.filter fun a =>
    (Table.get? f.payload.wrote a).any fun v => !v.isAbsent
  let cleared := personal.filterMap fun a =>
    ((installed.reverse.find? fun (name, _) => name = a).map Prod.snd).bind fun now =>
      if Table.get? p.writes now = some f.position then some (p.id, now, f.position) else none
  ({ inputs := recorded.map fun n => (f.position, n)
     writes := written.map fun a => (f.position, a)
     cleared }, personal)

/-- What flowed down from an erased value: each event the given one caused on
another object, the inputs its step filled from what carries the value, and so
on down. -/
def walkDown (w : World) : Nat → Event → List String → List String → Redactions
  | 0, _, _, _ => {}
  | fuel + 1, e, tainted, holding =>
      let version := writtenUnder e
      let lib := w.libraryAt version
      let taken := (w.get e.objectId).bind fun fo =>
        (lib.type? (w.objectTypeThen fo version)).bind (·.transition? e.transition)
      match taken with
      | none => {}
      | some fx =>
          ((w.causedBy e.position).filter fun f => f.objectId ≠ e.objectId).foldl (fun r f =>
            match w.get f.objectId with
            | none => r
            | some p =>
                let under := writtenUnder f
                let type := w.objectTypeThen p under
                match w.typeAt under type with
                | none => r
                | some pt =>
                    match pt.transition? f.transition with
                    | none => r
                    | some px =>
                        let passed := addNames [] <|
                          (stepsTaking lib f.transition (some type) fx.effect).filterMap
                            fun (input, exprs) =>
                              if exprs.any fun e => carries e tainted holding then some input
                              else none
                        let (into, next) := flowedInto w f p pt px under type passed
                        let r := r.append into
                        if passed.isEmpty then r else r.append (walkDown w fuel f passed next)) {}

/-! ### The erased object -/

/-- The attributes an object holds that its erasure clears: personal under the
installed version, or under the version that last wrote them. -/
def erasedAttributes (w : World) (t : FlowType) (o : Object) (own : List Event) : List String :=
  (t.attributes.filter fun (a, spec) =>
    (Table.get? o.attrs a).isSome && (spec.personal ||
      (declaredUnder w own (Table.get? o.writes a) o.type a).any fun version =>
        w.personalUnder version (typeThen own o.type version) a)).map Prod.fst

/-- An attribute cleared: a set the object stores emptied, any other gone. -/
def clearAttribute (t : Option FlowType) (attrs : Table String Value) (a : String) :
    Table String Value :=
  if ((t.bind (·.attribute? a)).any (·.storedSet)) then Table.set attrs a (.set [])
  else Table.erase attrs a

/-- Whether a span's value is personal, under the installed version or the one
it was written under. -/
def personalSpan (w : World) (t : FlowType) (o : Object) (own : List Event) (a : String)
    (sp : Span) : Bool :=
  t.personal a ||
    w.personalUnder sp.declarationVersion (typeThen own o.type sp.declarationVersion) a

/-- An object's row as its erasure leaves it. -/
def erasedRow (w : World) (t : FlowType) (o : Object) (own : List Event) (erased : List String) :
    Object :=
  { o with
    attrs := erased.foldl (clearAttribute (some t)) o.attrs
    spans := o.spans.map fun (a, list) => (a, list.map fun sp =>
      if personalSpan w t o own a sp then { sp with value := .absent } else sp)
    erased := true }

/-- What one of the erased object's own events redacts: the personal values it
wrote or corrected, its personal inputs, and what flowed from them. -/
def ownRedactions (w : World) (t : FlowType) (o : Object) (own : List Event)
    (erased holding : List String) (e : Event) : Redactions :=
  let was := typeThen own o.type e.declarationVersion
  let tv := (w.typeAt e.declarationVersion was).getD t
  let under := writtenUnder e
  let typeUnder := typeThen own o.type under
  let declared := (w.typeAt under typeUnder).getD t
  let renamed := (t.attributes.filter fun (_, spec) => spec.personal).filterMap fun (a, _) =>
    let k := w.namedUnder under typeUnder a
    if k ≠ a then some k else none
  let held := addNames [] <| (e.payload.wrote.filter fun (_, v) => !v.isAbsent).map Prod.fst ++
    Table.keys e.payload.corrected
  let writes := (held.filter fun n =>
    !erased.contains n && (renamed.contains n || declared.personal n)).map fun n => (e.position, n)
  match (tv.transition? e.transition).orElse fun _ => t.transition? e.transition with
  | none => { writes }
  | some ex =>
      let followed := fun n => personalByOwn tv ex n || tv.personal n || personalByOwn t ex n ||
        t.personal n || renamed.contains n
      let names := Table.keys e.payload.inputs
      let tainted := names.filter followed
      -- one passed into another object's personal attribute is redacted here,
      -- and followed no further
      let inputs := names.filter fun n =>
        followed n || inputPersonal w.lib tv ex n || inputPersonal w.lib t ex n
      let heldThen := holding.map (w.namedUnder e.declarationVersion was)
      let steps := w.log.length + 1
      (({ inputs := inputs.map fun n => (e.position, n), writes } : Redactions).append
        (walkDown w steps e tainted heldThen)).append
          { inputs := callerTaint w steps e tainted.contains }

/-- The attributes of an object that are personal, under the installed version
or one its events were written under. -/
def holdingPersonal (w : World) (t : FlowType) (o : Object) (own : List Event) : List String :=
  (t.attributes.filter fun (a, spec) => spec.personal || own.any fun e =>
    w.personalUnder e.declarationVersion (typeThen own o.type e.declarationVersion) a).map Prod.fst

/-! ### Events recorded apart from a transition of their object -/

/-- An event appended to the log and to the request's own. -/
def Ctx.append (ctx : Ctx) (e : Event) : Ctx :=
  { ctx with
    work := { ctx.work with appended := ctx.work.appended ++ [e] }
    events := ctx.events ++ [e]
    reentered := ctx.reentered || ctx.underway.contains e.objectId }

/-- An object's event recorded apart from a transition of it: its version
advanced, what changed measured from `was`, and the object replaced. -/
def Ctx.recordApart (ctx : Ctx) (p : Object) (was : Table String Value)
    (event : Object → Table String Value → Event) : Ctx :=
  let p := { p with version := p.version + 1 }
  let (wrote, work) := ctx.work.wroteApart p.id was p.attrs
  let ctx := { ctx with work }.append (event p wrote)
  { ctx with work := ctx.work.insert p }

/-- The event an erasure records on another object: source `erased`, caused by
the erasure. -/
def Ctx.erasedEvent (ctx : Ctx) (transition fromState : String) (redacted : List String)
    (position : Int) (o : Object) (wrote : Table String Value) : Event where
  position
  objectId := o.id
  objectSeq := o.version
  transition
  fromState := some fromState
  toState := o.state
  changesState := fromState ≠ o.state
  source := "erased"
  actorId := ctx.who.id
  actorKind := ctx.who.kind
  principal := ctx.who.principal
  cause := ctx.causes.head?
  declarationVersion := ctx.work.lib.version
  recordedAt := ctx.work.now
  occurredAt := some ctx.at'
  payload := { erased := redacted, wrote }

/-- The event of an erasure on an object whose value it redacts, its state
unchanged. -/
def Ctx.redactEvent (ctx : Ctx) (redacted : List String) (position : Int) (o : Object)
    (wrote : Table String Value) : Event :=
  ctx.erasedEvent "redact" o.state redacted position o wrote

/-- The next event's position. -/
def Act.position : Act Int :=
  Program.draw fun ctx =>
    (ctx.alloc.position + 1,
      { ctx with alloc := { ctx.alloc with position := ctx.alloc.position + 1 } })

/-- Attributes of an object noted as erased. -/
def Ctx.noteErased (ctx : Ctx) (id : String) (names : List String) : Ctx :=
  { ctx with
    erased := Table.set ctx.erased id (addNames ((Table.get? ctx.erased id).getD []) names) }

/-- What a walk down clears on another object, on its row and in its spans. -/
def clearFlowed (t : Option FlowType) (p : Object) (flowed : List (String × Int)) : Object :=
  flowed.foldl (fun p (a, position) =>
    { p with
      attrs := clearAttribute t p.attrs a
      spans := p.spans.map fun (d, list) =>
        if d = a then (d, list.map fun sp =>
          if sp.enteredPosition = position then { sp with value := .absent } else sp)
        else (d, list) }) p

/-- A `redact` event on one object other than the erased one, whose value the
erasure redacted; none on one this request erases. -/
def redactOther (cleared : List (String × String × Int)) (id : String) (redacted : List String) :
    Act Unit := do
  let ctx ← Act.context
  match ctx.work.get id with
  | none => return ()
  | some held =>
      if held.erased && (Table.get? ctx.erased id).isSome then return ()
      else do
        let flowed := if held.erased then [] else
          (cleared.filter fun (o, _, _) => o = id).map Prod.snd
        let p := clearFlowed (ctx.work.lib.type? held.type) held flowed
        Program.modify fun ctx => { ctx with
          redactedWrites := ctx.redactedWrites ++ flowed.map fun (a, position) => (position, a)
          redactedSpans := ctx.redactedSpans ++ flowed.flatMap fun (a, position) =>
            ((Spans.of held.spans a).filter fun sp => sp.enteredPosition = position).map
              fun _ => (id, a, position) }
        let position ← Act.position
        Program.modify fun ctx => ctx.recordApart p held.attrs (ctx.redactEvent redacted position)

/-- The objects other than the erased one whose values its erasure redacted
since, with the names it redacted of each. -/
def redactedOn (ctx : Ctx) (erased : String) (since : Nat) : Table String (List String) :=
  let inputs := (ctx.redactedInputs.drop since).filterMap fun (position, n) =>
    (ctx.work.eventAt position).map fun e => (e.objectId, n)
  let cleared := ctx.cleared.map fun (id, a, _) => (id, a)
  ((inputs ++ cleared).filter fun (id, _) => id ≠ erased).foldl (fun names (id, n) =>
    Table.set names id (addNames ((Table.get? names id).getD []) [n])) []

/-- A `redact` event on every object other than the erased one whose value the
erasure redacted. -/
def redactOthers (erased : String) (since : Nat) : Act Unit := do
  let ctx ← Act.context
  Program.modify fun ctx => { ctx with cleared := [] }
  (redactedOn ctx erased since).forM fun (id, redacted) => redactOther ctx.cleared id redacted

/-- The proposals on an object, by their target's column. -/
def proposalsOn (w : World) (id : String) (pending : Bool) : List String :=
  let target := Value.text id
  ((w.ofTypeWhere PROPOSAL none [("target", target)]).filter fun p =>
    (p.state = "PENDING") = pending && (p.attr "target").same target).map Object.id

/-- A proposal in the state given, with what is left of its inputs. -/
def Ctx.proposalLeft (ctx : Ctx) (pt : FlowType) (p : Object) (state left : String)
    (position : Int) : Object :=
  let changed := { p with state, attrs := Table.set p.attrs "inputs" (.text left) }
  -- a change before the current interval it ends opens no span
  (recordSpans ctx.work.lib pt changed (some (trackedValues ctx.work.lib pt p)) position ctx.at'
    ctx.who.id ctx.who.kind).getD changed

/-- A proposal's inputs replaced by what is left of them, as an event of the
erasure: an invalidation where its state is moved on. -/
def proposalRedacted (pt : FlowType) (p : Object) (state left transition : String)
    (redacted erased : List String) : Act Unit := do
  let position ← Act.position
  Program.modify fun ctx =>
    (ctx.recordApart (ctx.proposalLeft pt p state left position) p.attrs
      (ctx.erasedEvent transition p.state redacted position)).noteErased
        p.id (addNames erased ["inputs"])

/-- A pending proposal on an erased object invalidated, its inputs redacted. -/
def invalidateProposal (r : Readers) (pt : FlowType) (id : String) : Act Unit := do
  let ctx ← Act.context
  match ctx.work.get id with
  | none => return ()
  | some p =>
      let names := match p.attr "inputs" with
        | .text t => (r.inputNames t).getD []
        | _ => []
      proposalRedacted pt p "INVALIDATED" "\x7b\x7d" "invalidate" ["inputs"] names

/-- The inputs of a proposal personal to the transition it proposed, and what is
left without them; none where it holds none. -/
def personalHeld (r : Readers) (lib : Library) (p : Object) : Option (String × List String) :=
  match p.attr "target_type", p.attr "transition", p.attr "inputs" with
  | .text tt, .text xn, .text held => do
      let t ← lib.type? tt
      let names ← r.inputNames held
      let x ← t.transition? xn
      let personal := names.filter (personalByOwn t x)
      if personal.isEmpty then none else some (r.withoutInputs held personal, personal)
  | _, _, _ => none

/-- A decided proposal on an erased object without the inputs personal to the
transition it proposed. -/
def redactProposal (r : Readers) (pt : FlowType) (id : String) : Act Unit := do
  let ctx ← Act.context
  match ctx.work.get id with
  | none => return ()
  | some p =>
      match personalHeld r ctx.work.lib p with
      | none => return ()
      | some (left, personal) => proposalRedacted pt p p.state left "redact" personal personal

/-- Every proposal still pending on an erased object invalidated, then every
one decided on it without its personal inputs. -/
def invalidateProposals (r : Readers) (erased : String) : Act Unit := do
  let ctx ← Act.context
  match ctx.work.lib.type? PROPOSAL with
  | none => return ()
  | some pt => do
      (proposalsOn ctx.work erased true).forM (invalidateProposal r pt)
      let ctx ← Act.context
      (proposalsOn ctx.work erased false).forM (redactProposal r pt)

/-- An actor's identity, by the attribute that holds it. -/
def identityOf (t : FlowType) (o : Object) : Option (String × String) :=
  t.actorIdentity.bind fun (a, _) =>
    match Table.get? o.attrs a with
    | some (.text v) => some (a, v)
    | _ => none

/-- The outcome of an erasure: its object's personal values gone, what its
events and those it passed them to recorded redacted, an event on every other
object it redacted, and the proposals on it invalidated. -/
def eraseObject (r : Readers) (t : FlowType) (o : Object) : Act Object := do
  let ctx ← Act.context
  let w := ctx.work
  let own := w.eventsOf o.id
  let erased := erasedAttributes w t o own
  let row := erasedRow w t o own erased
  let gone := own.foldl (fun gone e =>
    gone.append (ownRedactions w t row own erased (holdingPersonal w t row own) e)) ({} : Redactions)
  Program.modify fun ctx => { ctx with
    redactedSpans := ctx.redactedSpans ++ o.spans.flatMap fun (a, list) =>
      (list.filter (personalSpan w t o own a)).map fun sp => (o.id, a, sp.enteredPosition)
    redactedInputs := ctx.redactedInputs ++ gone.inputs
    redactedWrites := ctx.redactedWrites ++ gone.writes
    cleared := ctx.cleared ++ gone.cleared }
  redactOthers o.id ctx.redactedInputs.length
  let renamed := match identityOf t o with
    | some (a, v) => if erased.contains a then [(v, o.id)] else []
    | none => []
  Program.modify fun ctx =>
    ({ ctx with renamed := ctx.renamed ++ renamed }).noteErased o.id erased
  invalidateProposals r o.id
  return row

end ObjectFlow
