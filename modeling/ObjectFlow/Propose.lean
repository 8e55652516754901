import ObjectFlow.Decide

/-!
# Proposals and changes to the declaration

What the store decides itself: a request filed as a proposal instead of taken,
a decision on one, whose approval takes the request it holds, and a request on
a change to the declaration.
-/

namespace ObjectFlow

open Base

def DECLARATION_CHANGE : String := "DeclarationChange"

/-- What a request is answered: its verdict and the change it leaves, or why it
stops. -/
abbrev Answer := Except Stop (Verdict × Change)

/-- An event of a built-in object, by the actor asking now. -/
def storeEvent (w : World) (who : Who) (transition : String) (position : Int)
    (fromState : Option String) (o : Object) (payload : Payload) : Event where
  position
  objectId := o.id
  objectSeq := o.version
  transition
  fromState
  toState := o.state
  changesState := fromState ≠ some o.state
  source := "observed"
  actorId := who.id
  actorKind := who.kind
  principal := who.principal
  declarationVersion := w.lib.version
  recordedAt := w.now
  occurredAt := some w.now
  payload

/-- A built-in object as its event leaves it: its spans, where the change does
not precede its current interval, and its version. -/
def storeRow (w : World) (t : FlowType) (who : Who) (position : Int)
    (before : Option (List (String × Value))) (o : Object) : Object :=
  let o := (recordSpans w.lib t o before position w.now who.id who.kind).getD o
  { o with version := o.version + 1 }

/-! ### Filing -/

/-- What is wrong with one input of a request filed. -/
def filedInput (r : Readers) (w : World) (t : FlowType) (x : Transition) (k : String)
    (raw : Json) : Option InputReason :=
  match inputType t x k with
  | none => none
  | some (declared, many, media) =>
      match r.decode w.lib declared many raw with
      | .error why => some why
      | .ok v =>
          let blank := match v with
            | .text s => trim s = "" && notBlankInput t x k
            | _ => false
          if !mediaTaken media v then some .wrongMediaType
          else if blank then some .malformed
          else match declared with
            | .reference target =>
                let named := match v with
                  | .set items => items
                  | .absent => []
                  | one => [one]
                let fits := named.all fun i => match i with
                  | .object id => (w.get id).any fun o => w.lib.isA o.type target
                  | _ => false
                if fits then none else some .noSuchObject
            | _ => none

/-- The inputs at fault of a request filed: one not taken, one not of its type
or naming nothing, and one left out. -/
def filedWrong (r : Readers) (w : World) (t : FlowType) (x : Transition) (req : Request) :
    List (String × InputReason) :=
  let given := fun k => (Table.get? req.inputs k).any fun raw => !raw.isNull
  let unknown := (Table.keys req.inputs).filter fun k => !takes x k
  unknown.map (fun k => (k, .unknownInput)) ++
    ((req.inputs.filter fun (k, _) => !unknown.contains k).filterMap fun (k, raw) =>
      (filedInput r w t x k raw).map fun why => (k, why)) ++
    ((x.requiredInputs.filter fun k => !given k && match t.attribute? k with
      | none => true
      | some a => !a.optional && a.default.isNone).map fun k => (k, .missing)) ++
    ((x.inputs.filter fun (k, spec) =>
      !given k && !spec.optional && spec.default.isNone).map fun (k, _) => (k, .missing))

/-- A pending proposal of the same proposer, transition and object, not yet
expired. -/
def pendingProposal (w : World) (who : Who) (req : Request) (target : String) : Option Object :=
  (w.ofTypeWhere PROPOSAL (some ["PENDING"]) [("target", .text target)]).find? fun p =>
    (p.attr "target").same (.text target) &&
      (p.attr "transition").same (.text req.transition) &&
      (p.attr "proposer").same (.text who.id) &&
      !(match p.attr "expires_at" with
        | .timestamp e => e ≤ w.now
        | _ => false)

/-- The checks of a request filed for approval, short of the object's state and
its guards. -/
def filable (r : Readers) (w : World) (req : Request) :
    Except Stop (Who × String × Option String × FlowType) := do
  let who ← requestWho w req
  let (tn, oid) ← requestTarget w req
  let (t, x) ← match w.lib.type? tn with
    | none => .error (.refused (.unknownTransition req.transition) {})
    | some _ => requestTransition w req tn oid
  checkStale w req
  if !x.proposable then .error (.refused .notProposable {})
  else
    let wrong := filedWrong r w t x req
    if !wrong.isEmpty then invalid wrong
    else
      let within := req.occurredAt.all fun occurred =>
        (x.backdatingLimit.bind parseDuration).any fun limit =>
          w.now - limit ≤ occurred && occurred ≤ w.now
      if !within then occurredWithin
      else match oid.bind (pendingProposal w who req) with
        | some p => .error (.guard "proposal_pending" .dependent [p.id])
        | none =>
            match w.lib.type? PROPOSAL with
            | some pt => .ok (who, tn, oid, pt)
            | none => .error (.notRun (.unsupported "a store without the built-in Proposal"))

/-- What a proposal records of the request it holds. -/
def proposalAttrs (r : Readers) (w : World) (req : Request) (who : Who) (tn : String)
    (oid : Option String) : Table String Value :=
  let held := [("target", oid.map Value.text), ("target_type", some (.text tn)),
    ("transition", some (.text req.transition)),
    ("inputs", some (.text (r.inputsText req.inputs))), ("proposer", some (.text who.id)),
    ("context", req.context.map Value.text), ("occurred", req.occurredAt.map Value.timestamp),
    ("filed_at", some (.timestamp w.now)), ("expires_at", req.expiresAt.map Value.timestamp)]
  held.foldl (fun attrs (a, v) => match v with
    | some v => Table.set attrs a v
    | none => attrs) []

/-- A verdict that names one event of one object. -/
def satisfiedBy (o : Object) (position : Int) : Verdict :=
  .satisfied o.id o.version [position] [] [] false

/-- A request filed for approval instead of executed: a proposal, pending. -/
def file (r : Readers) (w : World) (alloc : Counters) (req : Request) : Answer × Counters :=
  match filable r w req with
  | .error stop => (.error stop, alloc)
  | .ok (who, tn, oid, pt) =>
      let position := alloc.position + 1
      let number := alloc.object + 1
      let attrs := proposalAttrs r w req who tn oid
      let o := storeRow w pt who position none
        { id := alloc.mintId PROPOSAL number, type := PROPOSAL, state := "PENDING", version := 0
          attrs, createdAt := w.now, createdByKind := who.kind, recordedFrom := w.now }
      -- each input as it was sent
      let sent := req.inputs.map fun (k, raw) => (k, Value.text (r.inputsText [(k, raw)]))
      let event := storeEvent w who "propose" position none o
        { inputs := sent, wrote := wroteBetween [] attrs }
      (.ok (satisfiedBy o position, { writes := [(o, true, event)] }),
        { alloc with position, object := number })

/-! ### Deciding a proposal -/

/-- A text an object holds. -/
def Object.text (o : Object) (a : String) : Option String :=
  match o.attr a with
  | .text s => some s
  | _ => none

/-- A time an object holds. -/
def Object.time (o : Object) (a : String) : Option Int :=
  match o.attr a with
  | .timestamp t => some t
  | _ => none

/-- The state a decision puts a proposal into. -/
def decidedState : String → Except Stop String
  | "approve" => .ok "EXECUTED"
  | "reject" => .ok "REJECTED"
  | "withdraw" => .ok "WITHDRAWN"
  -- only a publish or an erasure invalidates a proposal
  | "invalidate" => .error (.refused (.notRequestable []) {})
  | other => .error (.refused (.unknownTransition other) {})

/-- The state a request's decision puts a proposal into; an invalidation, which
none may ask for, is told stale first. -/
def decisionState (w : World) (req : Request) : Except Stop String :=
  match decidedState req.transition with
  | .ok state => .ok state
  | .error stop =>
      if req.transition = "invalidate" then do
        checkStale w req
        .error stop
      else .error stop

/-- A proposal is rejected, or withdrawn by another than its proposer, by a kind
that may take its transition. -/
def checkDecider (w : World) (who : Who) (p : Object) (state : String) : Except Stop Unit :=
  if state = "EXECUTED" then .ok ()
  else
    let tn := (p.text "target_type").getD ""
    let xn := (p.text "transition").getD ""
    let own := state = "WITHDRAWN" &&
      ((p.text "proposer").bind (resolveActor w)).any fun by' => by'.id = who.id
    match (w.lib.type? tn).bind (·.transition? xn) with
    | none => .ok ()
    | some x =>
        if own || x.takenBy.isEmpty || x.takenBy.contains who.kind then .ok ()
        else .error (.refused (.invariantViolated [⟨p.text "target", tn, xn ++ "_taken_by"⟩]) {})

/-- An approval comes before its proposal expires, and finds its object as its
approver read it. -/
def checkApproval (w : World) (req : Request) (p : Object) (state : String) : Except Stop Unit :=
  if state ≠ "EXECUTED" then .ok ()
  else if (p.time "expires_at").any (· ≤ w.now) then .error (.refused (.unavailable "expired") {})
  else match req.targetVersion, (p.text "target").bind w.get with
    | some read, some o =>
        if o.version = read then .ok () else .error (.refused (.stale read o.version) {})
    | _, _ => .ok ()

/-- The checks of a decision on a proposal. -/
def decidable' (w : World) (req : Request) : Except Stop (Who × Object × FlowType × String) := do
  let who ← requestWho w req
  match req.objectId.bind w.get with
  | none => .error (.refused .notFound {})
  | some p =>
      if req.type.any fun tn => !w.lib.isA PROPOSAL tn then .error (.refused .notFound {})
      else match w.lib.type? PROPOSAL with
        | none => .error (.notRun (.unsupported "a store without the built-in Proposal"))
        | some pt => do
            let state ← decisionState w req
            checkStale w req
            if p.state ≠ "PENDING" then .error (.refused (.unavailable p.state) {})
            else do
              checkDecider w who p state
              checkApproval w req p state
              return (who, p, pt, state)

/-- The request a proposal holds, taken by its approver. -/
def heldRequest (r : Readers) (req : Request) (p : Object) : Request where
  transition := (p.text "transition").getD ""
  actor := req.actor
  objectId := p.text "target"
  type := if (p.text "target").isSome then none else p.text "target_type"
  inputs := ((p.text "inputs").bind r.inputsOf).getD []
  occurredAt := p.time "occurred"
  principal := req.principal
  context := p.text "context"

/-- The verdict of an approval, naming the proposal's own event too. -/
def withApproval (position : Int) : Verdict → Verdict
  | .satisfied id version events _ flags _ =>
      .satisfied id version ((events ++ [position]).insertionSort (· ≤ ·)) [] flags false
  | other => other

/-- A decision on a proposal: its own event first, and for an approval what the
request it holds does. -/
def decideProposal (r : Readers) (w : World) (alloc : Counters) (req : Request)
    (answers : Table String String) (checking : Bool) : Answer × Counters :=
  match decidable' w req with
  | .error stop => (.error stop, alloc)
  | .ok (who, p, pt, state) =>
      let position := alloc.position + 1
      let alloc := { alloc with position }
      let decided := storeRow w pt who position (some (trackedValues w.lib pt p)) { p with state }
      let event := storeEvent w who req.transition position (some "PENDING") decided
        { wrote := wroteBetween p.attrs decided.attrs }
      if state ≠ "EXECUTED" then
        (.ok (satisfiedBy decided position, { writes := [(decided, false, event)] }), alloc)
      else
        let (answer, alloc) := decideOrStop r w alloc (heldRequest r req p) answers checking
          (p.time "filed_at") (some position)
        (answer.map fun (v, c) =>
          (withApproval position v, { c with writes := (decided, false, event) :: c.writes }),
          alloc)

/-! ### Changes to the declaration -/

/-- Where a change's transition takes it from, and to. -/
def changeStates (transition : String) (held : Bool) : Except Stop (List String × String) :=
  match transition, held with
  | "draft", false => .ok ([], "DRAFTED")
  | "revise", true => .ok (["DRAFTED"], "DRAFTED")
  | "reopen", true => .ok (["SUBMITTED"], "DRAFTED")
  | "submit", true => .ok (["DRAFTED"], "SUBMITTED")
  | "refresh", true => .ok (["SUBMITTED"], "SUBMITTED")
  | "reject", true => .ok (["SUBMITTED"], "REJECTED")
  | "withdraw", true => .ok (["DRAFTED", "SUBMITTED"], "WITHDRAWN")
  -- a supersession and the approval are a publish's
  | "supersede", true | "publish", true => .error (.refused (.notRequestable ["publish"]) {})
  | _, _ => .error (.refused (.unknownTransition transition) {})

/-- Whether an actor is the store's operator. -/
def isTheOperator (w : World) (actor : String) : Bool :=
  (w.get actor).any (·.type = OPERATOR_TYPE) ||
    (w.ofType OPERATOR_TYPE).any fun o => (o.text "identity").any fun s =>
      World.fold s = World.fold actor

/-- Whether an actor of a kind may approve the next version. -/
def mayApprove (lib : Library) (kind : String) : Bool :=
  match lib.publishing with
  | some kinds => kinds.contains kind
  | none => kind ≠ "agent"

/-- A change another actor drafted is moved on only by one that may approve the
next version. -/
def checkMover (w : World) (who : Who) (req : Request) (held : Option Object) :
    Except Stop Unit :=
  match held with
  | none => .ok ()
  | some h =>
      if (h.attr "drafted_by").same (.text who.id) || mayApprove w.lib who.kind ||
          isTheOperator w req.actor then .ok ()
      else .error (.refused
        (.invariantViolated [⟨some h.id, DECLARATION_CHANGE, "publish_taken_by"⟩])
        { objects := [h.id] })

/-- The checks of a request on a change, with its record's attributes and its
state as the request leaves them. -/
def changeable (r : Readers) (w : World) (req : Request) :
    Except Stop (Who × FlowType × Table String Value × String) := do
  let who ← requestWho w req
  match w.lib.type? DECLARATION_CHANGE with
  | none => .error (.notRun (.unsupported "a store without the built-in DeclarationChange"))
  | some t =>
      let held := req.objectId.bind w.get
      if held.isSome && req.type.any fun tn => !w.lib.isA DECLARATION_CHANGE tn then
        .error (.refused .notFound {})
      else do
        let (sources, state) ← match changeStates req.transition held.isSome with
          | .ok found => .ok found
          | .error (.refused (.notRequestable parents) refusal) => do
              checkStale w req
              .error (.refused (.notRequestable parents) refusal)
          | .error stop => .error stop
        checkStale w req
        match held.filter fun h => !sources.contains h.state with
        | some h => .error (.refused (.unavailable h.state) {})
        | none => do
            checkMover w who req held
            let o : Object := held.getD
              { id := "", type := DECLARATION_CHANGE, state, version := 0, createdAt := w.now
                createdByKind := who.kind, recordedFrom := w.now }
            let attrs ← if ["draft", "revise", "submit", "refresh"].contains req.transition then
                r.changed w req o
              else .ok o.attrs
            return (who, t, attrs, state)

/-- A request on a change to the declaration: drafted, revised, submitted or
moved on, as one event of it. -/
def decideChange (r : Readers) (w : World) (alloc : Counters) (req : Request) :
    Answer × Counters :=
  match changeable r w req with
  | .error stop => (.error stop, alloc)
  | .ok (who, t, attrs, state) =>
      let held := req.objectId.bind w.get
      let position := alloc.position + 1
      let number := if held.isSome then alloc.object else alloc.object + 1
      let made : Object :=
        { id := alloc.mintId DECLARATION_CHANGE number, type := DECLARATION_CHANGE, state
          version := 0, createdAt := w.now, createdByKind := who.kind, recordedFrom := w.now }
      let o := storeRow w t who position (held.map (trackedValues w.lib t))
        { held.getD made with attrs, state }
      let event := storeEvent w who req.transition position (held.map (·.state)) o
        { wrote := wroteBetween ((held.map (·.attrs)).getD []) attrs }
      (.ok (satisfiedBy o position, { writes := [(o, held.isNone, event)] }),
        { alloc with position, object := number })

/-! ### Any request -/

/-- A satisfied verdict naming what its request created: each object whose first
event it appended. -/
def withCreated (c : Change) : Verdict → Verdict
  | .satisfied id version events _ flags replayed =>
      let made := (c.writes.filter fun (_, _, e) => e.objectSeq = 1).insertionSort
        fun (_, _, a) (_, _, b) => a.position ≤ b.position
      .satisfied id version events (made.map fun (o, _, _) => o.id) flags replayed
  | other => other

/-- A request decided: filed for approval, on a proposal or a change, or
taken. -/
def decide' (r : Readers) (w : World) (alloc : Counters) (req : Request)
    (answers : Table String String) (checking : Bool) : Answer × Counters :=
  let target := req.objectId.bind w.get
  let deciding := target.any (·.type = PROPOSAL)
  let changing := target.any (·.type = DECLARATION_CHANGE) ||
    (req.objectId.isNone && req.type = some DECLARATION_CHANGE)
  let (answer, alloc) :=
    if req.propose && (changing || deciding) then
      ((requestWho w req).bind fun _ => .error (.refused .notProposable {}), alloc)
    else if req.propose then file r w alloc req
    else if changing then decideChange r w alloc req
    else if deciding then decideProposal r w alloc req answers checking
    else decideOrStop r w alloc req answers checking none none
  (answer.map fun (v, c) => (withCreated c v, c), alloc)

end ObjectFlow
