import ObjectFlow.Calendar
import ObjectFlow.Personal
import ObjectFlow.World

/-!
# Flow data

What the log and the interval index say of an object, as rows an expression
reads: its spans in each state or value of a tracked member, with their
durations and what else was held as each began, and its events.
-/

namespace ObjectFlow

open Base

/-- The spans by dimension an object's flow data holds. -/
abbrev Spans := Table String (List Span)

/-- A dimension's spans, none where it has none. -/
def Spans.of (spans : Spans) (dimension : String) : List Span :=
  (Table.get? spans dimension).getD []

/-- The state a span of the state dimension is in. -/
def Span.stateName (sp : Span) : Option String :=
  match sp.value with
  | .state _ name => some name
  | _ => none

/-- A row of an object's flow data, its fields in name order. -/
def rowOf (fields : List (String × Value)) : Value :=
  .row (fields.foldl (fun row (k, v) => Table.set row k v) [])

/-- The stretches, by occurred time, an object spent in a closed or terminal
state. -/
def closedPeriods (spans : Spans) (t : FlowType) (now : Int) : List (Int × Int) :=
  (spans.of "state").filterMap fun sp =>
    if sp.stateName.any t.finished then some (sp.enteredAt, sp.leftAt.getD now) else none

/-- The value each tracked member held at an event's position: after its
writes on a span it began, before them on the event's own row. -/
def held (lib : Library) (t : FlowType) (spans : Spans) (position : Int) (after : Bool) : Value :=
  rowOf <| (lib.tracked t).filterMap fun m =>
    ((spans.of m).find? fun sp =>
      if after then sp.enteredPosition ≤ position && sp.leftPosition.all (position < ·)
      else sp.enteredPosition < position && sp.leftPosition.all (position ≤ ·)).map
        fun sp => (m, sp.value)

/-- The last of the spans that entered latest. -/
def latest : List Span → Option Span
  | [] => none
  | sp :: rest =>
      match latest rest with
      | none => some sp
      | some best => if sp.enteredAt ≤ best.enteredAt then some best else some sp

/-- The value each tracked member held at a time. -/
def heldAt (lib : Library) (t : FlowType) (spans : Spans) (time : Int) : Value :=
  rowOf <| (lib.tracked t).filterMap fun m =>
    (latest ((spans.of m).filter fun sp => sp.enteredAt ≤ time && sp.leftAt.all (time < ·))).map
      fun sp => (m, sp.value)

/-- Where the unbroken stretch of closed or terminal states an object is in
began, run back over the spans given from the latest. -/
def stretchBegan (t : FlowType) : Int → List Span → Int
  | entry, [] => entry
  | entry, sp :: earlier =>
      if t.finished (sp.stateName.getD "") then stretchBegan t sp.enteredAt earlier else entry

/-- A span's duration.  A state's span is its exit less its entry, a current
one running to now, but a span within the unbroken stretch of closed or
terminal states the object is in now has none.  A member's span counts only
the time its object was open, and has none where it had no open time. -/
def spanDuration (t : FlowType) (o : Object) (spans : Spans) (member : String) (sp : Span)
    (closed : List (Int × Int)) (now : Int) : Value :=
  let finish := sp.leftAt.getD now
  if member ≠ "state" then
    let length := finish - sp.enteredAt
    let shut := (closed.map fun (a, b) => max (min finish b - max sp.enteredAt a) 0).sum
    if length - shut > 0 ∨ length = 0 then .duration (length - shut) else .absent
  else if sp.leftAt.isSome ∨ ¬ t.finished o.state then .duration (finish - sp.enteredAt)
  else
    let states := spans.of "state"
    let entry := match states.getLast? with
      | some last => if last.stateName.getD "" = o.state then last.enteredAt else now
      | none => now
    let entry := stretchBegan t entry states.reverse
    if sp.enteredAt < entry then .duration (entry - sp.enteredAt) else .absent

/-- An object's spans in each state, or each value of a tracked member, as
rows; none where the dimension is not tracked. -/
def intervalRows (w : World) (o : Object) (t : FlowType) (member : String) : Option (List Value) :=
  (Table.get? o.spans member).map fun spans =>
    let closed := closedPeriods o.spans t w.now
    spans.map fun sp => rowOf
      [("object", .object o.id),
        (if member = "state" then "state" else "value", sp.value),
        ("entered_at", .timestamp sp.enteredAt),
        ("left_at", (sp.leftAt.map Value.timestamp).getD .absent),
        ("entered_by_kind", .text sp.enteredByKind),
        ("declaration_version", .int sp.declarationVersion),
        ("legacy", .bool sp.legacy),
        ("migrated", .bool sp.migrated),
        ("corrected_by", (sp.correctedBy.map Value.int).getD .absent),
        ("duration", spanDuration t o o.spans member sp closed w.now),
        -- on a span whose entry precedes the event that opened it, by time
        ("held", if sp.legacy || w.imported.contains sp.enteredPosition
          then heldAt w.lib t o.spans sp.enteredAt
          else held w.lib t o.spans sp.enteredPosition true)]

namespace World

/-- Each actor's identity as held, folded, and its object. -/
def actorsByIdentity (w : World) : List (String × String) :=
  w.lib.types.flatMap fun (tn, t) =>
    match t.actorIdentity with
    | none => []
    | some (attr, _) => (w.ofType tn).filterMap fun o =>
        match o.attr attr with
        | .text identity => some (fold identity, o.id)
        | _ => none

/-- How an actor is named to a reader: by its object where a library marks
identities personal. -/
def actorNamed (w : World) (identity : String) : String :=
  if identitiesPersonal w.lib then
    ((w.actorsByIdentity.reverse.find? fun (held, _) => held = fold identity).map
      Prod.snd).getD identity
  else identity

end World

/-- The reason an assertion's event records, as the enumeration's member its
declaration names. -/
def reasonRead (w : World) (t : FlowType) (e : Event) : Value :=
  if e.source = "erased" then .text "erasure"
  else if e.source = "asserted" ∧ ¬ e.imported then
    match e.payload.reason with
    | none => .absent
    | some member =>
        match ((t.transition? e.transition).bind fun x => named? x.inputs "reason").map
            Input.declared with
        | some (.scalar (.named enumeration)) =>
            if ((Table.get? w.lib.enumerations enumeration).getD []).contains member
            then .member enumeration member else .text member
        | _ => .text member
  else .absent

/-- An event as a row of `transitions`: what it records, and what the
declaration and the index say of it. -/
def transitionRow (w : World) (o : Object) (t : FlowType) (e : Event) : Value :=
  -- a transition into a state the object held before
  let visited := (Spans.of o.spans "state").any fun sp =>
    sp.enteredPosition < e.position && sp.stateName = some e.toState
  rowOf
    [("object", .object o.id),
      ("transition", .text e.transition),
      ("from_state", (e.fromState.map (Value.state o.type)).getD .absent),
      ("to_state", .state o.type e.toState),
      ("completes", .bool (e.fromState.any fun f => !t.finished f && t.finished e.toState)),
      ("returns", .bool (e.fromState.any (· ≠ e.toState) && visited)),
      ("occurred_at", .timestamp (e.occurredAt.getD e.recordedAt)),
      ("recorded_at", .timestamp e.recordedAt),
      ("actor_id", .text (w.actorNamed e.actorId)),
      ("actor_kind", .text e.actorKind),
      ("asserted", .bool (e.source = "asserted")),
      ("overrides", .bool ((e.source = "asserted" && !e.imported) ||
        w.admitting.contains e.position)),
      ("imported", .bool e.imported),
      ("migrated", .bool (e.source = "migrated")),
      ("redacted", .bool (e.transition = "redact")),
      ("reason", reasonRead w t e),
      ("declaration_version", .int e.declarationVersion),
      ("held", held w.lib t o.spans e.position false)]

end ObjectFlow
