import ObjectFlow.Subscription

/-!
# What an export's rows withhold

A row of an export is an event, an object or a span without its personal
values: those the installed version marks personal, and those personal under
the version that wrote them, each under the name that version gave it.
-/

namespace ObjectFlow

open Base

/-! ### The types objects were of -/

/-- The type the object an id names was of under a version; an object of the
log's events is always held. -/
def World.typesThen (w : World) (id : String) (version : Int) : String :=
  ((w.get id).map fun o => w.objectTypeThen o version).getD ""

/-- The versions after one, up to the installed one. -/
def World.versionsAfter (w : World) (version : Int) : List Int :=
  (List.range (w.lib.version - version).toNat).map fun i : Nat => version + 1 + i

/-- A name carried over one version's renames of a type's attributes. -/
def Library.renames (lib : Library) (type name : String) : String :=
  match lib.renamedAttributes.find? fun (owner, old, _) => old = name && lib.isA type owner with
  | some (_, _, new) => new
  | none => name

/-- A name carried over the renames of the versions given, a version that moved
the object renaming none. -/
def World.nameNow (w : World) (id : String) : List Int → String → String
  | [], name => name
  | k :: rest, name =>
      let before := w.typesThen id (k - 1)
      let then' := w.typesThen id k
      w.nameNow id rest
        (if before ≠ then' then name else (w.libraryAt k).renames then' name)

/-- Each name an event's payload holds that a later version renamed, with the
installed version's. -/
def World.renamed (w : World) (id : String) (version : Int) (p : Payload) :
    List (String × String) :=
  let later := w.versionsAfter version
  if later.all fun k => (w.libraryAt k).renamedAttributes.isEmpty then []
  else (addNames [] (Table.keys p.inputs ++ Table.keys p.wrote)).filterMap fun n =>
    let now := w.nameNow id later n
    if now ≠ n then some (n, now) else none

/-! ### An event's row -/

/-- Whether an input an event holds is personal under the transition it
recorded: an attribute marked so, or an input. -/
def personalNow (lib : Library) (type : Option String) (transition name : String) : Bool :=
  (type.bind lib.type?).any fun t => t.personal name ||
    (t.transition? transition).any fun x => inputPersonal lib t x name

/-- What an event's payload held that was personal as the versions it was
written under declared it. -/
structure WrittenUnder where
  /-- The type as the version its writes were declared by declared it. -/
  declared : Option FlowType
  /-- The type as the event's version declared it, and its transition. -/
  recorded : Option (FlowType × Transition)
  /-- The installed type's personal attributes, as the version the writes were
  declared by named them, where a rename changed the name since. -/
  renamed : List String

namespace WrittenUnder

def of (w : World) (now : Option String) (transition : String) (e : Event)
    (thenUnder thenRecorded : String) : WrittenUnder where
  declared := w.typeAt (writtenUnder e) thenUnder
  recorded := (w.typeAt e.declarationVersion thenRecorded).bind fun t =>
    (t.transition? transition).map fun x => (t, x)
  renamed := match now.bind w.lib.type? with
    | none => []
    | some t => ((t.attributes.filter fun a => a.2.personal).map Prod.fst).filterMap fun a =>
        let k := w.namedUnder (writtenUnder e) thenUnder a
        if k ≠ a then some k else none

/-- Whether the value named, an input's or a written one's, was personal when
its event was written. -/
def personal (u : WrittenUnder) (lib : Library) (input : Bool) (name : String) : Bool :=
  u.renamed.contains name ||
    if input then u.recorded.any fun r => r.1.personal name || inputPersonal lib r.1 r.2 name
    else u.declared.any (·.personal name)

end WrittenUnder

/-- What an event's values are judged by. -/
structure JudgedBy where
  /-- The type its object is of, or the one its proposal proposes for. -/
  type : Option String
  transition : String
  proposal : Bool
  was : WrittenUnder

/-- What an event's values are judged by: a proposal's by the transition it
proposes, of the type it names. -/
def World.judged (w : World) (e : Event) : JudgedBy :=
  let own (type : Option String) : JudgedBy :=
    { type, transition := e.transition, proposal := false
      was := .of w type e.transition e (w.typesThen e.objectId (writtenUnder e))
        (w.typesThen e.objectId e.declarationVersion) }
  match w.get e.objectId with
  | none => own none
  | some o =>
      if o.type = PROPOSAL then
        match o.attr "target_type", o.attr "transition" with
        | .text target, .text proposed =>
            { type := some target, transition := proposed, proposal := true
              was := .of w (some target) proposed e target target }
        | _, _ => own (some o.type)
      else own (some o.type)

/-- Whether an export withholds a value an event holds, an input's or a written
one's. -/
def JudgedBy.withholds (j : JudgedBy) (lib : Library) (input : Bool) (name : String) : Bool :=
  personalNow lib j.type j.transition name || j.was.personal lib input name

/-- A proposal's inputs as it wrote them, without those withheld. -/
def JudgedBy.heldInputs (j : JudgedBy) (r : Readers) (lib : Library) (wrote : Table String Value) :
    Table String Value :=
  if j.proposal then
    wrote.map fun (k, v) => (k, if k = "inputs" then
      match v with
      | .text text => match r.inputsOf text with
          | some held => .text (r.inputsText (held.filter fun h => !j.withholds lib true h.1))
          | none => .text text
      | v => v
    else v)
  else wrote

/-- An event as the log exports it. -/
structure EventRow where
  event : Event
  declarationType : String
  renamed : List (String × String)

/-- An event's row, its personal inputs, corrected values and written ones
omitted. -/
def World.eventRow (w : World) (r : Readers) (e : Event) : EventRow :=
  let j := w.judged e
  let payload := { e.payload with
    inputs := e.payload.inputs.filter fun (k, _) => !j.withholds w.lib true k
    corrected := e.payload.corrected.filter fun (k, _) => !j.withholds w.lib false k
    wrote := j.heldInputs r w.lib (e.payload.wrote.filter fun (k, _) => !j.withholds w.lib false k) }
  { event := { e with payload }
    declarationType := w.typesThen e.objectId e.declarationVersion
    renamed := w.renamed e.objectId e.declarationVersion payload }

/-! ### An object's row -/

/-- Each version's moves: a type it removed, and those its entries moved objects
into. -/
abbrev Moves := Table Int (List (String × List String))

/-- The types given and each a move took into one of them, found in at most so
many steps. -/
def Moves.into (m : Moves) : Nat → List String → List String
  | 0, types => types
  | fuel + 1, types =>
      let found := m.flatMap fun (_, moved) =>
        (moved.filter fun (_, entered) => entered.any types.contains).map Prod.fst
      let grown := addNames types found
      if grown.length = types.length then types else m.into fuel grown

/-- Whether some earlier version marked an attribute personal, for the type or
for a type a move took its objects from. -/
def World.oncePersonal (w : World) (m : Moves) (type attr : String) : Bool :=
  let types := m.into ((m.flatMap Prod.snd).length + 1) [type]
  (Table.keys w.earlier).any fun v =>
    v ≠ w.lib.version && types.any fun t => w.personalUnder v t attr

/-- Whether an export withholds an attribute an object holds. -/
def World.withholdsAttr (w : World) (m : Moves) (o : Object) (a : String) : Bool :=
  ((w.lib.type? o.type).any (·.personal a)) ||
    (w.oncePersonal m o.type a &&
      let own := w.eventsOf o.id
      (declaredUnder w own (Table.get? o.writes a) o.type a).any fun version =>
        w.personalUnder version (typeThen own o.type version) a)

/-- An object as an export writes it. -/
structure ObjectRow where
  id : String
  type : String
  state : String
  version : Int
  declarationVersion : Int
  declarationType : String
  createdAt : Int
  createdByKind : String
  attributes : Table String Value
  recordedFrom : Int

/-- An object's row, its personal attributes omitted. -/
def World.objectRow (w : World) (m : Moves) (o : Object) : ObjectRow where
  id := o.id
  type := o.type
  state := o.state
  version := o.version
  declarationVersion := w.versionOf o.id
  declarationType := w.typesThen o.id (w.versionOf o.id)
  createdAt := o.createdAt
  createdByKind := o.createdByKind
  attributes := o.attrs.filter fun (a, _) => !w.withholdsAttr m o a
  recordedFrom := o.recordedFrom

/-! ### A span's row -/

/-- The row of the interval table a span is. -/
structure SpanKey where
  objectId : String
  dimension : String
  enteredPosition : Int
  enteredAt : Int
deriving DecidableEq

/-- An interval row a later commit deleted or moved. -/
structure Retraction where
  position : Int
  key : SpanKey

/-- A span as a page of an export's intervals reads it: by the event that last
wrote it, with its object's type and place in creation order. -/
structure CursoredSpan where
  cursor : Int
  objectId : String
  type : String
  dimension : String
  span : Span
  order : Nat

def CursoredSpan.key (s : CursoredSpan) : SpanKey :=
  ⟨s.objectId, s.dimension, s.span.enteredPosition, s.span.enteredAt⟩

/-- A span as an export writes it. -/
structure SpanRow where
  key : SpanKey
  leftAt : Option Int
  enteredBy : Option String
  enteredByKind : String
  transition : Option String
  declarationVersion : Int
  declarationType : String
  legacy : Bool
  value : Option Value

/-- Whether an export withholds a span's value. -/
def World.withholdsSpan (w : World) (s : CursoredSpan) (declarationType : String) : Bool :=
  s.dimension ≠ "state" && ((w.lib.type? s.type).any (·.personal s.dimension) ||
    w.personalUnder s.span.declarationVersion declarationType s.dimension)

/-- A span's row, its value omitted where the member is personal. -/
def World.spanRow (w : World) (s : CursoredSpan) : SpanRow :=
  let declarationType := w.typesThen s.objectId s.span.declarationVersion
  { key := s.key
    leftAt := s.span.leftAt
    enteredBy := s.span.enteredBy
    enteredByKind := s.span.enteredByKind
    transition := if s.span.legacy then none
      else (w.eventAt s.span.enteredPosition).map (·.transition)
    declarationVersion := s.span.declarationVersion
    declarationType
    legacy := s.span.legacy
    value := if w.withholdsSpan s declarationType then none else some s.span.value }

end ObjectFlow
