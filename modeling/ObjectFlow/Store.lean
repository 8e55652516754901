import ObjectFlow.Propose

/-!
# The store a request commits to

What a satisfied request's change is written as: its events in the log, its
objects' rows, their spans and the rows of the write index and the admissions,
and what an erasure takes from the rows and events before it.  The world read
back is what the next request is decided on.
-/

namespace ObjectFlow

open Base

/-! ### Rows -/

/-- The attributes a row gives back: a column that holds a value, and every
stored set, empty where it has no element. -/
def FlowType.rowAttrs (t : FlowType) (attrs : Table String Value) : Table String Value :=
  t.attributes.foldl (fun out (n, a) =>
    if a.many then
      if a.storedSet then
        Table.set out n (match Table.get? attrs n with
          | some (.set items) => .set items
          | _ => .set [])
      else out
    else match Table.get? attrs n with
      | some v => if v.isAbsent then out else Table.set out n v
      | none => out) []

/-- Whether the type's table names what an object is superseded by. -/
def FlowType.superseding (t : FlowType) : Bool := t.states.any fun (_, s) => s.superseding

/-- Whether the event table takes an event: its position and its place among
its object's events are its own. -/
def World.takesEvent (w : World) (e : Event) : Bool :=
  !w.stored.any fun f =>
    f.position = e.position || (f.objectId = e.objectId && f.objectSeq = e.objectSeq)

/-- An event in the log, which is read in position order. -/
def World.logged (w : World) (e : Event) : World :=
  { w with stored := w.stored.orderedInsert (fun a b => a.position ≤ b.position) e }

/-- An object's columns over the row held. -/
def Object.updated (held o : Object) (t : FlowType) : Object :=
  { held with
    state := o.state
    version := o.version
    attrs := t.rowAttrs o.attrs
    supersededBy := if t.superseding then o.supersededBy else none }

/-- A new object's row, and its place in the directory. -/
def Object.inserted (o : Object) (t : FlowType) : Object :=
  { id := o.id, type := o.type, state := o.state, version := o.version
    attrs := t.rowAttrs o.attrs, createdAt := o.createdAt, createdByKind := o.createdByKind
    supersededBy := if t.superseding then o.supersededBy else none
    recordedFrom := o.recordedFrom }

/-- One event written with its object's row; none where the store refuses it: a
type the library lacks, a row there already or missing, or an event the event
table does not take. -/
def World.writeRow (w : World) (o : Object) (made : Bool) (e : Event) : Option World :=
  match w.lib.type? o.type with
  | none => none
  | some t =>
      if !w.takesEvent e then none
      else match w.get o.id, made with
        | none, true => some { w.logged e with objects := Table.put w.objects o.id (o.inserted t) }
        | some held, false =>
            -- the row of its type's table; a type is never rewritten here
            if held.type = o.type then
              some { w.logged e with objects := Table.put w.objects o.id (held.updated o t) }
            else some (w.logged e)
        | some _, true => none
        | none, false => none

/-! ### Spans, the write index and admissions -/

/-- The spans of a dimension in the order they are read in. -/
def inEntryOrder (spans : List Span) : List Span :=
  spans.insertionSort fun a b =>
    a.enteredPosition < b.enteredPosition ∨
      (a.enteredPosition = b.enteredPosition ∧ a.enteredAt ≤ b.enteredAt)

/-- Two spans of one row of the interval table. -/
def Span.sameRow (a b : Span) : Bool :=
  a.enteredPosition = b.enteredPosition && a.enteredAt = b.enteredAt

/-- `INSERT … ON CONFLICT DO UPDATE`: a row held takes the value, the end and
the correction. -/
def upsertSpan (held : List Span) (sp : Span) : List Span :=
  if held.any sp.sameRow then
    held.map fun h =>
      if sp.sameRow h then
        { h with
          value := sp.value, leftPosition := sp.leftPosition, leftAt := sp.leftAt
          correctedBy := sp.correctedBy }
      else h
  else inEntryOrder (held ++ [sp])

/-- Whether an event opened a span, ended it or relabelled it. -/
def Span.touchedBy (position : Int) (sp : Span) : Bool :=
  sp.enteredPosition = position || sp.leftPosition = some position ||
    sp.correctedBy = some position

/-- The spans an object's event touched, by dimension. -/
def touchedSpans (o : Object) (e : Event) : List (String × String × Span) :=
  o.spans.flatMap fun (dimension, list) =>
    (list.filter (Span.touchedBy e.position)).map fun sp => (o.id, dimension, sp)

/-- The last of each row's spans. -/
def lastOfRow : List (String × String × Span) → List (String × String × Span)
  | [] => []
  | (id, dimension, sp) :: rest =>
      if rest.any fun (id', dimension', sp') =>
          id = id' && dimension = dimension' && sp.sameRow sp' then lastOfRow rest
      else (id, dimension, sp) :: lastOfRow rest

/-- A row changed, its id and its type left as they are. -/
def World.rewriteRow (w : World) (id : String) (f : Object → Object) : World :=
  { w with objects := w.objects.map fun (k, o) =>
      (k, if k = id then { f o with id := o.id, type := o.type } else o) }

/-- A span written over its row. -/
def Object.upsertSpan (o : Object) (dimension : String) (sp : Span) : Object :=
  { o with spans := Table.set o.spans dimension (ObjectFlow.upsertSpan (Spans.of o.spans dimension) sp) }

/-- The spans given, each written over its row. -/
def World.upsertSpans (w : World) (spans : List (String × String × Span)) : World :=
  (lastOfRow spans).foldl (fun w (id, dimension, sp) =>
    w.rewriteRow id fun o => o.upsertSpan dimension sp) w

/-- The spans corrections merged away, deleted. -/
def World.deleteMerged (w : World) (merged : List (String × String × Int × Int × Int)) : World :=
  merged.foldl (fun w (id, dimension, entered, at', _) => w.rewriteRow id fun o =>
    { o with spans := o.spans.map fun (d, list) =>
        if d = dimension then
          (d, list.filter fun sp => !(sp.enteredPosition = entered && sp.enteredAt = at'))
        else (d, list) }) w

/-- The rows of the write index, in the order set. -/
def World.writeIndex (w : World) (index : List (String × String × Int)) : World :=
  index.foldl (fun w (id, a, position) => w.rewriteRow id fun o =>
    { o with writes := Table.set o.writes a position }) w

/-- The admissions recorded and discharged: one is discharged by an event after
the one that recorded it. -/
def Object.admitted (o : Object) (admitted : List (String × String × Int × String))
    (discharged : List (String × String × Int)) : List String :=
  let standing := o.admissions.filter fun n =>
    !discharged.any fun (id, name, _) => id = o.id && name = n
  let new := admitted.filter fun (id, n, position, _) => id = o.id &&
    !discharged.any fun (id', name, ended) => id' = id && name = n && position < ended
  addNames standing (new.map fun (_, n, _, _) => n)

def World.writeAdmissions (w : World) (admitted : List (String × String × Int × String))
    (discharged : List (String × String × Int)) : World :=
  { w with
    admitting := w.admitting ++ admitted.map fun (_, _, position, _) => position
    objects := w.objects.map fun (k, o) =>
      (k, { o with admissions := o.admitted admitted discharged }) }

/-! ### What an erasure takes from the store -/

/-- A part of a payload with one of its values nulled. -/
def nulled (part : Table String Value) (key : String) : Table String Value :=
  part.map fun (k, v) => (k, if k = key then .absent else v)

namespace Payload

variable (p : Payload)

def nullWrote (key : String) : Payload := { p with wrote := nulled p.wrote key }

def nullInput (key : String) : Payload := { p with inputs := nulled p.inputs key }

/-- A correction's record without the values it replaced and wrote. -/
def nullCorrected (key : String) : Payload :=
  { p with corrected := p.corrected.map fun (k, replaced, value, entered) =>
      if k = key then (k, .absent, .absent, entered) else (k, replaced, value, entered) }

end Payload

/-- The first position a change writes an event at. -/
def Change.first (c : Change) : Option Int := (c.writes.map fun (_, _, e) => e.position).min?

/-- An event's payload without what an erasure of its object redacts: what it
wrote where it was before the change, what a correction recorded, and the
inputs that sent it. -/
def Change.redactedPayload (c : Change) (e : Event) : Payload :=
  c.redacted.foldl (fun p (id, attributes) =>
    if id = e.objectId then
      attributes.foldl (fun p a =>
        let p := if c.first.all (e.position < ·) then p.nullWrote a else p
        (p.nullCorrected a).nullInput a) p
    else p) e.payload

/-- An event's payload without what a change redacts of single events. -/
def Change.redactedSingly (c : Change) (position : Int) (p : Payload) : Payload :=
  let p := c.redactedWrites.foldl (fun p (at', a) =>
    if at' = position then (p.nullWrote a).nullCorrected a else p) p
  c.redactedInputs.foldl (fun p (at', a) => if at' = position then p.nullInput a else p) p

/-- A span without its value where its attribute is redacted of its object. -/
def Change.redactedSpan (c : Change) (id dimension : String) (sp : Span) : Span :=
  if (((Table.get? c.redacted id).getD []).contains dimension) ||
      c.redactedSpans.contains (id, dimension, sp.enteredPosition) then
    { sp with value := .absent }
  else sp

/-- A row no event of the change writes, without the values redacted of it. -/
def Change.redactedAttrs (c : Change) (lib : Library) (o : Object) : Table String Value :=
  if c.writes.any fun (p, _, _) => p.id = o.id then o.attrs
  else match Table.get? c.redacted o.id, lib.type? o.type with
    | some attributes, some t => attributes.foldl (fun attrs a =>
        if (t.attribute? a).any fun spec => !spec.many && spec.personal then Table.erase attrs a
        else attrs) o.attrs
    | _, _ => o.attrs

/-- The store without what a change redacts. -/
def World.redact (w : World) (c : Change) : World :=
  { w with
    stored := w.stored.map fun e =>
      { e with payload := c.redactedSingly e.position (c.redactedPayload e) }
    objects := w.objects.map fun (k, o) => (k, { o with
      attrs := c.redactedAttrs w.lib o
      spans := o.spans.map fun (d, list) => (d, list.map (c.redactedSpan o.id d)) }) }

/-! ### An erased actor's identity -/

/-- Where identities are held: by type, the attributes of type identity, the
sets of them, and the inputs a transition takes. -/
structure IdentityHeld where
  attrs : List (String × String) := []
  sets : List (String × String) := []
  inputs : List (String × String) := []

def Library.identityHeld (lib : Library) : IdentityHeld :=
  let types := (lib.types.map Prod.snd).filter fun t => !t.isAbstract
  let held (many : Bool) := types.flatMap fun t =>
    (t.attributes.filter fun (_, a) => a.declared.isIdentity && a.many = many).map
      fun (n, _) => (t.name, n)
  { attrs := held false
    sets := held true
    inputs := types.flatMap fun t => t.transitions.flatMap fun (_, x) =>
      ((x.inputs.filter fun (_, i) => i.declared.isIdentity).map fun (n, _) => (t.name, n)) ++
        ((x.requiredInputs ++ x.optionalInputs).filter fun n =>
          (t.attribute? n).any (·.declared.isIdentity)).map fun n => (t.name, n) }

/-- One actor's identity replaced by its object's id. -/
structure Renaming where
  identity : String
  id : String

namespace Renaming

variable (rn : Renaming)

/-- A text that names the actor as identities compare. -/
def copies (s : String) : Bool := World.fold s = World.fold rn.identity

/-- A copy of the identity, in any case. -/
def value : Value → Value
  | .text s => .text (if rn.copies s then rn.id else s)
  | v => v

/-- The identity itself. -/
def exactly : Value → Value
  | .text s => .text (if s = rn.identity then rn.id else s)
  | v => v

def name (s : String) : String := if s = rn.identity then rn.id else s

/-- A set of identities as an event wrote it, an element once. -/
def written : Value → Value
  | .set items =>
      if items.any fun v => match v with
          | .text s => rn.copies s
          | _ => false
      then .set ((items.map rn.value).foldl (fun out v =>
        if out.any (·.same v) then out else out ++ [v]) [])
      else .set items
  | v => v

/-- A set of identities as its table holds it: the copies go where the object's
id is among its elements, and are replaced elsewhere. -/
def elements : Value → Value
  | .set items =>
      if items.any (·.same (.text rn.id)) then
        .set (items.filter fun v => match v with
          | .text s => !rn.copies s
          | _ => true)
      else .set (items.map rn.value)
  | v => v

/-- One entry of a table changed. -/
def entry (f : Value → Value) (key : String) (t : Table String Value) : Table String Value :=
  t.map fun (k, v) => (k, if k = key then f v else v)

/-- The inputs a proposal holds, one of them the identity. -/
def heldInputs (r : Readers) (key : String) : Value → Value
  | .text text =>
      match r.inputsOf text with
      | some held => match Table.get? held key with
          | some (.string s) =>
              if rn.copies s then
                .text (r.inputsText (held.map fun (k, v) =>
                  (k, if k = key then .string rn.id else v)))
              else .text text
          | _ => .text text
      | none => .text text
  | v => v

/-- A text with each copy of the identity in it masked. -/
def maskFrom (folded : List Char) : Nat → List Char → List Char
  | _, [] => []
  | skip + 1, _ :: rest => maskFrom folded skip rest
  | 0, c :: rest =>
      if !folded.isEmpty && folded.isPrefixOf ((c :: rest).map Char.toLower) then
        PERSONAL.toList ++ maskFrom folded (folded.length - 1) rest
      else c :: maskFrom folded 0 rest

def mask (s : String) : String :=
  String.ofList (maskFrom (World.fold rn.identity).toList 0 s.toList)

/-- What guards consulted, no reference naming the identity. -/
def consulted (c : Table String (Table String Value)) : Table String (Table String Value) :=
  c.map fun (g, values) => (g, values.foldl (fun out (k, v) => Table.set out (rn.mask k) v) [])

variable (r : Readers) (lib : Library) (held : IdentityHeld)

/-- The type a proposal proposes a transition of. -/
def proposedType (o : Object) : Option String :=
  if o.type = PROPOSAL then o.text "target_type" else none

/-- A row with the identity replaced wherever it is held. -/
def object (o : Object) : Object :=
  let attrs := held.attrs.foldl (fun attrs (tn, n) =>
    if tn = o.type then entry rn.value n attrs else attrs) o.attrs
  let attrs := held.sets.foldl (fun attrs (tn, n) =>
    if tn = o.type then entry rn.elements n attrs else attrs) attrs
  let attrs := held.inputs.foldl (fun attrs (tn, n) =>
    if proposedType o = some tn then entry (rn.heldInputs r n) "inputs" attrs else attrs) attrs
  let attrs := if o.type = PROPOSAL then entry rn.exactly "proposer" attrs else attrs
  let attrs := if o.type = DECLARATION_CHANGE then
    entry rn.exactly "approved_by" (entry rn.exactly "drafted_by" attrs) else attrs
  { o with
    attrs
    spans := o.spans.map fun (d, list) =>
      (d, list.map fun sp => { sp with enteredBy := sp.enteredBy.map rn.name }) }

/-- What an event on an object wrote, with the identity replaced. -/
def payloadOf (o : Object) (p : Payload) : Payload :=
  let wrote := held.attrs.foldl (fun wrote (tn, n) =>
    if tn = o.type then entry rn.value n wrote else wrote) p.wrote
  let wrote := held.sets.foldl (fun wrote (tn, n) =>
    if tn = o.type then entry rn.written n wrote else wrote) wrote
  let wrote := held.inputs.foldl (fun wrote (tn, n) =>
    if proposedType o = some tn then entry (rn.heldInputs r n) "inputs" wrote else wrote) wrote
  let wrote := if o.type = PROPOSAL then entry rn.exactly "proposer" wrote else wrote
  let wrote := if o.type = DECLARATION_CHANGE then
    entry rn.exactly "approved_by" (entry rn.exactly "drafted_by" wrote) else wrote
  { p with
    wrote
    inputs := held.inputs.foldl (fun inputs (tn, n) =>
      if tn = o.type || proposedType o = some tn then entry rn.value n inputs else inputs)
      p.inputs
    corrected := p.corrected.map fun (k, replaced, value, entered) =>
      if held.attrs.contains (o.type, k) then (k, rn.value replaced, rn.value value, entered)
      else (k, replaced, value, entered)
    consulted := if (lib.type? o.type).any (!·.conditions.isEmpty) then rn.consulted p.consulted
      else p.consulted }

/-- An event with the identity replaced wherever it is held. -/
def event (w : World) (e : Event) : Event :=
  { e with
    actorId := rn.name e.actorId
    principal := e.principal.map rn.name
    payload := match w.get e.objectId with
      | some o => rn.payloadOf r lib held o e.payload
      | none => e.payload }

end Renaming

/-- The store with an erased actor's identity replaced by its object's id. -/
def World.renameActor (r : Readers) (w : World) (rn : Renaming) : World :=
  let held := w.lib.identityHeld
  { w with
    stored := w.stored.map (rn.event r w.lib held w)
    objects := w.objects.map fun (k, o) => (k, rn.object r held o) }

/-! ### A change written -/

/-- The store's flag that an object's own erasure is recorded: an event of an
erasure's, neither a redaction nor an invalidation. -/
def World.noteErasures (w : World) : World :=
  { w with objects := w.objects.map fun (k, o) => (k, { o with
      erased := w.stored.any fun e => e.objectId = o.id && e.source = "erased" &&
        e.transition ≠ "redact" && e.transition ≠ "invalidate" }) }

/-- The rows and the events of a change, each in its turn. -/
def World.writeRows : World → List (Object × Bool × Event) → Option World
  | w, [] => some w
  | w, (o, made, e) :: rest => do
      let w ← w.writeRow o made e
      w.writeRows rest

/-- A change written, and the store as the next request reads it; none where
the store refuses a row, and nothing is written. -/
def World.write (r : Readers) (w : World) (c : Change) : Option World := do
  let w ← w.writeRows c.writes
  let w := w.upsertSpans (c.writes.flatMap fun (o, _, e) => touchedSpans o e)
  let w := w.deleteMerged c.merged
  let w := w.writeIndex c.index
  let w := w.writeAdmissions c.admitted c.discharged
  let w := w.redact c
  let w := c.renamedActors.foldl (fun w (identity, id) => w.renameActor r ⟨identity, id⟩) w
  return w.noteErasures

/-- A restore of a copy: the gap of positions it skipped, from the last the
copy held to the one its counter was advanced to. -/
structure Restore where
  copied : Int
  advanced : Int

/-- Whether a position falls in a restore's gap. -/
def Restore.skippedPosition (r : Restore) (p : Int) : Bool := r.copied < p && p ≤ r.advanced

/-- A store: its objects and its log, the counters the last commit left and the
rows its sequences are drawn from, what each subscription's reader acknowledged,
and the restores it has had. -/
structure Store where
  world : World
  counters : Counters
  numbers : NumberRows := .fresh
  acknowledged : Table String Int := []
  restores : List Restore := []

namespace Store

/-- The counters a request draws from, as it begins. -/
def drawing (s : Store) : Counters := { s.counters with numbers := Allocator.read s.numbers }

/-- What a request leaves of the store: a satisfied one's change, where the
store takes it, with the counters it drew from, and of a refused one the numbers
it drew; one not run leaves nothing. -/
def settle (r : Readers) (s : Store) (w : World) : Answer × Counters → Store
  | (.ok (_, c), alloc) =>
      match w.write r c with
      | some world =>
          { s with
            world
            counters := alloc
            numbers := s.numbers.writeSequences alloc.numbers.draws }
      | none => s
  | (.error (.refused _ _), alloc) =>
      { s with numbers := s.numbers.writeSequences alloc.numbers.draws }
  | (.error (.notRun _), _) => s

/-- The store as a request reads it, at an instant and with the attempt log as
it then stands. -/
def opened (s : Store) (now : Int) (attempts : Table String (List Value)) : World :=
  { s.world with now, attempts }

/-- A request run to its end. -/
def request (r : Readers) (s : Store) (now : Int) (attempts : Table String (List Value))
    (req : Request) (answers : Table String String) : Store :=
  let w := s.opened now attempts
  s.settle r w (decide' r w s.drawing req answers false)

end Store

end ObjectFlow
