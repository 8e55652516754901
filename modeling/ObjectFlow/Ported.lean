import ObjectFlow.ImportRounds

/-!
# What an import writes

The spans the legacy record gives and those a refresh opens, the legacy entries
each object takes, and the event and row of each object placed; and the store
that holds what an import wrote beside what requests do.
-/

namespace ObjectFlow

open Base

/-! ### Legacy entries -/

mutual

/-- Two wire values, an object's fields in their order. -/
def Json.same : Json → Json → Bool
  | .null, .null => true
  | .bool a, .bool b => a = b
  | .number a, .number b => a = b
  | .string a, .string b => a = b
  | .array a, .array b => Json.sameItems a b
  | .object a, .object b => Json.sameFields a b
  | _, _ => false

def Json.sameItems : List Json → List Json → Bool
  | [], [] => true
  | a :: as, b :: bs => Json.same a b && Json.sameItems as bs
  | _, _ => false

def Json.sameFields : List (String × Json) → List (String × Json) → Bool
  | [], [] => true
  | (k, a) :: as, (l, b) :: bs => k = l && Json.same a b && Json.sameFields as bs
  | _, _ => false

end

mutual

/-- A wire value as a payload holds it: its text, its numbers and its parts. -/
def Json.held : Json → Value
  | .null => .absent
  | .bool b => .bool b
  | .number text => match text.toInt? with
      | some n => .int n
      | none => .text text
  | .string s => .text s
  | .array items => .set (Json.heldItems items)
  | .object fields => .row (Json.heldFields fields)

def Json.heldItems : List Json → List Value
  | [] => []
  | item :: rest => item.held :: Json.heldItems rest

def Json.heldFields : List (String × Json) → List (String × Value)
  | [] => []
  | (k, v) :: rest => (k, v.held) :: Json.heldFields rest

end

/-- One entry of an object's history from before the store. -/
structure LegacyEntry where
  ordinal : Int := 0
  kind : String
  occurredAt : Int
  payload : Table String Json
  /-- The fields its kind keeps through an erasure. -/
  kept : List String

/-- Its fields as an erasure leaves them: those its kind keeps, every other
replaced by absence. -/
def LegacyEntry.redacted (e : LegacyEntry) : Table String Json :=
  e.payload.map fun (k, v) => (k, if e.kept.contains k then v else .null)

/-- An entry of a batch with some of its fields. -/
def EntryIn.entry (e : EntryIn) (payload : Table String Json) (kept : List String) : LegacyEntry :=
  { kind := e.kind, occurredAt := e.occurredAt, payload, kept }

/-- An entry with its own fields, and each field about another object with the
object it moves to. -/
def entriesOf (lib : Library) (external : ExternalIds) (port : Port) (gone : List LegacyKey)
    (kept : List String) (id : String) (e : EntryIn) : List (String × LegacyEntry) :=
  let own := e.about.foldl (fun own (field, _) => Table.erase own field) e.payload
  let moved := e.about.filterMap fun (field, target) => do
    let v ← Table.get? e.payload field
    let key ← (typedKey lib target).filter (heldKey external port gone)
    let other ← resolveKey port.ids external key
    return (other, e.entry [(field, v)] kept)
  moved ++ if own.isEmpty then [] else [(id, e.entry own kept)]

/-- The entries a batch gives the objects not excluded, each to its object. -/
def batchEntries (lib : Library) (external : ExternalIds) (port : Port) (gone : List LegacyKey)
    (kinds : Table String (List String)) (placed : List ImportPlaced) : List (String × LegacyEntry) :=
  placed.flatMap fun p => p.given.legacyEntries.flatMap fun e =>
    entriesOf lib external port gone ((Table.get? kinds e.kind).getD []) p.id e

/-- Whether an object holds an entry, as given or redacted. -/
def LegacyEntry.isHeld (held : List LegacyEntry) (n : LegacyEntry) : Bool :=
  held.any fun h => h.kind = n.kind && h.occurredAt = n.occurredAt &&
    (Json.sameFields h.payload n.payload || Json.sameFields h.payload n.redacted)

/-- An object's new entries after those it holds, each redacted where it is
erased; one it holds already is left as it is. -/
def attach (held : List LegacyEntry) (erased : Bool) (new : List LegacyEntry) : List LegacyEntry :=
  let last := (held.map LegacyEntry.ordinal).foldl max 0
  let fresh := new.filter fun n => !n.isHeld held
  fresh.zipIdx.map fun (n, i) =>
    { n with
      ordinal := last + 1 + i
      payload := if erased then n.redacted else n.payload }

/-- The entries each object is attached, by its id. -/
def attached (w : World) (held : Table String (List LegacyEntry))
    (entries : List (String × LegacyEntry)) : List (String × LegacyEntry) :=
  let ids := ((entries.map Prod.fst).dedup).insertionSort (· ≤ ·)
  ids.flatMap fun id =>
    (attach ((Table.get? held id).getD []) ((w.get id).any Object.erased)
      ((entries.filter fun e => e.1 = id).map Prod.snd)).map fun n => (id, n)

/-! ### The spans of the legacy record -/

/-- The value of a tracked member. -/
def Object.trackedValue (o : Object) (m : String) : Value :=
  if m = "state" then .state o.type o.state else o.attr m

/-- The value an earlier span holds, as its dimension declares it. -/
def earlierValue (r : Readers) (lib : Library) (resolve : LegacyKey → Option String) (t : FlowType)
    (d : String) (raw : Json) (what : String) : Except String Value :=
  if d = "state" then
    match raw.string? with
    | some s =>
        if (t.state? s).isSome then .ok (.state t.name s)
        else .error (what ++ " in a state " ++ t.name ++ " does not declare")
    | none => .error (what ++ " in a state " ++ t.name ++ " does not declare")
  else match t.attribute? d with
    | none => .error (what ++ " of " ++ d ++ ", which " ++ t.name ++ " does not declare")
    | some a =>
        match a.declared, raw with
        | _, .null => .ok .absent
        | .reference target, .string key =>
            match resolve (legacy lib target key) with
            | some id => .ok (.object id)
            | none => .error (what ++ " of " ++ d ++ " naming " ++ key ++
                ", which no object of the batch or the store has as its legacy key")
        | declared, raw =>
            match r.decode lib declared false raw with
            | .ok v => .ok v
            | .error _ => .error (what ++ " of " ++ d ++ " holding a value it cannot")

/-- The values of a dimension's earlier spans, each read. -/
def earlierValues (r : Readers) (lib : Library) (resolve : LegacyKey → Option String)
    (t : FlowType) (d what : String) :
    List LegacyInterval → Except String (List (LegacyInterval × Value))
  | [] => .ok []
  | l :: rest => do
      let v ← earlierValue r lib resolve t d l.value what
      let others ← earlierValues r lib resolve t d what rest
      return (l, v) :: others

/-- An entry time of a dimension the type does not track. -/
def untrackedEntry (lib : Library) (t : FlowType) (o : ImportedObject) : Except String Unit :=
  match o.entered.find? fun (m, _) => !(lib.tracked t).contains m with
  | some (m, _) => .error ("an entry time of " ++ m ++ ", which " ++ t.name ++ " does not track")
  | none => .ok ()

/-- The dimensions a record gives earlier values of, in order, and each one's
values by their entry. -/
def ImportedObject.dimensions (o : ImportedObject) : List String :=
  ((o.legacyIntervals.map LegacyInterval.dimension).dedup).insertionSort (· ≤ ·)

def ImportedObject.intervalsOf (o : ImportedObject) (d : String) : List LegacyInterval :=
  (o.legacyIntervals.filter fun l => l.dimension = d).insertionSort fun a b =>
    a.enteredAt ≤ b.enteredAt

/-- A span an import makes of an interval, at no position of the log yet. -/
def LegacyInterval.span (l : LegacyInterval) (lib : Library) (value : Value) (left : Int)
    (legacy : Bool) : Span :=
  { value, enteredPosition := 0, leftPosition := some 0, enteredAt := l.enteredAt
    leftAt := some left, enteredBy := l.enteredBy
    enteredByKind := l.enteredByKind.getD "unknown", declarationVersion := lib.version, legacy }

/-- The legacy spans of one dimension, or why they are refused: one with no end,
one that ends before it begins or overlaps the one after it, and one earlier
than the creation given or over a silent span. -/
def legacySpansOf (r : Readers) (lib : Library) (resolve : LegacyKey → Option String) (t : FlowType)
    (o : ImportedObject) (d : String) (current : Option Int) :
    List LegacyInterval → Except String (List Span)
  | [] => .ok []
  | l :: rest =>
      let next := (rest.head?.map LegacyInterval.enteredAt).orElse fun _ => current
      match l.leftAt.orElse fun _ => next with
      | none => .error ("a legacy interval of " ++ d ++ " with no end")
      | some left =>
          if left < l.enteredAt then
            .error ("a legacy interval of " ++ d ++ " that ends before it begins")
          else if next.any (left > ·) then
            .error ("a legacy interval of " ++ d ++ " that overlaps the one after it")
          else if o.createdAt.any (l.enteredAt < ·) then
            .error ("a legacy interval of " ++ d ++ " earlier than the creation time it is given")
          else if o.silentSpans.any fun (start, finish) => l.enteredAt < finish && start < left then
            .error ("a legacy interval of " ++ d ++ " that overlaps a silent span")
          else do
            let v ← earlierValue r lib resolve t d l.value "a legacy interval"
            let others ← legacySpansOf r lib resolve t o d current rest
            return l.span lib v left true :: others

/-- The legacy spans of each dimension. -/
def legacySpansEach (r : Readers) (lib : Library) (resolve : LegacyKey → Option String)
    (t : FlowType) (spans : Spans) (o : ImportedObject) :
    List String → Except String (List (String × Span))
  | [] => .ok []
  | d :: rest =>
      if !(lib.tracked t).contains d then
        .error ("a legacy interval of " ++ d ++ ", which " ++ t.name ++ " does not track")
      else do
        -- the current interval opens at its entry, which no earlier one may
        -- reach past
        let current := ((spans.of d).find? fun sp => !sp.legacy).map Span.enteredAt
        let own ← legacySpansOf r lib resolve t o d current (o.intervalsOf d)
        let others ← legacySpansEach r lib resolve t spans o rest
        return own.map (fun sp => (d, sp)) ++ others

/-- The earlier values the legacy record gives a new object, as spans marked
legacy at position 0. -/
def legacySpans (r : Readers) (lib : Library) (resolve : LegacyKey → Option String) (t : FlowType)
    (spans : Spans) (o : ImportedObject) : Except String (List (String × Span)) :=
  if o.silentSpans.any fun (start, finish) => finish ≤ start then
    .error "a silent span that ends before it begins"
  else match o.createdAt.bind fun c => o.entered.find? fun (_, e) => e.at' < c with
    | some (m, _) => .error ("its " ++ m ++ " entered before the creation time it is given")
    | none => do
        untrackedEntry lib t o
        legacySpansEach r lib resolve t spans o o.dimensions

/-- The spans of one dimension's intermediate values not held, or why they are
refused. -/
def intermediateSpansOf (lib : Library) (d : String) (latest current : Int) :
    List (LegacyInterval × Value) → Except String (List Span)
  | [] => .ok []
  | (l, v) :: rest =>
      if l.enteredAt < latest then
        .error ("an intermediate value of " ++ d ++
          " entered before the latest interval the store holds")
      else
        let next := (rest.head?.map fun (n, _) => n.enteredAt).getD current
        if l.enteredAt ≥ next then
          .error ("an intermediate value of " ++ d ++
            " entered at or after the value following it")
        else
          let left := l.leftAt.getD next
          if left < l.enteredAt then
            .error ("an intermediate value of " ++ d ++ " that ends before it begins")
          else if left > next then
            .error ("an intermediate value of " ++ d ++ " that overlaps the value following it")
          else do
            let others ← intermediateSpansOf lib d latest current rest
            return l.span lib v left false :: others

/-- Whether a dimension holds an earlier value. -/
def holdsValue (spans : List Span) (l : LegacyInterval) (v : Value) : Bool :=
  spans.any fun sp => sp.enteredAt = l.enteredAt && sp.value.same v

/-- The intermediate values of each dimension. -/
def intermediateEach (r : Readers) (lib : Library) (resolve : LegacyKey → Option String)
    (t : FlowType) (spans : Spans) (o : ImportedObject) (port : Int) :
    List String → Except String (List (String × List Span))
  | [] => .ok []
  | d :: rest =>
      if !(lib.tracked t).contains d then
        .error ("an intermediate value of " ++ d ++ ", which " ++ t.name ++ " does not track")
      else do
        let given ← earlierValues r lib resolve t d "an intermediate value" (o.intervalsOf d)
        let fresh := given.filter fun (l, v) => !holdsValue (spans.of d) l v
        match (spans.of d).getLast? with
        | none =>
            .error ("an intermediate value of " ++ d ++ ", of which the store holds no interval")
        | some latest => do
            -- the value the refresh brings opens where `entered` says, or at
            -- the import
            let current := ((Table.get? o.entered d).map EnteredAt.at').getD port
            let made ← intermediateSpansOf lib d latest.enteredAt current fresh
            let others ← intermediateEach r lib resolve t spans o port rest
            return (if made.isEmpty then [] else [(d, made)]) ++ others

/-- A refresh's intermediate values: those a dimension held in the legacy record
between the one the store holds and the one the refresh brings. -/
def intermediateSpans (r : Readers) (lib : Library) (resolve : LegacyKey → Option String)
    (t : FlowType) (spans : Spans) (o : ImportedObject) (port : Int) :
    Except String (Table String (List Span)) := do
  untrackedEntry lib t o
  intermediateEach r lib resolve t spans o port o.dimensions

/-! ### The intervals an import opens -/

/-- One dimension moved on by an import: its current span ended, the values
between opened and closed, and the next opened. -/
def importSpan (lib : Library) (o : ImportedObject) (position port : Int) (m : String)
    (between : List Span) (now : Value) (spans : List Span) : Except String (List Span) :=
  let entered := Table.get? o.entered m
  let at' := (entered.map EnteredAt.at').getD port
  let ends := (between.head?.map Span.enteredAt).getD at'
  if spans.getLast?.any fun last => ends < last.enteredAt then
    .error ("its " ++ m ++ " entered before the latest interval the store holds")
  else
    .ok (endCurrent position ends spans ++
      between.map (fun sp => { sp with enteredPosition := position, leftPosition := some position })
      ++ [{ value := now, enteredPosition := position, enteredAt := at'
            enteredBy := entered.bind EnteredAt.changedBy
            enteredByKind := (entered.bind EnteredAt.byKind).getD "unknown"
            declarationVersion := lib.version }])

/-- The intervals an import opens: for a new object, one for the state and every
tracked member; for a refresh, one for each value it changes, the current one
ending. -/
def openSpans (lib : Library) (o : ImportedObject) (held : Option Object)
    (between : Table String (List Span)) (position port : Int) (obj : Object) :
    List String → Except String Object
  | [] => .ok obj
  | m :: rest =>
      let now := obj.trackedValue m
      let made := (Table.get? between m).getD []
      if (held.any fun h => (h.trackedValue m).same now) && made.isEmpty then
        openSpans lib o held between position port obj rest
      else do
        let spans ← importSpan lib o position port m made now (Spans.of obj.spans m)
        openSpans lib o held between position port
          { obj with spans := Table.set obj.spans m spans } rest

/-- A legacy span placed among a dimension's, before those that are not. -/
def Object.withLegacy (obj : Object) (d : String) (sp : Span) : Object :=
  let spans := Spans.of obj.spans d
  { obj with
    spans := Table.set obj.spans d
      ((spans.takeWhile Span.legacy) ++ sp :: spans.dropWhile Span.legacy) }

def Object.withAllLegacy (obj : Object) (legacy : List (String × Span)) : Object :=
  legacy.foldl (fun obj s => obj.withLegacy s.1 s.2) obj

/-- A new object's creation, and from when its record is whole. -/
def createdAs (lib : Library) (t : FlowType) (o : ImportedObject) (port : Int) (obj : Object) :
    Object :=
  let entries := obj.spans.flatMap fun (m, spans) =>
    if (lib.tracked t).contains m then
      (spans.filter fun sp => m = "state" || sp.legacy || (Table.get? o.entered m).isSome).map
        Span.enteredAt
    else []
  let earliest := entries.min?
  let state := Spans.of obj.spans "state"
  let whole := o.createdAt.any fun c =>
    (state.head?.any fun first => first.enteredAt = c) &&
      (state.zip state.tail).all fun (a, b) => a.leftAt = some b.enteredAt
  let apply := (if whole then o.createdAt.toList else []) ++
    ((o.silentSpans.map Prod.snd).max?).toList ++
    if (Table.get? o.entered "state").isNone then [port] else []
  { obj with
    createdAt := min ((o.createdAt.orElse fun _ => earliest).getD port) port
    createdByKind := o.createdByKind.getD "unknown"
    recordedFrom := (apply.max?.orElse fun _ => earliest).getD port }

/-! ### The writes -/

/-- What an import changes, beside what a request's change holds: the legacy
spans it gives new objects, the entries it attaches and the sequences it
raises. -/
structure ImportChange where
  change : Change := {}
  spans : List (String × String × Span) := []
  legacy : List (String × LegacyEntry) := []
  raised : List Raise := []

/-- What an import answers. -/
structure ImportReport where
  written : Nat := 0
  findings : List ViolationClass := []
  /-- Owned types the batch named, which the import may not write. -/
  refusedTypes : List String := []
  refusal : Option ImportRefusal := none
deriving DecidableEq

/-- Two objects' attributes, value by value. -/
def sameAttrs (a b : Table String Value) : Bool :=
  (a.all fun (k, v) => (Table.get? b k).any v.same) &&
    b.all fun (k, _) => (Table.get? a k).isSome

/-- What an import's writes have come to. -/
structure Writing where
  alloc : Counters
  change : ImportChange := {}
  written : Nat := 0

/-- What an import's writes are decided from. -/
structure DecidedImport where
  world : World
  external : ExternalIds
  port : Port
  file : List ViolationClass
  who : Who
  round : Round
  excluded : List Nat
  /-- The entries each object is attached. -/
  entries : List (String × LegacyEntry)

section

variable (r : Readers) (d : DecidedImport)

/-- The object an earlier value names by its key. -/
def DecidedImport.resolve (key : LegacyKey) : Option String := resolveKey d.port.ids d.external key

/-- The spans and the creation of an object as the import writes it: a refresh's
opened and closed, and a new object's with its legacy spans. -/
def DecidedImport.spanned (t : FlowType) (p : ImportPlaced) (between : Table String (List Span))
    (position : Int) (obj : Object) : Except String (Object × List (String × Span)) := do
  let lib := d.world.lib
  let port := d.world.now
  let obj ← openSpans lib p.given p.held between position port obj (lib.tracked t)
  match p.held with
  | some _ => return (obj, [])
  | none => do
      let legacy ← legacySpans r lib d.resolve t obj.spans p.given
      return (createdAs lib t p.given port (obj.withAllLegacy legacy), legacy)

/-- The admissions of an object written: one whose invariant holds again is
discharged, and each invariant class it is in is admitted, with its reason. -/
def DecidedImport.admissions (p : ImportPlaced) (names : List String) (position : Int) (obj : Object) :
    Object × List (String × String × Int × String) × List (String × String × Int) :=
  let ended := obj.admissions.filter fun n => !names.contains n
  let classes := d.round.classes.filter fun (c, objects) =>
    c.kind = .invariant && objects.contains p.index
  let rules := classes.map fun (c, _) => c.rule
  ({ obj with admissions := addNames (obj.admissions.filter names.contains) rules },
    classes.map fun (c, _) => (obj.id, c.rule, position,
      ((decided d.file c).bind ViolationClass.reason).getD ""),
    ended.map fun n => (obj.id, n, position))

/-- The event of an object written, its payload what the batch gave and what the
row changed. -/
def DecidedImport.event (p : ImportPlaced) (position : Int) (obj : Object) : Event :=
  { position
    objectId := obj.id
    objectSeq := obj.version
    transition := "import"
    fromState := p.held.map Object.state
    toState := obj.state
    changesState := p.held.map Object.state ≠ some obj.state
    source := "asserted"
    actorId := d.who.id
    actorKind := d.who.kind
    principal := d.who.principal
    declarationVersion := d.world.lib.version
    recordedAt := d.world.now
    occurredAt := some d.world.now
    imported := true
    payload :=
      { inputs := p.given.attributes.map fun (a, raw) => (a, raw.held)
        wrote := wroteBetween ((p.held.map Object.attrs).getD []) obj.attrs } }

/-- The rows of the write index of an object written. -/
def ImportPlaced.indexRows (p : ImportPlaced) (position : Int) (obj : Object) : List (String × String × Int) :=
  let before := (p.held.map Object.attrs).getD []
  (obj.attrs.filter fun (a, v) =>
    p.held.isNone || !(Table.get? before a).any fun u => u.same v).map fun (a, _) =>
      (obj.id, a, position)

/-- An object's legacy key, and the external identifiers its type declares. -/
def DecidedImport.externalOf (t : FlowType) (p : ImportPlaced) (obj : Object) :
    List (String × String × String × String) :=
  let key := p.key d.world.lib
  (key.1, key.2, obj.id, "") :: t.attributes.filterMap fun (a, spec) => do
    let source ← spec.external
    if (obj.attr a).isAbsent then none else some (source, textOf (obj.attr a), obj.id, a)

/-- Whether an object is written: a refresh that changes nothing is not. -/
def DecidedImport.changed (p : ImportPlaced) (between : Table String (List Span)) (obj : Object) : Bool :=
  match p.held with
  | none => true
  | some h =>
      h.state ≠ obj.state || !sameAttrs h.attrs obj.attrs || !between.isEmpty ||
        d.entries.any fun e => e.1 = p.id

/-- An object placed, written at the next position. -/
def DecidedImport.writeObject (t : FlowType) (p : ImportPlaced) (between : Table String (List Span))
    (obj : Object) (so : Writing) : Except Unplaced Writing :=
  let position := so.alloc.position + 1
  match d.spanned r t p between position obj with
  | .error why => .error (refusal p.given why)
  | .ok (obj, legacy) =>
      match failing r d.round.work obj with
      | .error e => .error (.notRun e)
      | .ok names =>
          let (obj, admitted, discharged) := d.admissions p names position obj
          let obj := { obj with version := obj.version + 1 }
          let c := so.change
          .ok
            { alloc := { so.alloc with position }
              written := so.written + 1
              change := { c with
                spans := c.spans ++ legacy.map fun (m, sp) => (obj.id, m, sp)
                change := { c.change with
                  writes := c.change.writes ++ [(obj, p.held.isNone, d.event p position obj)]
                  index := c.change.index ++ p.indexRows position obj
                  admitted := c.change.admitted ++ admitted
                  discharged := c.change.discharged ++ discharged
                  external := c.change.external ++ d.externalOf t p obj } } }

/-- The intermediate values of an object placed, which only a refresh has. -/
def DecidedImport.between (t : FlowType) (p : ImportPlaced) :
    Except String (Table String (List Span)) :=
  match p.held with
  | none => .ok []
  | some h => intermediateSpans r d.world.lib d.resolve t h.spans p.given d.world.now

/-- One object placed, written where anything of it changed. -/
def DecidedImport.writeOne (p : ImportPlaced) (so : Writing) : Except Unplaced Writing :=
  match d.world.lib.type? p.given.type, d.round.work.get p.id with
  | some t, some obj =>
      match d.between r t p with
      | .error why => .error (refusal p.given why)
      | .ok between =>
          if d.changed p between obj then d.writeObject r t p between obj so else .ok so
  | _, _ => .ok so

/-- The writes, in the batch's order; a refusal tells how many were decided
before it. -/
def DecidedImport.writeAll : List ImportPlaced → Writing → Except (Unplaced × Nat) Writing
  | [], so => .ok so
  | p :: rest, so =>
      match d.writeOne r p so with
      | .error why => .error (why, so.written)
      | .ok so => writeAll rest so

end

/-! ### The import decided -/

/-- What refuses a raise: one naming no sequence the flow numbers by, in a scope
it does not take, or with a last value that leaves no next. -/
def raiseFault (lib : Library) (raise : Raise) : Option String :=
  let numbering := (lib.types.flatMap fun (_, t) => t.attributes.filterMap fun (_, a) =>
    a.identifier).filter fun i => i.sequence = raise.sequence
  if numbering.isEmpty && !lib.sequences.contains raise.sequence then
    some ("sequences: " ++ raise.sequence ++ " is no sequence the flow declares")
  else if raise.last < 0 || raise.last ≥ SEQUENCE_MOST then
    some ("sequences: " ++ raise.sequence ++ "'s last value " ++ toString raise.last ++
      " leaves it no next number")
  else if raise.scope ≠ "" && numbering.all fun i => i.scope.isNone then
    some ("sequences: " ++ raise.sequence ++ " numbers in no scope, not " ++ raise.scope)
  else none

/-- The actor an import acts as. -/
def importActor (w : World) (actor : String) : Except Unplaced Who :=
  match resolveActor w actor with
  | none => .error (.refused
      { reason := "actor_known: the store holds no actor " ++ actor })
  | some who =>
      if who.acts then .ok who
      else .error (.refused
        { reason := "actor_active: the actor " ++ actor ++ " is in a state it does not act in" })

/-- What an import checks before it reads its objects. -/
def checkImport (w : World) (actor : String) (batch : ImportBatch) : Except Unplaced Who :=
  match batch.objects.findSome? fun o => o.beyond.head? with
  | some what => .error (.notRun (.unsupported ("an import of " ++ what)))
  | none => do
      let who ← importActor w actor
      match batch.sequences.findSome? (raiseFault w.lib) with
      | some reason => .error (.refused { reason })
      | none => return who

/-- The owned types a batch names, each once. -/
def refusedTypes (lib : Library) (batch : ImportBatch) : List String :=
  addNames [] ((batch.objects.map ImportedObject.type).filter fun tn =>
    (lib.type? tn).any fun t => !importable t)

/-- A batch read: every object placed, with its values, its references and the
classes of what is not of its declaration. -/
def readBatch (r : Readers) (w : World) (external : ExternalIds) (batch : ImportBatch)
    (alloc : Counters) : Except Unplaced (Port × Counters) := do
  let placing ← placeAll w external batch.objects.zipIdx { alloc }
  let (placed, v) ← readAll r w placing.placed {}
  checkSubjects w placing.ids external placed v.references
  return ({ ids := placing.ids, placed, references := v.references, structural := v.classes },
    placing.alloc)

/-- The rounds run, and every object the batch does not place left as sound as
it was. -/
def settleRounds (r : Readers) (w : World) (external : ExternalIds) (file : List ViolationClass)
    (port : Port) : Except Unplaced (Round × List Nat) :=
  match placeRounds r w external file port port.placed.length
      ((excludedByFile file port.structural).foldl
        (fun excluded i => insertIndex i excluded) []) with
  | .error e => .error (.notRun e)
  | .ok (round, excluded) => do
      checkUnplaced r w port round.work (affectedByWrites round.work w)
      return (round, excluded)

/-- What a stopped import answers. -/
def stoppedImport (report : ImportReport) : Unplaced → Except NotRun (ImportReport × Option α)
  | .refused refusal => .ok ({ report with refusal := some refusal }, none)
  | .notRun e => .error e

/-- What an import's writes are decided from, once its rounds are run. -/
def DecidedImport.of (w : World) (external : ExternalIds) (held : Table String (List LegacyEntry))
    (batch : ImportBatch) (file : List ViolationClass) (port : Port) (who : Who) (round : Round)
    (excluded : List Nat) : DecidedImport :=
  let gone := excludedKeys w external port excluded
  { world := w, external, port, file, who, round, excluded
    entries := attached w held (batchEntries w.lib external port gone batch.legacyKinds
      (port.placed.filter fun p => !excluded.contains p.index)) }

/-- A batch decided, once its rounds are run: its findings, the file's decisions
and the writes. -/
def decideWrites (r : Readers) (batch : ImportBatch) (dry : Bool) (alloc : Counters)
    (report : ImportReport) (d : DecidedImport) :
    Except NotRun (ImportReport × Option (ImportChange × Counters)) :=
  let report := { report with
    findings := d.round.classes.map fun (c, objects) =>
      finding d.world d.external d.file d.port d.excluded c objects }
  match checkDecisions d.file d.port dry d.round.classes with
  | .error why => stoppedImport report why
  | .ok () =>
      match d.writeAll r (d.port.placed.filter fun p => !d.excluded.contains p.index)
          { alloc, change := { legacy := d.entries } } with
      | .error (why, written) => stoppedImport { report with written } why
      | .ok so =>
          if dry then .ok (report, none)
          else .ok ({ report with written := so.written },
            some ({ so.change with raised := batch.sequences }, so.alloc))

/-- An import decided: what it would write, or what it answers and why it writes
nothing. -/
def decideImport (r : Readers) (w : World) (external : ExternalIds)
    (held : Table String (List LegacyEntry)) (alloc : Counters) (actor : String)
    (batch : ImportBatch) (file : List ViolationClass) (dry : Bool) :
    Except NotRun (ImportReport × Option (ImportChange × Counters)) :=
  match checkImport w actor batch with
  | .error why => stoppedImport {} why
  | .ok who =>
      let report : ImportReport := { refusedTypes := refusedTypes w.lib batch }
      match readBatch r w external batch alloc with
      | .error why => stoppedImport report why
      | .ok (port, alloc) =>
          match settleRounds r w external file port with
          | .error why => stoppedImport report why
          | .ok (round, excluded) =>
              decideWrites r batch dry alloc report
                (DecidedImport.of w external held batch file port who round excluded)

/-! ### The store -/

/-- A store with what an import keeps beside it: the external identifiers, and
each object's legacy entries. -/
structure PortStore extends KeyedStore where
  external : ExternalIds := []
  legacy : Table String (List LegacyEntry) := []

namespace ExternalIds

/-- The identifiers a change leaves: those an erasure takes and those given up
gone, and those written over. -/
def written (external : ExternalIds) (c : Change) : ExternalIds :=
  let external := external.filter fun (_, id, a) =>
    !((Table.get? c.redacted id).getD []).contains a
  let external := external.filter fun (key, id, _) =>
    !c.externalRemoved.contains (key.1, key.2, id)
  c.external.foldl (fun external (source, value, id, a) =>
    Table.put external (source, value) (id, a)) external

end ExternalIds

/-- The legacy entries with those a change attaches, those of each erased object
it writes left with the fields their kind keeps. -/
def legacyWritten (held : Table String (List LegacyEntry)) (attached : List (String × LegacyEntry))
    (c : Change) : Table String (List LegacyEntry) :=
  let held := attached.foldl (fun held (id, n) =>
    Table.set held id ((Table.get? held id).getD [] ++ [n])) held
  held.map fun (id, entries) =>
    (id, if c.writes.any fun (o, _, _) => o.id = id && o.erased then
        entries.map fun e => { e with payload := e.redacted }
      else entries)

/-- An import's change written, none where the store refuses a row. -/
def World.writeImport (r : Readers) (w : World) (c : ImportChange) : Option World := do
  let w ← w.write r c.change
  return { w.upsertSpans c.spans with
    imported := w.imported ++ c.change.writes.map fun (_, _, e) => e.position }

namespace PortStore

variable (r : Readers)

/-- What an import is told. -/
inductive Imported where
  | report (report : ImportReport)
  | notRun (e : NotRun)
  /-- The store refused what was to be written, and nothing is. -/
  | failed

/-- A decided import's change written, with the counters it drew from. -/
def commitImport (s : PortStore) (w : World) (report : ImportReport) (c : ImportChange)
    (alloc : Counters) : Imported × PortStore :=
  match w.writeImport r c,
      s.numbers.raiseAll (c.raised.map fun raise => (⟨raise.sequence, raise.scope⟩, raise.last)) with
  | some world, some numbers =>
      (.report report,
        { s with
          world
          counters := alloc
          numbers
          external := s.external.written c.change
          legacy := legacyWritten s.legacy c.legacy c.change })
  | _, _ => (.failed, s)

/-- An import, or a report of what importing would decide. -/
def importBatch (s : PortStore) (now : Int) (attempts : Table String (List Value)) (actor : String)
    (batch : ImportBatch) (file : List ViolationClass) (dry : Bool) : Imported × PortStore :=
  let w := s.opened now attempts
  match decideImport r w s.external s.legacy s.drawing actor batch file dry with
  | .error e => (.notRun e, s)
  | .ok (report, none) => (.report report, s)
  | .ok (report, some (c, alloc)) => commitImport r s w report c alloc

/-- The change a request's outcome applies, where the store takes it. -/
def applied (w : World) : Outcome → Option Change
  | .decided _ (.ok (_, c)) => (w.write r c).map fun _ => c
  | _ => none

/-- A request, with what it leaves of the external identifiers and the legacy
entries. -/
def request (hex : Json → String) (s : PortStore) (now : Int) (attempts : Table String (List Value))
    (req : Request) (answers : Table String String) : Told × PortStore :=
  let kept := s.toKeyedStore.loaded
  let w := kept.opened now attempts
  let outcome := kept.outcome r hex w req answers
  let (told, after) := kept.settled r w outcome
  (told, match applied r w outcome.1 with
    | none => { s with toKeyedStore := after }
    | some c =>
        { s with
          toKeyedStore := after
          external := s.external.written c
          legacy := legacyWritten s.legacy [] c })

end PortStore

end ObjectFlow
