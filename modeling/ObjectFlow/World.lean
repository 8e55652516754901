import ObjectFlow.Model

/-!
# The world a request reads

The store's objects as an operation sees them: those it found and those it
made or changed, in creation order, with the events it appended and, for each
object it changed, the attributes its next event's writes are measured
against.  Every lookup is over the objects held; the indexes a lookup goes
through are modelled by what they answer.
-/

namespace ObjectFlow

open Base

/-- How long an object held a state, or a value of a tracked member. -/
structure Span where
  value : Value
  /-- The event that set it, and the one that ended it. -/
  enteredPosition : Int
  leftPosition : Option Int := none
  enteredAt : Int
  leftAt : Option Int := none
  enteredBy : Option String := none
  enteredByKind : String := ""
  /-- Opened by a publish's migration. -/
  migrated : Bool := false
  declarationVersion : Int := 1
  /-- Supplied by the import's mapping. -/
  legacy : Bool := false
  /-- The event of the latest correction that relabelled it. -/
  correctedBy : Option Int := none

/-- One object, its row and the rest of its record. -/
structure Object where
  id : String
  type : String
  state : String
  version : Int := 1
  /-- Its stored attributes; an absent one has no entry. -/
  attrs : Table String Value := []
  createdAt : Int := 0
  createdByKind : String := ""
  supersededBy : Option String := none
  recordedFrom : Int := 0
  /-- For the state and each tracked member, its spans in order. -/
  spans : Table String (List Span) := []
  /-- For each attribute, the position of the event that last wrote it. -/
  writes : Table String Int := []
  /-- The invariants whose violation an admission lets stand on it. -/
  admissions : List String := []
  /-- Its own erasure is recorded. -/
  erased : Bool := false

/-- The value of an attribute, absent where it has no entry. -/
def Object.attr (o : Object) (name : String) : Value :=
  (Table.get? o.attrs name).getD .absent

/-- What an event records of its request. -/
structure Payload where
  inputs : Table String Value := []
  /-- Each attribute it changed, with the value after, absent where gone. -/
  wrote : Table String Value := []
  /-- Each attribute a correction corrects: the value it replaces, the new one
  and the entered position of the span it relabelled. -/
  corrected : Table String (Value × Value × Option Int) := []
  reason : Option String := none
  /-- The attributes an erasure erased, or an erasure redacted here. -/
  erased : List String := []
  /-- What its guards consulted, by guard and reference. -/
  consulted : Table String (Table String Value) := []
  /-- The type a move took its object from. -/
  movedFrom : Option String := none

/-- What the rules evaluated for an event read and consulted: each object
read with its version, each type-scan's matches by rule and type, and each
value consulted by rule and reference. -/
structure Reading where
  objects : Table String Int := []
  scans : Table String (Table String (List String)) := []
  consulted : Table String (Table String Value) := []

structure Event where
  position : Int
  objectId : String
  objectSeq : Int
  transition : String
  fromState : Option String
  toState : String
  changesState : Bool
  source : String
  actorId : String
  actorKind : String
  principal : Option String := none
  cause : Option Int := none
  declarationVersion : Int := 1
  recordedAt : Int := 0
  occurredAt : Option Int := none
  imported : Bool := false
  payload : Payload := {}
  reads : Reading := {}

/-- The objects of a store, and the time a request reads. -/
structure World where
  lib : Library
  /-- Each earlier version's library. -/
  earlier : Table Int Library := []
  /-- Every object by its id, in creation order. -/
  objects : Table String Object := []
  now : Int := 0
  /-- The log the store holds, in position order. -/
  stored : List Event := []
  /-- The events the operation appended. -/
  appended : List Event := []
  /-- The positions of the events that recorded an admission. -/
  admitting : List Int := []
  /-- The positions of the events the import recorded. -/
  imported : List Int := []
  /-- Each object's rows of the attempt log, as a rule reads them. -/
  attempts : Table String (List Value) := []
  /-- The ids of the objects the operation changed or made. -/
  written : List String := []
  /-- Each changed object's attributes as its last event left them. -/
  lastWritten : Table String (Table String Value) := []

namespace World

variable (w : World)

/-- The object an id names. -/
def get (id : String) : Option Object := Table.get? w.objects id

/-- Every object held, in creation order. -/
def inOrder : List Object := w.objects.map Prod.snd

/-- The types of a type's family, itself and those extending it. -/
def family (type : String) : List String :=
  (Table.keys w.lib.types).filter fun t => w.lib.isA t type

/-- Every object of a type, its own or a subtype's. -/
def ofType (type : String) : List Object :=
  w.inOrder.filter fun o => w.lib.isA o.type type

/-- The held objects of a type by the index on an attribute: those whose value
has the key of the one given and, where asked, those that hold none; none
where the index holds no key for the value. -/
def heldWhere (type attr : String) (v : Value) (absentToo : Bool) : Option (List Object) :=
  match v.indexKey with
  | some (some key) => some <| w.inOrder.filter fun o =>
      (w.family type).contains o.type &&
        (match (o.attr attr).indexKey with
        | some (some k) => k = key
        | some none => absentToo
        | none => false)
  | _ => none

/-- The objects found by the index on the first pair whose value it holds, and
where it holds none of them every object of the type. -/
def candidates (type : String) (pairs : List (String × Value)) (absentToo : Bool) : List Object :=
  (pairs.findSome? fun (a, v) => w.heldWhere type a v absentToo).getD w.inOrder

/-- Every object of a type in one of the states given, where any are, whose
attributes named each hold the value given or none. -/
def ofTypeWhere (type : String) (states : Option (List String))
    (columns : List (String × Value)) : List Object :=
  (w.candidates type columns true).filter fun o =>
    w.lib.isA o.type type && states.all (·.contains o.state) &&
      columns.all fun (a, v) => (o.attr a).isAbsent || (o.attr a).equals v

/-- Every object of a type whose attributes named hold values equal to those
given. -/
def withKey (type : String) (pairs : List (String × Value)) : List Object :=
  (w.candidates type pairs false).filter fun o =>
    w.lib.isA o.type type && pairs.all fun (a, v) => (o.attr a).equals v

/-- A text with its ASCII letters in lower case. -/
def fold (s : String) : String := String.ofList (s.toList.map Char.toLower)

/-- Every object of a type whose text attribute is the text given but for the
case of its ASCII letters. -/
def withFolded (type attr text : String) : List Object :=
  w.inOrder.filter fun o =>
    (w.family type).contains o.type &&
      match o.attr attr with
      | .text t => fold t = fold text
      | _ => false

/-- The log, in position order: what the store holds, then what the operation
appended. -/
def log : List Event := w.stored ++ w.appended

/-- An object's events, in position order. -/
def eventsOf (id : String) : List Event := w.log.filter (·.objectId = id)

/-- The version an object's last event was recorded under. -/
def versionOf (id : String) : Int :=
  match (w.eventsOf id).getLast? with
  | some e => e.declarationVersion
  | none => w.lib.version

/-- The event at a position. -/
def eventAt (position : Int) : Option Event := w.log.find? (·.position = position)

/-- The events one event caused, in position order. -/
def causedBy (position : Int) : List Event := w.log.filter (·.cause = some position)

/-- The library as a version declared it. -/
def libraryAt (version : Int) : Library :=
  if version = w.lib.version then w.lib else (Table.get? w.earlier version).getD w.lib

def typeAt (version : Int) (name : String) : Option FlowType := (w.libraryAt version).type? name

/-- An attribute's name taken back through the renames of the versions given,
the latest first. -/
def nameBack (w : World) (type : String) : List Int → String → String
  | [], name => name
  | k :: rest, name =>
      let lib := if k = w.lib.version then some w.lib else Table.get? w.earlier k
      let renamed := lib.bind fun l => l.renamedAttributes.find? fun (t, _, new) =>
        l.isA type t && new = name
      nameBack w type rest (match renamed with
        | some (_, old, _) => old
        | none => name)

/-- An attribute, named as the installed version names it, as a version named
it. -/
def namedUnder (version : Int) (type attr : String) : String :=
  let later := (List.range (w.lib.version - version).toNat).map fun i => w.lib.version - i
  w.nameBack type later attr

/-- Whether an attribute, named as the installed version names it, was
personal under a version. -/
def personalUnder (version : Int) (type attr : String) : Bool :=
  ((w.typeAt version type).bind (·.attribute? (w.namedUnder version type attr))).any
    (·.personal)

/-- Whether some version moved a type into the one named. -/
def movedInto (type : String) : Bool :=
  (w.lib :: w.earlier.map Prod.snd).any (·.movedInto.contains type)

/-- An object's move events, in position order. -/
def movesOf (id : String) : List Event :=
  (w.eventsOf id).filter fun e => e.source = "migrated" && e.payload.movedFrom.isSome

/-- The objects of a type superseded by the one given. -/
def supersededInto (type id : String) : List Object :=
  w.inOrder.filter fun o => o.type = type && o.supersededBy = some id

/-- An id noted among the changed ones. -/
def markWritten (id : String) : World :=
  { w with written := if id ∈ w.written then w.written else w.written ++ [id] }

/-- What the next event of an object is measured against, kept from the first
change on. -/
def keepWritten (id : String) : World :=
  match Table.get? w.lastWritten id with
  | some _ => w
  | none =>
      { w with lastWritten := Table.set w.lastWritten id (((w.get id).map Object.attrs).getD []) }

/-- An object changed in place: nothing where the world holds no such object. -/
def change (id : String) (f : Object → Object) : World :=
  match w.get id with
  | none => w
  | some o =>
      { (w.keepWritten id).markWritten id with objects := Table.put w.objects id (f o) }

/-- An object the operation makes or replaces. -/
def insert (o : Object) : World :=
  { (w.keepWritten o.id).markWritten o.id with objects := Table.put w.objects o.id o }

end World

/-- Each attribute whose value differs between two of an object's states, with
its value after, absent where it is gone. -/
def wroteBetween (was now : Table String Value) : Table String Value :=
  let changed := Table.keep (fun a v => !((Table.get? was a).any fun u => u.same v)) now
  let gone := (Table.keys was).filter fun a => (Table.get? now a).isNone
  gone.foldl (fun out a => Table.set out a .absent) changed

/-- What an object's event wrote, and the world its next event is measured
in. -/
def World.wrote (w : World) (id : String) : Table String Value × World :=
  let now := ((w.get id).map Object.attrs).getD []
  let was := (Table.get? w.lastWritten id).getD now
  (wroteBetween was now, { w with lastWritten := Table.set w.lastWritten id now })

/-- What an event on an object changed apart from the world wrote. -/
def World.wroteApart (w : World) (id : String) (was now : Table String Value) :
    Table String Value × World :=
  let base := (Table.get? w.lastWritten id).getD was
  (wroteBetween base now, { w with lastWritten := Table.set w.lastWritten id now })

end ObjectFlow
