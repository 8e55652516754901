import ObjectFlow.Batch

/-!
# What an import places

A port of another system's records into the store's mirror types.  A batch is
the objects as the mapping produced it from those records; each is checked,
found by its legacy key or given an id, and its values and references are read
before anything is placed.
-/

namespace ObjectFlow

open Base

/-! ### A batch -/

/-- When an imported object took its current value of one dimension, and who
changed it, where the legacy record says. -/
structure EnteredAt where
  at' : Int
  changedBy : Option String := none
  byKind : Option String := none

/-- A legacy entry as a batch gives it: its kind, when it happened, its fields,
and each field about another object mapped to that object's `<Type>:<key>`. -/
structure EntryIn where
  kind : String
  occurredAt : Int
  payload : Table String Json := []
  about : Table String String := []

/-- A span the legacy record gives of a value held before the current one. -/
structure LegacyInterval where
  dimension : String
  value : Json
  enteredAt : Int
  leftAt : Option Int := none
  enteredBy : Option String := none
  enteredByKind : Option String := none

/-- One object of a port, or of a mirror's refresh. -/
structure ImportedObject where
  type : String
  legacyKey : String
  state : String
  /-- Each attribute's value in the wire's notation, a reference by the legacy
  key of the object it names. -/
  attributes : Table String Json := []
  /-- `state` or a tracked member, and when it took its current value. -/
  entered : Table String EnteredAt := []
  createdAt : Option Int := none
  createdByKind : Option String := none
  legacyIntervals : List LegacyInterval := []
  /-- Where the legacy record is silent, each from its start to its end. -/
  silentSpans : List (Int × Int) := []
  /-- An observation's occurred time, where the legacy record gives it. -/
  occurredAt : Option Int := none
  legacyEntries : List EntryIn := []
  /-- What the object carries that the core does not import, by name. -/
  beyond : List String := []

/-- The last value the legacy system minted from a sequence in a scope, the
scope empty for an unscoped sequence. -/
structure Raise where
  sequence : String
  scope : String
  last : Int

structure ImportBatch where
  objects : List ImportedObject := []
  sequences : List Raise := []
  /-- Each legacy entry kind's fields kept through an erasure. -/
  legacyKinds : Table String (List String) := []

/-- What kind of rule a class of objects fails. -/
inductive ViolationKind where
  | invariant | guard | reference | field
deriving DecidableEq

/-- What a person decided for a class. -/
inductive Disposition where
  | undecided | cleanUpstream | admitted | exclude | drop
deriving DecidableEq

def Disposition.text : Disposition → String
  | undecided => "undecided"
  | cleanUpstream => "clean_upstream"
  | admitted => "admit"
  | exclude => "exclude"
  | drop => "drop"

/-- A reference class excluding another would add, and how many objects it
would hold. -/
structure Uncovered where
  id : String
  type : String
  rule : String
  count : Nat
deriving DecidableEq

/-- Every object failing the same rule in the same way, as one decision. -/
structure ViolationClass where
  id : String
  type : String
  kind : ViolationKind
  rule : String
  shape : String
  count : Nat := 0
  /-- Legacy keys, since nothing is created yet. -/
  sample : List String := []
  disposition : Disposition := .undecided
  decidedBy : Option String := none
  reason : Option String := none
  /-- What excluding it would uncover. -/
  uncovers : List Uncovered := []
deriving DecidableEq

/-- One identity: its type, kind, rule and shape. -/
def ViolationClass.same (c d : ViolationClass) : Bool :=
  c.type = d.type && c.kind = d.kind && c.rule = d.rule && c.shape = d.shape

/-- The first object an import could not place, and why. -/
structure ImportRefusal where
  type : String := ""
  legacyKey : String := ""
  reason : String
deriving DecidableEq

/-- Why an import stops before it writes. -/
inductive Unplaced where
  | refused (r : ImportRefusal)
  | notRun (e : NotRun)

/-- A refusal of the batch at an object. -/
def refusal (o : ImportedObject) (reason : String) : Unplaced :=
  .refused ⟨o.type, o.legacyKey, reason⟩

/-- The earliest time an import takes, 1900-01-01. -/
def IMPORT_FLOOR : Int := -2208988800

def DOES_NOT_HOLD : String := "does not hold"
def IS_ABSENT : String := "is absent"
def NOT_DECLARED : String := "is not declared"
def NOT_OF_ITS_TYPE : String := "is not of its type"
def IS_SHARED : String := "is shared"
def NAMES_EXCLUDED : String := "names an excluded object"
def NAMES_NOTHING : String := "names nothing"
def ABOUT_NOT_HELD : String := "is about an object neither the batch nor the store holds"

/-! ### Legacy keys -/

/-- A legacy key as the store keeps it: the source `legacy`, and the key
qualified by its family's farthest base. -/
abbrev LegacyKey := String × String

/-- The external identifiers a store holds, by source and value: the object
each names and the attribute that holds it, none for a legacy key. -/
abbrev ExternalIds := Table (String × String) (String × String)

def ExternalIds.object (external : ExternalIds) (key : String × String) : Option String :=
  (Table.get? external key).map Prod.fst

/-- The farthest base from a type on, a base seen before or not held ending the
walk. -/
def rootFrom (lib : Library) : Nat → List String → String → String
  | 0, _, type => type
  | fuel + 1, seen, type =>
      match (lib.type? type).bind FlowType.base with
      | none => type
      | some base =>
          if base ∈ seen || (lib.type? base).isNone then type
          else rootFrom lib fuel (base :: seen) base

/-- The type a family's legacy keys are qualified by. -/
def root (lib : Library) (type : String) : String := rootFrom lib (lib.types.length + 1) [] type

def legacy (lib : Library) (type key : String) : LegacyKey :=
  ("legacy", root lib type ++ ":" ++ key)

/-- A text before its first colon, and after it. -/
def splitColon (s : String) : Option (String × String) :=
  let before := s.toList.takeWhile (· ≠ ':')
  match s.toList.drop before.length with
  | _ :: after => some (String.ofList before, String.ofList after)
  | [] => none

/-- The legacy key a text naming its object's type gives, `<Type>:<key>`. -/
def typedKey (lib : Library) (text : String) : Option LegacyKey :=
  (splitColon text).bind fun (tn, key) => (lib.type? tn).map fun _ => legacy lib tn key

/-! ### What refuses an object before it is placed -/

/-- A mirror's object, or an observation or a label on one. -/
def importable (t : FlowType) : Bool := t.mirror || t.observationOn.isSome

/-- A control character, or one that formats text without showing. -/
def formatting (c : Char) : Bool :=
  let n := c.toNat
  n < 0x20 || (0x7F ≤ n && n ≤ 0x9F) ||
    n ∈ [0xAD, 0x34F, 0x61C, 0x6DD, 0x70F, 0x8E2, 0x180E, 0x3164, 0xFEFF, 0xFFA0, 0x110BD,
      0x110CD] ||
    [(0x600, 0x605), (0x890, 0x891), (0x115F, 0x1160), (0x200B, 0x200F), (0x2028, 0x202E),
      (0x2060, 0x2064), (0x2066, 0x206F), (0xFE00, 0xFE0F), (0xFFF9, 0xFFFB), (0x13430, 0x1343F),
      (0x1BCA0, 0x1BCA3), (0x1D173, 0x1D17A), (0xE0000, 0xE007F), (0xE0100, 0xE01EF)].any
      fun (first, last) => first ≤ n && n ≤ last

/-- A character an identity may not hold beyond `formatting`'s: a blank that
shows nothing, a private-use character and a noncharacter. -/
def unshown (c : Char) : Bool :=
  let n := c.toNat
  n ∈ [0x2800, 0x17B4, 0x17B5] ||
    [(0xE000, 0xF8FF), (0xF0000, 0x10FFFD), (0xFDD0, 0xFDEF)].any
      (fun (first, last) => first ≤ n && n ≤ last) ||
    n % 0x10000 = 0xFFFE || n % 0x10000 = 0xFFFF

/-- A text before its last dash, and after it. -/
def splitLastDash (s : String) : Option (String × String) :=
  let after := s.toList.reverse.takeWhile (· ≠ '-')
  match s.toList.reverse.drop after.length with
  | _ :: before => some (String.ofList before.reverse, String.ofList after.reverse)
  | [] => none

/-- Why an identity names no actor as it shows, none where it does. -/
def identityFault (s : String) (lib : Library) : Option String :=
  if s = "" then some "an identity is not empty"
  else if trim s ≠ s || s.toList.any (fun c => isWhiteSpace c && c ≠ ' ') then
    some "an identity holds no whitespace at its ends, and none but a space within"
  else if s.toList.any formatting then
    some ("an identity holds no control, zero-width, bidirectional or other formatting" ++
      " character")
  else if s.toList.any unshown then
    some "an identity holds no blank pattern, private-use character or noncharacter"
  else match splitLastDash s with
    | some (start, n) =>
        if n ≠ "" && n.toList.all Char.isDigit &&
            (Table.keys lib.types).any (fun t => t.toLower = start.toLower) then
          some ("an identity is not shaped as an object's id, as " ++ s ++
            " is, which names that object instead")
        else none
    | none => none

namespace ImportedObject

variable (o : ImportedObject)

/-- Every time the legacy record gives it. -/
def times : List Int :=
  o.createdAt.toList ++ o.occurredAt.toList ++ (o.entered.map fun (_, e) => e.at') ++
    (o.legacyIntervals.flatMap fun i => i.enteredAt :: i.leftAt.toList) ++
    (o.silentSpans.flatMap fun (start, finish) => [start, finish]) ++
    o.legacyEntries.map EntryIn.occurredAt

/-- Every kind of actor it names. -/
def kinds : List String :=
  o.createdByKind.toList ++ (o.entered.filterMap fun (_, e) => e.byKind) ++
    o.legacyIntervals.filterMap LegacyInterval.enteredByKind

/-- Every actor it names. -/
def actors : List String :=
  (o.entered.filterMap fun (_, e) => e.changedBy) ++
    o.legacyIntervals.filterMap LegacyInterval.enteredBy

/-- What is wrong with an actor's name. -/
def actorFault (lib : Library) (by' : String) : Option String :=
  if by'.utf8ByteSize > TEXT_BYTES then some ("past " ++ toString TEXT_BYTES ++ " bytes")
  else identityFault by' lib

/-- What is wrong with a legacy entry: it names its kind, and happened before
the import and not before a creation time the mapping supplies. -/
def entryFault (now : Int) (e : EntryIn) : Option String :=
  if trim e.kind = "" then some "a legacy entry that names no kind"
  else if e.occurredAt > now then some "a legacy entry after the import"
  else if o.createdAt.any (e.occurredAt < ·) then
    some "a legacy entry earlier than the creation time it is given"
  else none

/-- What is wrong with an object, before it is looked for. -/
def fault (lib : Library) (now : Int) (t : FlowType) : Option String :=
  if !importable t then some (o.type ++ " is owned by this store, not a mirror")
  else if o.occurredAt.isSome && t.observationOn.isNone then
    some "an occurred time, which only an observation takes"
  else if o.occurredAt.any (· > now) then some "an occurred time after the import"
  else if o.times.any (· > now) then some "a time after the import"
  else if o.times.any (· < IMPORT_FLOOR) then
    some "a time before 1900, which a legacy system writes for a date it lacks"
  else match o.kinds.find? fun k => !(["human", "agent", "service", "unknown"].contains k) with
    | some k =>
        some ("a kind of actor " ++ k ++ ", where one is human, agent, service or unknown")
    | none =>
        match o.actors.findSome? (actorFault lib) with
        | some why => some ("an actor it names: " ++ why)
        | none => o.legacyEntries.findSome? (o.entryFault now)

end ImportedObject

/-! ### Placing -/

/-- One object as the import will write it. -/
structure ImportPlaced where
  index : Nat
  given : ImportedObject
  id : String
  /-- The object as it stands before the import, for a refresh. -/
  held : Option Object
  values : Table String Value := []

/-- Whether the object placed is one the store erased. -/
def ImportPlaced.erased (p : ImportPlaced) : Bool := p.held.any Object.erased

/-- What placing a batch's objects leaves: each key's id, the objects in the
batch's order, and the counters their ids were drawn from. -/
structure Placing where
  ids : Table LegacyKey String := []
  placed : List ImportPlaced := []
  alloc : Counters

/-- A new object's id. -/
def Counters.objectId (alloc : Counters) (type : String) : String × Counters :=
  (alloc.mintId type (alloc.object + 1), { alloc with object := alloc.object + 1 })

/-- The object a legacy key names, which a refresh carries. -/
def heldUnder (w : World) (external : ExternalIds) (o : ImportedObject) (key : LegacyKey) :
    Except Unplaced (Option Object) :=
  match (external.object key).bind w.get with
  | none => .ok none
  | some h =>
      if h.type = o.type then .ok (some h)
      else .error (refusal o ("its legacy key names a " ++ h.type))

/-- One object of a batch placed among those before it. -/
def placeOne (w : World) (external : ExternalIds) (o : ImportedObject) (index : Nat)
    (p : Placing) : Except Unplaced Placing :=
  match w.lib.type? o.type with
  | none => .error (refusal o ("names no type " ++ o.type))
  | some t =>
      match o.fault w.lib w.now t with
      | some why => .error (refusal o why)
      | none =>
          let key := legacy w.lib o.type o.legacyKey
          if (Table.get? p.ids key).isSome then
            .error (refusal o "its legacy key appears twice in the batch")
          else do
            let held ← heldUnder w external o key
            let (id, alloc) := match held with
              | some h => (h.id, p.alloc)
              | none => p.alloc.objectId o.type
            return {
              ids := Table.put p.ids key id
              placed := p.placed ++ [{ index, given := o, id, held }]
              alloc }

/-- Every legacy key resolved before anything is placed. -/
def placeAll (w : World) (external : ExternalIds) :
    List (ImportedObject × Nat) → Placing → Except Unplaced Placing
  | [], p => .ok p
  | (o, index) :: rest, p => do
      let p ← placeOne w external o index p
      placeAll w external rest p

/-! ### Classes -/

/-- Each class found, with the places of its objects in the batch, in order. -/
abbrev Classes := List (ViolationClass × List Nat)

/-- A place among others, in order and once. -/
def insertIndex (index : Nat) (at' : List Nat) : List Nat :=
  if index ∈ at' then at' else at'.orderedInsert (· ≤ ·) index

namespace Classes

/-- An object found in a class. -/
def add : Classes → ViolationClass → Nat → Classes
  | [], c, index => [(c, [index])]
  | (d, objects) :: rest, c, index =>
      if d.same c then (d, insertIndex index objects) :: rest
      else (d, objects) :: add rest c index

/-- An object found to fail a rule of its type in a shape. -/
def found (classes : Classes) (o : ImportedObject) (index : Nat) (kind : ViolationKind)
    (rule shape : String) : Classes :=
  classes.add
    { id := o.type ++ "." ++ rule ++ ": " ++ shape, type := o.type, kind, rule, shape } index

end Classes

/-! ### Values and references -/

/-- A reference an object gives by legacy key, resolved once every object of
the batch has its id. -/
structure Reference where
  index : Nat
  given : ImportedObject
  name : String
  named : List LegacyKey
  optional : Bool

/-- What a batch's attributes read as. -/
structure Valued where
  values : Table String Value := []
  references : List Reference := []
  classes : Classes := []

/-- The legacy key one element of a reference's value gives. -/
def namedKey (lib : Library) (target : String) (raw : Json) : Option LegacyKey :=
  raw.string?.bind fun key =>
    if target = ANY_TYPE then typedKey lib key else some (legacy lib target key)

/-- A reference's value, each element that gives no key found in a class. -/
def readReference (lib : Library) (p : ImportPlaced) (a target : String) (optional : Bool) (raw : Json)
    (v : Valued) : Valued :=
  let keys := raw.elements.map (namedKey lib target)
  { v with
    references := v.references ++ [⟨p.index, p.given, a, keys.filterMap id, optional⟩]
    classes := if keys.any Option.isNone then
        v.classes.found p.given p.index .guard a NOT_OF_ITS_TYPE
      else v.classes }

/-- Whether an attribute is of an enumeration the library declares. -/
def Library.declaresEnumeration (lib : Library) : Declared → Bool
  | .scalar (.named s) => (Table.get? lib.enumerations s).isSome
  | _ => false

/-- A value of its declaration and of a media type it takes, or the class of
what is neither. -/
def readScalar (r : Readers) (lib : Library) (p : ImportPlaced) (a : String) (spec : Attribute)
    (raw : Json) (v : Valued) : Valued :=
  match (r.decode lib spec.declared spec.many raw).toOption.filter (mediaTaken spec.mediaTypes) with
  | some value => { v with values := Table.set v.values a value }
  | none =>
      let shape := if lib.declaresEnumeration spec.declared then NOT_DECLARED else NOT_OF_ITS_TYPE
      { v with classes := v.classes.found p.given p.index .guard a shape }

/-- One attribute a batch gives an object; an erased object's personal values
are not written again. -/
def readAttribute (r : Readers) (lib : Library) (p : ImportPlaced) (t : FlowType) (a : String)
    (raw : Json) (v : Valued) : Except Unplaced Valued :=
  match t.attribute? a with
  | none => .error (refusal p.given (p.given.type ++ " declares no attribute " ++ a))
  | some spec =>
      if raw.isNull then .ok v
      else if spec.personal && p.erased then .ok v
      else match spec.declared with
        | .reference target => .ok (readReference lib p a target spec.optional raw v)
        | _ => .ok (readScalar r lib p a spec raw v)

def readAttributes (r : Readers) (lib : Library) (p : ImportPlaced) (t : FlowType) :
    List (String × Json) → Valued → Except Unplaced Valued
  | [], v => .ok v
  | (a, raw) :: rest, v => do
      let v ← readAttribute r lib p t a raw v
      readAttributes r lib p t rest v

/-- An observation is recorded at the import, and occurred when the legacy
record says, or then. -/
def observationTimes (now : Int) (t : FlowType) (o : ImportedObject) : Table String Value :=
  if t.observationOn.isSome then
    Table.set (Table.set [] "recorded_at" (.timestamp now)) "occurred_at"
      (.timestamp (o.occurredAt.getD now))
  else []

/-- One object's values; what is not of its declaration is in a class its
objects can be excluded by. -/
def readPlaced (r : Readers) (w : World) (p : ImportPlaced) (v : Valued) :
    Except Unplaced (ImportPlaced × Valued) :=
  match w.lib.type? p.given.type with
  | none => .ok (p, v)
  | some t => do
      let classes := if (t.state? p.given.state).isNone then
          v.classes.found p.given p.index .guard "state" NOT_DECLARED
        else v.classes
      let v ← readAttributes r w.lib p t p.given.attributes
        { v with classes, values := observationTimes w.now t p.given }
      return ({ p with values := v.values }, v)

/-- Every object's values, with the references kept by legacy key and the
classes found. -/
def readAll (r : Readers) (w : World) : List ImportPlaced → Valued → Except Unplaced (List ImportPlaced × Valued)
  | [], v => .ok ([], v)
  | p :: rest, v => do
      let (p, v) ← readPlaced r w p v
      let (placed, v) ← readAll r w rest v
      return (p :: placed, v)

/-! ### The subjects of observations -/

/-- The object a legacy key names, in the batch or the store. -/
def resolveKey (ids : Table LegacyKey String) (external : ExternalIds) (key : LegacyKey) :
    Option String :=
  (Table.get? ids key).orElse fun _ => external.object key

/-- An object's type, as the batch places it or the store holds it. -/
def typeOf (w : World) (placed : List ImportPlaced) (id : String) : String :=
  match placed.find? fun p => p.id = id with
  | some p => p.given.type
  | none => ((w.get id).map Object.type).getD ""

/-- The subject of an observation that is no mirror's object. -/
def ownedSubject (w : World) (ids : Table LegacyKey String) (external : ExternalIds)
    (placed : List ImportPlaced) (ref : Reference) : Option String :=
  if ref.name = "subject" && (w.lib.type? ref.given.type).any (·.observationOn.isSome) then
    (ref.named.filterMap (resolveKey ids external)).map (typeOf w placed)
      |>.find? fun subject => !(w.lib.type? subject).any FlowType.mirror
  else none

/-- An observation or a label is on a mirror's object: the import writes nothing
an owned type's own requests would. -/
def checkSubjects (w : World) (ids : Table LegacyKey String) (external : ExternalIds)
    (placed : List ImportPlaced) : List Reference → Except Unplaced Unit
  | [] => .ok ()
  | ref :: rest =>
      match ownedSubject w ids external placed ref with
      | some subject =>
          .error (refusal ref.given ("an observation on a " ++ subject ++
            ", which this store owns, not a mirror"))
      | none => checkSubjects w ids external placed rest

end ObjectFlow
