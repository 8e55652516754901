import ObjectFlow.Importing

/-!
# The rounds of an import

What is not excluded is placed, the classes over it are found, and what the
file excludes is taken out, until nothing more is.  The file's decisions are
then judged, each class told with what excluding it would uncover.
-/

namespace ObjectFlow

open Base

/-- What an import has read of its batch before it places anything. -/
structure Port where
  ids : Table LegacyKey String
  placed : List ImportPlaced
  references : List Reference
  /-- The classes of what is not of its declaration. -/
  structural : Classes

def ImportPlaced.key (p : ImportPlaced) (lib : Library) : LegacyKey := legacy lib p.given.type p.given.legacyKey

/-- A class as the file decides it. -/
def decided (file : List ViolationClass) (c : ViolationClass) : Option ViolationClass :=
  file.find? fun f => f.same c

/-- The places of the objects in the classes a file excludes. -/
def excludedByFile (file : List ViolationClass) (classes : Classes) : List Nat :=
  (classes.filter fun (c, _) => (decided file c).any fun f => f.disposition = .exclude).flatMap
    Prod.snd

/-- An object's failing invariants, what they read left aside. -/
def failing (r : Readers) (w : World) (o : Object) : Except NotRun (List String) :=
  (failingInvariants r.metrics w o false).outcome

/-- A stored set no entry names, empty. -/
def withEmptySets (t : FlowType) (attrs : Table String Value) : Table String Value :=
  t.attributes.foldl (fun attrs (a, spec) =>
    if spec.storedSet && (Table.get? attrs a).isNone then Table.set attrs a (.set []) else attrs)
    attrs

/-- Whether a required attribute is given by something else than the batch. -/
def requiredOf (spec : Attribute) : Bool :=
  !spec.optional && spec.default.isNone && !spec.many && spec.declared ≠ .scalar (.named "counter")

/-- One round: the store with what is not excluded placed, the references left
out of it, and the classes found over it. -/
structure Round where
  work : World
  dropped : List (Nat × String) := []
  classes : Classes := []

section

variable (r : Readers) (w : World) (external : ExternalIds) (file : List ViolationClass)
  (port : Port)

/-! ### References -/

/-- The keys of the excluded objects, which the store does not hold. -/
def excludedKeys (excluded : List Nat) : List LegacyKey :=
  ((port.placed.filter fun p => excluded.contains p.index).map fun p => p.key w.lib).filter
    fun key => (external.object key).isNone

/-- Whether the store, or the batch as it stands, holds the object a legacy key
names. -/
def heldKey (gone : List LegacyKey) (key : LegacyKey) : Bool :=
  (external.object key).isSome || ((Table.get? port.ids key).isSome && !gone.contains key)

/-- What is wrong with a reference, where an object it names is not there. -/
def referenceFault (gone : List LegacyKey) (ref : Reference) : Option String :=
  if ref.named.any fun key => (resolveKey port.ids external key).isNone then some NAMES_NOTHING
  else if ref.named.any gone.contains then some NAMES_EXCLUDED
  else none

/-- The references of the objects not excluded, those at fault found in a class
and left out. -/
def findReferences (excluded : List Nat) (gone : List LegacyKey) (round : Round) : Round :=
  (port.references.filter fun ref => !excluded.contains ref.index).foldl (fun round ref =>
    match referenceFault external port gone ref with
    | none => round
    | some shape =>
        { round with
          classes := round.classes.found ref.given ref.index .reference ref.name shape
          dropped := round.dropped ++ [(ref.index, ref.name)] }) round

/-- The fields of an object's entries that are about an object neither the batch
nor the store holds, each qualified by its entry's kind. -/
def fieldFaults (gone : List LegacyKey) (o : ImportedObject) : List String :=
  o.legacyEntries.flatMap fun e => e.about.filterMap fun (field, target) =>
    if (typedKey w.lib target).any (heldKey external port gone) then none
    else some (e.kind ++ "." ++ field)

def findFields (placed : List ImportPlaced) (gone : List LegacyKey) (classes : Classes) : Classes :=
  placed.foldl (fun classes p =>
    (fieldFaults w external port gone p.given).foldl (fun classes rule =>
      classes.found p.given p.index .field rule ABOUT_NOT_HELD) classes) classes

/-! ### Placing what is not excluded -/

/-- What a reference holds: the objects its keys name. -/
def referenceValue (t : FlowType) (ref : Reference) : Value :=
  let objects := (ref.named.filterMap (resolveKey port.ids external)).map Value.object
  if (t.attribute? ref.name).any (·.many) then .set objects else objects.head?.getD .absent

/-- The object a new one starts as. -/
def ImportPlaced.fresh (p : ImportPlaced) : Object :=
  { id := p.id, type := p.given.type, state := p.given.state, version := 0, createdAt := w.now
    createdByKind := "unknown", recordedFrom := w.now }

/-- The attributes the batch gives an object, over those it holds. -/
def placedAttrs (t : FlowType) (dropped : List (Nat × String)) (p : ImportPlaced)
    (attrs : Table String Value) : Table String Value :=
  let attrs := p.values.foldl (fun attrs (a, v) => Table.set attrs a v) (withEmptySets t attrs)
  (port.references.filter fun ref =>
      ref.index = p.index && !dropped.contains (ref.index, ref.name)).foldl
    (fun attrs ref => Table.set attrs ref.name (referenceValue external port t ref)) attrs

/-- An object as the import places it. -/
def placedObject (dropped : List (Nat × String)) (p : ImportPlaced) : Object :=
  let obj := { p.held.getD (p.fresh w) with state := p.given.state }
  match w.lib.type? p.given.type with
  | none => obj
  | some t => { obj with attrs := placedAttrs external port t dropped p obj.attrs }

/-! ### The classes over what is placed -/

/-- Whether another object of a type that holds the attribute's source holds its
value. -/
def sharedExternal (work : World) (obj : Object) (a source : String) : Bool :=
  let v := obj.attr a
  (work.lib.types.filter fun (_, t) =>
      (t.attribute? a).any fun spec => spec.external = some source).any fun (tn, _) =>
    (work.withKey tn [(a, v)]).any fun x =>
      x.id ≠ obj.id && x.type = tn && textOf (x.attr a) = textOf v

/-- The guard classes of an object placed: a required attribute absent and not
left out, and an external identifier that is shared. -/
def findGuards (work : World) (dropped : List (Nat × String)) (p : ImportPlaced) (t : FlowType)
    (obj : Object) (classes : Classes) : Classes :=
  t.attributes.foldl (fun classes (a, spec) =>
    let classes :=
      if requiredOf spec && (obj.attr a).isAbsent && !dropped.contains (p.index, a) then
        classes.found p.given p.index .guard (a ++ "_provided") IS_ABSENT
      else classes
    match spec.external with
    | none => classes
    | some source =>
        if !(obj.attr a).isAbsent && sharedExternal work obj a source then
          classes.found p.given p.index .guard (uniqueName a) IS_SHARED
        else classes) classes

/-- The classes of one object placed, among those found. -/
def judgePlaced (round : Round) (p : ImportPlaced) (classes : Classes) : Except NotRun Classes :=
  match w.lib.type? p.given.type, round.work.get p.id with
  | some t, some obj =>
      if (t.state? obj.state).isNone then .ok classes
      else do
        let classes := findGuards round.work round.dropped p t obj classes
        let names ← failing r round.work obj
        return (names.filter fun n => !obj.admissions.contains n).foldl
          (fun classes n => classes.found p.given p.index .invariant n DOES_NOT_HOLD) classes
  | _, _ => .ok classes

def judgeAllPlaced (round : Round) : List ImportPlaced → Classes → Except NotRun Classes
  | [], classes => .ok classes
  | p :: rest, classes => do
      let classes ← judgePlaced r w round p classes
      judgeAllPlaced round rest classes

/-- A round over what is not excluded. -/
def oneRound (excluded : List Nat) : Except NotRun Round := do
  let gone := excludedKeys w external port excluded
  let placed := port.placed.filter fun p => !excluded.contains p.index
  let round := findReferences external port excluded gone { work := w, classes := port.structural }
  let round := { round with classes := findFields w external port placed gone round.classes }
  let work := placed.foldl (fun work p => work.insert (placedObject w external port round.dropped p)) w
  let round := { round with work }
  let classes ← judgeAllPlaced r w round placed round.classes
  return { round with classes }

/-- A reference left out, cleared on the object placed. -/
def clearDropped (work : World) (dropped : Nat × String) : World :=
  match port.placed.find? fun p => p.index = dropped.1 with
  | none => work
  | some p => work.change p.id fun o => { o with attrs := Table.erase o.attrs dropped.2 }

def Round.applyDrops (round : Round) : Round :=
  { round with work := round.dropped.foldl (clearDropped port) round.work }

/-- The rounds, each with what the file excludes of the classes the one before
found taken out; as many as the batch has objects take every object out. -/
def placeRounds : Nat → List Nat → Except NotRun (Round × List Nat)
  | fuel, excluded => do
      let round ← oneRound r w external port excluded
      let more := excludedByFile file round.classes
      match fuel with
      | 0 => return (round.applyDrops port, excluded)
      | fuel + 1 =>
          if more.all excluded.contains then return (round.applyDrops port, excluded)
          else placeRounds fuel (more.foldl (fun excluded index => insertIndex index excluded) excluded)

/-! ### The objects the batch does not place -/

/-- An object's invariant that failed neither before nor under an admission. -/
def newlyFailing (work : World) (id : String) : Except NotRun (Option (Object × String)) :=
  match work.get id, w.get id with
  | some now, some was => do
      let held ← failing r w was
      let names ← failing r work now
      return (names.find? fun n => !held.contains n && !now.admissions.contains n).map
        fun n => (now, n)
  | _, _ => .ok none

/-- An invariant of an object the batch does not place, which its writes break,
refuses the batch: no disposition admits it. -/
def checkUnplaced (work : World) : List String → Except Unplaced Unit
  | [] => .ok ()
  | id :: rest =>
      if port.placed.any fun p => p.id = id then checkUnplaced work rest
      else match newlyFailing r w work id with
        | .error e => .error (.notRun e)
        | .ok (some (o, n)) =>
            .error (.refused
              { type := o.type
                reason := "the batch breaks " ++ o.type ++ "." ++ n ++ " on " ++ id ++
                  ", an object it does not place" })
        | .ok none => checkUnplaced work rest

/-! ### What an exclusion uncovers -/

/-- The references that name what a round excluded, from objects not gone; an
object the store holds stays, and nothing naming it is lost. -/
def naming (gone round : List Nat) : List Reference :=
  let keys := excludedKeys w external port round
  port.references.filter fun ref => !gone.contains ref.index && ref.named.any keys.contains

/-- A round at a time, the references that would name an excluded object, each
then taken as excluded too. -/
def uncoveredFrom : Nat → List Nat → List Nat → List Reference
  | 0, _, _ => []
  | fuel + 1, gone, round =>
      let joined := naming w external port gone round
      let next := (joined.map Reference.index).foldl (fun next i => insertIndex i next) []
      if next.isEmpty then []
      else joined ++ uncoveredFrom fuel (gone ++ next) next

/-- What excluding a class's objects would uncover, by type and reference. -/
def uncoveredBy (excluded objects : List Nat) : List Uncovered :=
  let joined := uncoveredFrom w external port (port.placed.length + 1) (excluded ++ objects)
    (objects.filter fun i => !excluded.contains i)
  let rules := ((joined.map fun ref => (ref.given.type, ref.name)).dedup).insertionSort
    fun a b => a.1 < b.1 ∨ (a.1 = b.1 ∧ a.2 ≤ b.2)
  rules.map fun (type, rule) =>
    { id := type ++ "." ++ rule ++ ": " ++ NAMES_EXCLUDED, type, rule
      count := (((joined.filter fun ref =>
        ref.given.type = type && ref.name = rule).map Reference.index).dedup).length }

/-! ### The file's decisions -/

/-- A class as the file decides it, counted and sampled. -/
def finding (excluded : List Nat) (c : ViolationClass) (objects : List Nat) : ViolationClass :=
  let sample := (objects.take 5).filterMap fun i =>
    (port.placed.find? fun p => p.index = i).map fun p => p.given.legacyKey
  let told := { c with
    count := objects.length, sample, uncovers := uncoveredBy w external port excluded objects }
  match decided file c with
  | none => told
  | some f =>
      { told with disposition := f.disposition, decidedBy := f.decidedBy, reason := f.reason }

/-- What is wrong with how the file decides a class; a dry run leaves the
undecided to the person deciding. -/
def wrongDecision (dry : Bool) (c : ViolationClass) (objects : List Nat) : Option String :=
  let f := decided file c
  let disposition := (f.map ViolationClass.disposition).getD .undecided
  let reason := (f.bind ViolationClass.reason).filter fun text => trim text ≠ ""
  match disposition with
  | .undecided => if dry then none else some "is undecided"
  | .cleanUpstream => if dry then none else some "was to be cleaned upstream"
  | .exclude =>
      if reason.isNone then some ("is decided " ++ Disposition.exclude.text ++ " with no reason")
      else none
  | .admitted =>
      match c.kind with
      | .invariant =>
          if c.rule = IDENTITY_TAKEN then
            some ("is an actor's identity another actor holds, which nothing admits: the first" ++
              " made would answer for both")
          else if reason.isNone then
            some ("is decided " ++ Disposition.admitted.text ++ " with no reason")
          else none
      | .field => some "is a field, which nothing admits"
      | _ => some "is a guard, which nothing admits"
  | .drop =>
      match c.kind with
      | .reference =>
          if port.references.any fun ref =>
              objects.contains ref.index && ref.name = c.rule && !ref.optional then
            some "drops a required reference"
          else none
      | .field => none
      | _ => some "drops what is not a reference"

/-- A class the file leaves to be decided, or decides wrongly, refuses the batch
at the first of its objects. -/
def checkDecisions (dry : Bool) : Classes → Except Unplaced Unit
  | [] => .ok ()
  | (c, objects) :: rest =>
      match objects.head?.bind fun i => port.placed.find? fun p => p.index = i with
      | none => checkDecisions dry rest
      | some first =>
          match wrongDecision file port dry c objects with
          | some why =>
              .error (refusal first.given ("its class " ++ c.type ++ "." ++ c.rule ++ " (" ++
                c.shape ++ ") " ++ why))
          | none => checkDecisions dry rest

end

end ObjectFlow
