import ObjectFlow.Checks

/-!
# Requests

A request as the library takes it, its inputs as the wire carries them, and who
it acts as.
-/

namespace ObjectFlow

open Base

/-- A value as the wire carries it. -/
inductive Json where
  | null
  | bool (b : Bool)
  /-- A number, as written. -/
  | number (text : String)
  | string (s : String)
  | array (items : List Json)
  | object (fields : List (String × Json))

def Json.isNull : Json → Bool
  | null => true
  | _ => false

def Json.string? : Json → Option String
  | string s => some s
  | _ => none

structure Request where
  transition : String
  /-- An object's id, or the identity an actor's object holds. -/
  actor : String
  objectId : Option String := none
  /-- The type to create, for an initial transition. -/
  type : Option String := none
  inputs : Table String Json := []
  occurredAt : Option Int := none
  /-- File it as a proposal instead of executing it. -/
  propose : Bool := false
  expiresAt : Option Int := none
  /-- The version of the object its caller read. -/
  expectedVersion : Option Int := none
  /-- For an approval, the version of the proposed object its approver read. -/
  targetVersion : Option Int := none
  /-- The principal its actor acts for. -/
  principal : Option String := none
  /-- The key that makes a retry safe. -/
  idempotencyKey : Option String := none
  context : Option String := none

/-- What the core has read for it: metrics; the wire's values; the JSON object
a proposal holds its inputs in, whole, by its names and without some of them;
and what a change to the declaration writes to its record. -/
structure Readers where
  metrics : MetricReader
  decode : Library → Declared → Bool → Json → Except InputReason Value
  inputsText : Table String Json → String
  inputsOf : String → Option (Table String Json)
  inputNames : String → Option (List String)
  withoutInputs : String → List String → String
  changed : World → Request → Object → Except Stop (Table String Value)

/-- Who an actor's object acts as. -/
def identityWho (w : World) (o : Object) : Option Who := do
  let t ← w.lib.type? o.type
  let (attr, kind) ← t.actorIdentity
  match o.attr attr with
  | .text id => some { id, kind, acts := (t.state? o.state).all (·.acts) }
  | _ => none

/-- The actor types, each with the attribute that holds its identity. -/
def Library.actorTypes (lib : Library) : List (String × String) :=
  lib.types.filterMap fun (tn, t) => t.actorIdentity.map fun (a, _) => (tn, a)

/-- The first of objects in creation order. -/
def World.firstOf (w : World) (objects : List Object) : Option Object :=
  w.inOrder.find? fun o => objects.any fun x => x.id = o.id

/-- The actor a name resolves to: the object of that id, unless another actor
holds it as its identity; else the first actor holding it, in its case or in
any. -/
def resolveActor (w : World) (actor : String) : Option Who :=
  let folded := w.lib.actorTypes.flatMap fun (tn, a) =>
    (w.withFolded tn a actor).filter fun o => o.type = tn
  match w.get actor with
  | some o => if folded.any fun h => h.id ≠ o.id then none else identityWho w o
  | none =>
      let exact := w.lib.actorTypes.flatMap fun (tn, a) =>
        (w.withKey tn [(a, .text actor)]).filter fun o =>
          o.type = tn && (identityWho w o).any fun who => who.id = actor
      let held := folded.filter fun o => (identityWho w o).isSome
      ((w.firstOf exact).orElse fun _ => w.firstOf held).bind (identityWho w)

/-- What refuses an actor: one the store holds none for, and one whose object
is in a state it does not act in. -/
def active : Option Who → Except Stop Who
  | none => .error (.refused (.unsatisfied "actor_known" (some .dependent)) {})
  | some who =>
      if who.acts then .ok who
      else .error (.refused (.unsatisfied "actor_active" (some .dependent)) {})

/-- Who a request acts as: its actor, and the principal it names. -/
def requestWho (w : World) (req : Request) : Except Stop Who := do
  let who ← active (resolveActor w req.actor)
  match req.principal with
  | none => return who
  | some p => do
      let principal ← active (resolveActor w p)
      return { who with principal := some principal.id }

/-- A request naming the version its caller read is refused where the object
has moved since. -/
def checkStale (w : World) (req : Request) : Except Stop Unit :=
  match req.expectedVersion, req.objectId.bind w.get with
  | some expected, some o =>
      if o.version = expected then .ok () else .error (.refused (.stale expected o.version) {})
  | _, _ => .ok ()

/-- The type and the object a request names: an object named beside a type is
found only as one of that type's family. -/
def requestTarget (w : World) (req : Request) : Except Stop (String × Option String) :=
  match req.objectId, req.type with
  | some id, type =>
      match w.get id with
      | none => .error (.refused .notFound {})
      | some o =>
          if type.all fun t => w.lib.isA o.type t then .ok (o.type, some id)
          else .error (.refused .notFound {})
  | none, some type => .ok (type, none)
  | none, none => .error (.refused (.unknownTransition req.transition) {})

end ObjectFlow
