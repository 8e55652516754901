import ObjectFlow.Effects

/-!
# Failing invariants

What of a type's invariants an object fails: the ones it declares, what its
state requires, and what an attribute's uniqueness, an external identifier's
and an actor's identity ask of the other objects.
-/

namespace ObjectFlow

open Base

/-- The generated invariant an identity another actor holds fails. -/
def IDENTITY_TAKEN : String := "identity_taken"

/-- An attribute's uniqueness as the invariants check it: its own, or, for a
singular end whose opposite is singular too, one to one. -/
def effectiveUnique (lib : Library) (spec : Attribute) : Unique :=
  match spec.unique, spec.declared, spec.opposite, spec.many with
  | .no, .reference target, some opposite, false =>
      let single := ((lib.type? target).bind (·.attribute? opposite)).any fun b =>
        !b.many && match b.declared with
          | .reference _ => true
          | _ => false
      if single then .yes else .no
  | unique, _, _, _ => unique

/-- The attributes a uniqueness compares, and the filter it holds among. -/
def uniqueKey (a : String) (spec : Attribute) : Unique → Option (List String × Option Expr)
  | .no => none
  | .yes => some ([a], none)
  | .with others => some (a :: others, none)
  | .where e => some ([a], some e)
  -- within the scope its identifier numbers by
  | .inScope => some (a :: (spec.identifier.bind (·.scope)).toList, none)

/-- The other actors holding an object's identity, whatever the case of its
ASCII letters. -/
def identityHolders (w : World) (o : Object) : List Object :=
  match (w.lib.type? o.type).bind FlowType.actorIdentity with
  | none => []
  | some (a, _) =>
      match o.attr a with
      | .text mine => w.lib.types.flatMap fun (tn, ot) =>
          match ot.actorIdentity with
          | none => []
          | some (b, _) => (w.withFolded tn b mine).filter fun other =>
              other.type = tn && other.id ≠ o.id
      | _ => []

section

variable (m : MetricReader) (w : World) (o : Object) (recorded : Bool)

/-- A check's scan, recorded as a type scan's is. -/
def noteScan (rule type : String) (matched : List Object) : Evaluated Unit :=
  if recorded then Noted.noteAll
    (matched.map (fun x => .read x.id x.version) ++ [.scan rule type (matched.map Object.id)])
  else pure ()

/-- Whether one of a type's declared invariants is false; one that is unknown
holds. -/
def declaredFails (t : FlowType) (name : String) (e : Expr) : Evaluated Bool := do
  let ev : Evaluator :=
    { world := w, type := some t, this := some o.id, others := true
      reading := if recorded then some name else none }
  return (← truth (← ev.eval m e)) = some false

/-- The declared invariants that fail. -/
def declaredFailing (t : FlowType) : List (String × Expr) → Evaluated (List String)
  | [] => return []
  | (name, e) :: rest => do
      let fails ← declaredFails m w o recorded t name e
      let others ← declaredFailing t rest
      return if fails then name :: others else others

/-- What an object's state requires of it. -/
def stateFailing (t : FlowType) : List String :=
  match t.state? o.state with
  | some s =>
      if s.requiredAttributes.any fun a => (o.attr a).isAbsent then
        [o.state.toLower ++ "_invariant"]
      else []
  | none => []

/-- The key of an object a uniqueness compares, where it has one: no value of
it absent, and its filter met. -/
def keyOf (attrs : List String) (filter : Option Expr) (x : Object) :
    Evaluated (Option (List Value)) := do
  let values := attrs.map x.attr
  if values.any Value.isAbsent then return none
  else match filter with
    | none => return some values
    | some f =>
        let ev : Evaluator :=
          { world := w, type := w.lib.type? x.type, this := some x.id, filterMode := true }
        return if (← truth (← ev.eval m f)) = some true then some values else none

/-- Whether two keys are equal, value by value. -/
def keysEqual (a b : List Value) : Bool := (a.zip b).all fun (x, y) => x.equals y

/-- The other objects given that hold a key. -/
def holdersOf (attrs : List String) (filter : Option Expr) (mine : List Value) :
    List Object → Evaluated (List Object)
  | [] => return []
  | x :: rest =>
      if x.id = o.id then holdersOf attrs filter mine rest
      else do
        let theirs ← keyOf m w attrs filter x
        let others ← holdersOf attrs filter mine rest
        return if theirs.any fun k => keysEqual k mine then x :: others else others

/-- The name of an attribute's generated uniqueness. -/
def uniqueName (a : String) : String := a ++ "_unique"

/-- The uniquenesses of attributes that fail. -/
def uniqueFailing (t : FlowType) : List (String × Attribute) → Evaluated (List String)
  | [] => return []
  | (a, spec) :: rest =>
      match uniqueKey a spec (effectiveUnique w.lib spec) with
      | none => uniqueFailing t rest
      | some (attrs, filter) => do
          match ← keyOf m w attrs filter o with
          | none => uniqueFailing t rest
          | some mine => do
              let scope := Library.uniqueScope t a
              let found ← holdersOf m w o attrs filter mine (w.withKey scope (attrs.zip mine))
              noteScan recorded (uniqueName a) scope found
              let others ← uniqueFailing t rest
              return if found.isEmpty then others else uniqueName a :: others

/-- The attributes of a type that hold an external identifier of a source. -/
def FlowType.ofSource (t : FlowType) (source : String) : List String :=
  (t.attributes.filter fun (_, b) => b.external = some source).map Prod.fst

/-- The other objects holding an external identifier, each from its own
type. -/
def externalHolders (source : String) (mine : Value) : List Object :=
  w.lib.types.foldl (fun holders (tn, ot) => (ot.ofSource source).foldl (fun holders b =>
    (w.withKey tn [(b, mine)]).foldl (fun holders other =>
      if other.type = tn && other.id ≠ o.id && !holders.any fun (h : Object) => h.id = other.id then
        holders ++ [other]
      else holders) holders) holders) []

/-- The external identifiers another object holds, besides those that fail
already. -/
def externalFailing (failing : List String) : List (String × Attribute) → Evaluated (List String)
  | [] => return []
  | (a, spec) :: rest =>
      match spec.external with
      | none => externalFailing failing rest
      | some source =>
          if (o.attr a).isAbsent || failing.contains (uniqueName a) then
            externalFailing failing rest
          else do
            let holders := externalHolders w o source (o.attr a)
            (w.lib.types.filter fun (_, ot) => !(ot.ofSource source).isEmpty).forM fun (tn, _) =>
              noteScan recorded (uniqueName a) tn []
            holders.forM fun h => noteScan recorded (uniqueName a) h.type [h]
            let others ← externalFailing (failing ++ if holders.isEmpty then [] else [uniqueName a])
              rest
            return if holders.isEmpty then others else uniqueName a :: others

/-- Whether another actor holds the object's identity, besides a uniqueness
that fails already. -/
def identityFailing (t : FlowType) (failing : List String) : Evaluated (List String) :=
  match t.actorIdentity with
  | none => return []
  | some (a, _) =>
      if failing.contains (uniqueName a) then return []
      else do
        let holders := identityHolders w o
        (w.lib.types.filter fun (_, ot) => ot.actorIdentity.isSome).forM fun (tn, _) =>
          noteScan recorded IDENTITY_TAKEN tn []
        holders.forM fun h => noteScan recorded IDENTITY_TAKEN h.type [h]
        return if holders.isEmpty then [] else [IDENTITY_TAKEN]

/-- An object's failing invariants in the order its type declares them, with
what each read where it is recorded. -/
def failingInvariants : Evaluated (List String) :=
  match w.lib.type? o.type with
  | none => return []
  | some t => do
      let declared ← declaredFailing m w o recorded t t.invariants
      let unique ← uniqueFailing m w o recorded t t.attributes
      let failing := declared ++ stateFailing o t ++ unique
      let external ← externalFailing w o recorded failing t.attributes
      let identity ← identityFailing w o recorded t (failing ++ external)
      return failing ++ external ++ identity

end

end ObjectFlow
