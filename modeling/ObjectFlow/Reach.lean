import ObjectFlow.Invariants

/-!
# What a write can break

Which objects' invariants a request's writes could break.  A type's invariants
are walked for the chains of relationship ends they read and the keys they
compare; the objects checked again are those written, those sharing a key with
one written, and those a written object is reached from back along a chain.
-/

namespace ObjectFlow

open Base

/-- A hop of a chain an invariant reads. -/
inductive Hop where
  /-- An end of a relationship of `owner`, reaching `target`. -/
  | «end» (owner attr target : String)
  /-- Any object holding a reference to one of a type. -/
  | referrers (of : String)
deriving DecidableEq

/-- A key a type's invariants compare across objects: the attributes a family
holds a uniqueness in, or an external identifier of a source. -/
structure Keyed where
  family : String
  attrs : List String
  source : Option String

/-- The source a reach's key names an actor's identity by. -/
def IDENTITY_SOURCE : String := "actor identity"

/-- What a type's invariants read beyond the object they are on. -/
inductive Reach where
  /-- The object alone. -/
  | itself
  /-- The objects sharing a key with the one written, and those it is reached
  from along a chain. -/
  | related (keys : List Keyed) (chains : List (List Hop))
  /-- What no form here tells, taken as any object. -/
  | anything

/-- The names every object reads itself alone by. -/
def OWN_MEMBERS : List String := ["state", "id", "open", "created_at", "created_by_kind"]

/-- The calls whose arguments are all they read. -/
def KNOWN_CALLS : List String := ["length", "trim", "entered_at", "intervals"]

/-- Whether a call is of one the walk knows. -/
def Expr.knownCall : Expr → Option String
  | .name n => if KNOWN_CALLS.contains n then some n else none
  | _ => none

/-- A bare name, where an expression is one. -/
def Expr.bare : Expr → Option String
  | .name n => some n
  | _ => none

/-! ### Whether an invariant reads its own object alone -/

section

variable (lib : Library) (t : FlowType)
  (below : Expr → List String → Option (List String))

/-- A name read on the object alone, with the derived attributes seen after
it; none where it reads more. -/
def readsOwnName (n : String) (seen : List String) : Option (List String) :=
  if n = "this" || OWN_MEMBERS.contains n then some seen
  else match t.attribute? n with
    | some spec =>
        match spec.declared, spec.opposite with
        | .reference _, some _ => none
        | _, _ => some seen
    | none =>
        match t.derived? n with
        -- a derived attribute read twice in one walk is a cycle, taken whole
        | some d => if seen.contains n then none else below d (n :: seen)
        | none =>
            if (named? t.observations n).isSome then none
            else if (t.state? n).isSome || n = "closed" ||
                (t.states.any fun (_, s) => s.category = n) || ACTOR_KINDS.contains n then some seen
            else none

/-- A path read on the object alone. -/
def readsOwnPath (b : Expr) (m : String) (seen : List String) : Option (List String) :=
  match b.bare with
  | none => none
  | some b =>
      if b = "this" then readsOwnName t below m seen
      else if b = "state" then if m = "category" then some seen else none
      else if (t.attribute? b).isNone && (t.derived? b).isNone then
        if ((lib.type? b).bind (·.state? m)).isSome ||
            (Table.get? lib.enumerations b).any fun ms => ms.contains m then some seen
        else none
      else none

mutual

/-- Whether an expression on an object of a type reads that object alone: the
derived attributes seen, where it does. -/
def Expr.readsOnlyThis : Expr → List String → Option (List String)
  | .num _, seen | .str _, seen | .bool _, seen | .dur .., seen | .money .., seen
  | .param _, seen | .lit _, seen => some seen
  | .name n, seen => readsOwnName t below n seen
  | .path b m, seen => readsOwnPath lib t below b m seen
  | .call f args, seen => if f.knownCall.isSome then readOnlyThis args seen else none
  | .agg .., _ | .metric .., _ => none
  | .changed _ e, seen | .not e, seen | .neg e, seen | .isNull e _, seen =>
      e.readsOnlyThis seen
  | .set items, seen => readOnlyThis items seen
  | .in' l r, seen | .bin _ l r, seen => (l.readsOnlyThis seen).bind r.readsOnlyThis
  | .if' c a b, seen =>
      ((c.readsOnlyThis seen).bind a.readsOnlyThis).bind b.readsOnlyThis

def readOnlyThis : List Expr → List String → Option (List String)
  | [], seen => some seen
  | e :: rest, seen => (e.readsOnlyThis seen).bind (readOnlyThis rest)

end

end

/-- The walk of derived attributes, each into the next, as deep as a type
declares. -/
def ownBelow (lib : Library) (t : FlowType) : Nat → Expr → List String → Option (List String)
  | 0 => fun _ _ => none
  | fuel + 1 => fun e seen => e.readsOnlyThis lib t (ownBelow lib t fuel) seen

/-- Whether an expression reads its own object alone. -/
def readsOnlyThis (lib : Library) (t : FlowType) (e : Expr) : Bool :=
  (ownBelow lib t (t.derived.length + 1) e []).isSome

/-! ### The chains an invariant reads -/

/-- What an expression denotes, as far as the chains it reads. -/
inductive Denotes where
  /-- No object. -/
  | nothing
  /-- The objects at the end of a chain, of a type, none known for a
  referrer's. -/
  | objects (type : String) (path : List Hop)
  /-- An interval's rows. -/
  | rows
  /-- A row's value, which may be any object. -/
  | opaque'

def Denotes.isNothing : Denotes → Bool
  | nothing => true
  | _ => false

/-- The members every object has, which read the object alone. -/
def BUILT_IN_MEMBERS : List String :=
  ["state", "id", "open", "created_at", "created_by_kind", "closed", "category", "human", "agent",
    "service"]

/-- A walk's answer: what an expression denotes, and the chains it read; none
where it reads what no chain tells. -/
abbrev Walked := Option (Denotes × List (List Hop))

/-- How a derived attribute is walked: on the objects at the end of a chain,
inside those being walked. -/
abbrev WalkBelow := Expr → String → List Hop → List (String × String) → Walked

section

variable (lib : Library) (below : WalkBelow) (deriving' : List (String × String))
  (type : String) (path : List Hop)

/-- A member of the objects at the end of a chain: a relationship end extends
the chain, a derived attribute is walked on those objects, and a value or a
built-in member ends it. -/
def walkMember (type : String) (path : List Hop) (m : String) : Walked :=
  let declared := (lib.type? type).any fun t => (t.attribute? m).isSome || (t.derived? m).isSome
  if !declared && BUILT_IN_MEMBERS.contains m then some (.nothing, [])
  else if m = "referrers" then
    let chain := path ++ [.referrers type]
    some (.objects "" chain, [chain])
  else match lib.type? type with
    -- a referrer's type is not known, so only its built-ins are read
    | none => none
    | some t =>
        match t.attribute? m, t.derived? m with
        | some spec, _ =>
            match spec.declared with
            | .reference target =>
                let chain := path ++ [.end type m target]
                some (.objects target chain, [chain])
            | _ => some (.nothing, [])
        | none, some d =>
            if deriving'.contains (type, m) then none
            else below d type path ((type, m) :: deriving')
        | none, none =>
            if (t.state? m).isSome || t.states.any fun (_, s) => s.category = m then
              some (.nothing, [])
            else none

/-- Whether a path is a state of a type, or a member of an enumeration, by
name. -/
def namesState (env : List (String × Denotes)) (b : Expr) : Bool :=
  match b.bare with
  | none => false
  | some b =>
      (Table.get? env b).isNone && b ≠ "this" &&
        (b = "state" ||
          ((lib.type? type).all fun t => (t.attribute? b).isNone && (t.derived? b).isNone) &&
            ((lib.type? b).isSome || (Table.get? lib.enumerations b).isSome))

/-- A member of what an expression denotes. -/
def walkPath (m : String) : Denotes → Walked
  | .objects type path => walkMember lib below deriving' type path m
  | .rows => some (if ["value", "object", "subject"].contains m then .opaque' else .nothing, [])
  | .opaque' => none
  | .nothing => some (.nothing, [])

/-- Chains read one after another. -/
def Walked.after (w : Walked) (next : Denotes → Walked) : Walked :=
  w.bind fun (d, chains) => (next d).map fun (e, more) => (e, chains ++ more)

/-- A walk read for its chains alone. -/
def Walked.ends (w : Walked) : Walked := w.map fun (_, chains) => (.nothing, chains)

mutual

/-- The chains an expression reads from the invariant's object, and what it
denotes. -/
def Expr.walk (env : List (String × Denotes)) : Expr → Walked
  | .num _ | .str _ | .bool _ | .dur .. | .money .. | .param _ | .lit _ => some (.nothing, [])
  | .name n =>
      match Table.get? env n with
      | some d => some (d, [])
      | none =>
          if n = "this" then some (.objects type path, [])
          else walkMember lib below deriving' type path n
  | .path b m =>
      if namesState lib type env b then some (.nothing, [])
      else (b.walk env).after (walkPath lib below deriving' m)
  | .call f args =>
      match f.knownCall with
      | none => none
      | some n => (walkAll env args).after fun _ =>
          some (if n = "intervals" then .rows else .nothing, [])
  | .agg _ _ var collection filter body =>
      match var with
      | none => none
      | some var =>
          (walkCollection env collection).after fun denoted =>
            match denoted with
            | .opaque' => none
            | denoted =>
                let inner := Table.put env var denoted
                ((walkOption inner filter).after fun _ => walkOption inner body).ends
  | .metric .. => none
  | .changed _ e | .not e | .neg e | .isNull e _ => (e.walk env).ends
  | .if' c a b =>
      ((c.walk env).after fun _ => (a.walk env).after fun d =>
        if d.isNothing then (b.walk env).after fun d =>
          if d.isNothing then some (.nothing, []) else none
        else none)
  | .set items => (walkAll env items).ends
  | .in' l r | .bin _ l r => ((l.walk env).after fun _ => r.walk env).ends

def walkAll (env : List (String × Denotes)) : List Expr → Walked
  | [] => some (.nothing, [])
  | e :: rest => (e.walk env).after fun _ => walkAll env rest

def walkCollection (env : List (String × Denotes)) : Option Expr → Walked
  | none => none
  | some e => e.walk env

def walkOption (env : List (String × Denotes)) : Option Expr → Walked
  | none => some (.nothing, [])
  | some e => e.walk env

end

end

/-- The walk of derived attributes, each into the next. -/
def walkBelow (lib : Library) : Nat → WalkBelow
  | 0 => fun _ _ _ _ => none
  | fuel + 1 => fun e type path deriving' =>
      e.walk lib (walkBelow lib fuel) deriving' type path []

/-- The derived attributes a library declares. -/
def Library.derivedCount (lib : Library) : Nat := (lib.types.map fun (_, t) => t.derived.length).sum

/-- Each chain of relationship ends an invariant of a type reads from its
object, every prefix of each; none where it reads what no chain tells. -/
def traversals (lib : Library) (t : FlowType) (e : Expr) : Option (List (List Hop)) :=
  (walkBelow lib (lib.derivedCount + 1) e t.name [] []).map Prod.snd

/-- The chains a type's declared invariants read. -/
def chainsOf (lib : Library) (t : FlowType) : List (String × Expr) → Option (List (List Hop))
  | [] => some []
  | (_, e) :: rest =>
      if readsOnlyThis lib t e then chainsOf lib t rest
      else (traversals lib t e).bind fun found => (chainsOf lib t rest).map (found ++ ·)

/-- The keys of the external identifiers of a source, by each type that holds
one. -/
def externalKeys (lib : Library) (source : String) : List Keyed :=
  lib.types.flatMap fun (tn, ot) => (ot.ofSource source).map fun b =>
    { family := tn, attrs := [b], source := some source }

/-- The keys a type's uniquenesses and external identifiers compare; none where
a uniqueness's filter reads more than its object. -/
def keysOf (lib : Library) (t : FlowType) : List (String × Attribute) → Option (List Keyed)
  | [] => some []
  | (a, spec) :: rest =>
      let external := (spec.external.map (externalKeys lib)).getD []
      match uniqueKey a spec (effectiveUnique lib spec) with
      | none => (keysOf lib t rest).map (external ++ ·)
      | some (attrs, filter) =>
          if filter.any fun e => !readsOnlyThis lib t e then none
          else
            let key : Keyed := { family := Library.uniqueScope t a, attrs, source := none }
            (keysOf lib t rest).map fun keys => key :: external ++ keys

/-- The key of an actor's identity. -/
def identityKeys (t : FlowType) : List Keyed :=
  (t.actorIdentity.map fun (a, _) =>
    { family := t.name, attrs := [a], source := some IDENTITY_SOURCE }).toList

/-- A type's invariants' reach. -/
def invariantReach (lib : Library) (t : FlowType) : Reach :=
  match chainsOf lib t t.invariants, keysOf lib t t.attributes with
  | some chains, some keys =>
      let keys := keys ++ identityKeys t
      if keys.isEmpty && chains.isEmpty then .itself else .related keys chains
  | _, _ => .anything

/-! ### Back along a chain -/

/-- The ids a value names. -/
def idsNamed : Value → List String
  | .object id => [id]
  | .set items => items.filterMap fun i => match i with
      | Value.object id => some id
      | _ => none
  | _ => []

/-- The objects of a hop's owner that reach an object through it: through the
end the object stores, its opposite, and through the end the owner stores; for
`referrers`, the objects it refers to. -/
def backFrom (w : World) (hop : Hop) (o : Object) : List String :=
  match hop with
  | .end owner attr target =>
      if !w.lib.isA o.type target then []
      else match (w.lib.type? owner).bind (·.attribute? attr) with
        | none => []
        | some spec =>
            let back := (spec.opposite.map fun b => idsNamed (o.attr b)).getD []
            let columns := if spec.many then [] else [(attr, Value.object o.id)]
            let stored := if spec.derivedEnd then [] else
              ((w.ofTypeWhere owner none columns).filter fun x =>
                (idsNamed (x.attr attr)).contains o.id).map Object.id
            back ++ stored
  | .referrers of =>
      match w.lib.type? o.type with
      | none => []
      | some t => t.attributes.flatMap fun (a, spec) =>
          match spec.declared with
          | .reference _ => (idsNamed (o.attr a)).filter fun id =>
              (w.get id).any fun x => w.lib.isA x.type of
          | _ => []

/-- The objects a chain reaches, back from those given along its hops, the last
first. -/
def backAlong (w : World) : List Hop → List Object → List String
  | [], objects => objects.map Object.id
  | hop :: rest, objects =>
      let reached := objects.flatMap (backFrom w hop)
      match rest with
      | [] => reached
      | _ => backAlong w rest (reached.filterMap w.get)

/-- The values a key is looked up by, of one written object. -/
def keyValues (lib : Library) (k : Keyed) (o : Object) : List (List Value) :=
  match k.source with
  | none => if lib.isA o.type k.family then [k.attrs.map o.attr] else []
  | some source => ((lib.type? o.type).map fun t => (t.ofSource source).map fun a =>
      [o.attr a]).getD []

/-- The identity a written actor holds. -/
def identityText (lib : Library) (o : Object) : Option String :=
  ((lib.type? o.type).bind FlowType.actorIdentity).bind fun (a, _) =>
    match o.attr a with
    | .text s => some s
    | _ => none

/-- The objects sharing a key with a written one. -/
def sharing (w : World) (versions : List Object) (k : Keyed) : List Object :=
  if k.source = some IDENTITY_SOURCE then
    (versions.filterMap (identityText w.lib)).flatMap fun s =>
      w.withFolded k.family (k.attrs.headD "") s
  else versions.flatMap fun o => (keyValues w.lib k o).flatMap fun key =>
    if key.any Value.isAbsent then [] else w.withKey k.family (k.attrs.zip key)

/-- The objects written, as they are and as the store held them. -/
def writtenVersions (work before : World) : List Object :=
  work.written.flatMap fun id => (work.get id).toList ++ (before.get id).toList

/-- The objects of one type whose invariants the writes could break. -/
def affectedOf (work : World) (versions : List Object) (tn : String) (t : FlowType) :
    List String :=
  if t.observationOn.isSome then []
  else match invariantReach work.lib t with
    | .itself => []
    | .anything => (work.ofType tn).map Object.id
    | .related keys chains =>
        (chains.flatMap fun chain => ((backAlong work chain.reverse versions).filterMap
            work.get).filter fun o => work.lib.isA o.type tn).map Object.id ++
          keys.flatMap fun k => (sharing work versions k).map Object.id

/-- The objects whose invariants a request's writes could break, in ascending
id order.  A kind's invariants are checked on the recording alone. -/
def affectedByWrites (work before : World) : List String :=
  let versions := writtenVersions work before
  if versions.isEmpty then []
  else
    let affected := work.written ++
      work.lib.types.flatMap fun (tn, t) => affectedOf work versions tn t
    (work.inOrder.map Object.id).filter affected.contains

end ObjectFlow
