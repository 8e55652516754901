import ObjectFlow.Model

/-!
# Personal names

Which names a library marks personal, by name in any type: attributes and
inputs marked so, inputs an effect writes into a personal attribute or passes
on to a transition that does, and the derived attributes that read one.
-/

namespace ObjectFlow

open Base

mutual

/-- Whether an expression reads, by name, any of those given. -/
def Expr.readsAny (names : List String) : Expr → Bool
  | .name n => names.contains n
  | .path b m => names.contains m || b.readsAny names
  | .call f args => f.readsAny names || readsAnyList names args
  | .agg _ _ _ c f b => readsAnyOption names c || readsAnyOption names f || readsAnyOption names b
  | .metric n binds window fresh =>
      n.readsAny names || readsAnyBinds names binds || readsAnyOption names window ||
        readsAnyOption names fresh
  | .changed _ e | .not e | .neg e | .isNull e _ => e.readsAny names
  | .set items => readsAnyList names items
  | .in' l r | .bin _ l r => l.readsAny names || r.readsAny names
  | .if' c a b => c.readsAny names || a.readsAny names || b.readsAny names
  | _ => false

def readsAnyList (names : List String) : List Expr → Bool
  | [] => false
  | e :: rest => e.readsAny names || readsAnyList names rest

def readsAnyBinds (names : List String) : List (String × Expr) → Bool
  | [] => false
  | (_, e) :: rest => e.readsAny names || readsAnyBinds names rest

def readsAnyOption (names : List String) : Option Expr → Bool
  | none => false
  | some e => e.readsAny names

end

mutual

/-- Whether an expression reads an input, as `inputs.<name>`. -/
def Expr.readsInput (input : String) : Expr → Bool
  | .path b m => (match b with
      | .name n => n = "inputs" && m = input
      | _ => false) || b.readsInput input
  | .call f args => f.readsInput input || readsInputList input args
  | .agg _ _ _ c f b =>
      readsInputOption input c || readsInputOption input f || readsInputOption input b
  | .metric n binds window fresh =>
      n.readsInput input || readsInputBinds input binds || readsInputOption input window ||
        readsInputOption input fresh
  | .changed _ e | .not e | .neg e | .isNull e _ => e.readsInput input
  | .set items => readsInputList input items
  | .in' l r | .bin _ l r => l.readsInput input || r.readsInput input
  | .if' c a b => c.readsInput input || a.readsInput input || b.readsInput input
  | _ => false

def readsInputList (input : String) : List Expr → Bool
  | [] => false
  | e :: rest => e.readsInput input || readsInputList input rest

def readsInputBinds (input : String) : List (String × Expr) → Bool
  | [] => false
  | (_, e) :: rest => e.readsInput input || readsInputBinds input rest

def readsInputOption (input : String) : Option Expr → Bool
  | none => false
  | some e => e.readsInput input

end

/-- Whether an attribute of a type is personal. -/
def FlowType.personal (t : FlowType) (name : String) : Bool :=
  (t.attribute? name).any (·.personal)

mutual

/-- Whether an effect writes an input into a personal attribute. -/
def Step.writesPersonal (t : FlowType) (input : String) : Step → Bool
  | .assign location e | .add location e => e.readsInput input && t.personal location
  | .foreach _ _ _ _ _ steps => writesPersonalList t input steps
  | _ => false

def writesPersonalList (t : FlowType) (input : String) : List Step → Bool
  | [] => false
  | s :: rest => s.writesPersonal t input || writesPersonalList t input rest

end

/-- Whether an input is personal by its own transition alone. -/
def personalByOwn (t : FlowType) (x : Transition) (input : String) : Bool :=
  (x.inputs.any fun (n, i) => n = input && i.personal) || writesPersonalList t input x.effect

/-- Whether the arguments of a step pass an input into one the transition it
takes holds personal. -/
def passesInto (tt : FlowType) (transition : String) (inputs : List (String × Expr))
    (input : String) : Bool :=
  match tt.transition? transition with
  | none => false
  | some tx => inputs.any fun (arg, e) =>
      e.readsInput input && (tt.personal arg || personalByOwn tt tx arg)

mutual

/-- Whether an effect passes an input on, one hop, into one held personal. -/
def Step.passesPersonal (lib : Library) (input : String) : Step → Bool
  | .create type transition inputs _ =>
      (lib.type? type).any fun tt => passesInto tt transition inputs input
  | .call _ transition inputs =>
      lib.types.any fun (_, tt) => passesInto tt transition inputs input
  | .foreach _ _ _ _ _ steps => passesPersonalList lib input steps
  | _ => false

def passesPersonalList (lib : Library) (input : String) : List Step → Bool
  | [] => false
  | s :: rest => s.passesPersonal lib input || passesPersonalList lib input rest

end

/-- Whether an input is personal: marked so, written by its effect into a
personal attribute, or passed on into one held so. -/
def inputPersonal (lib : Library) (t : FlowType) (x : Transition) (input : String) : Bool :=
  personalByOwn t x input || passesPersonalList lib input x.effect

/-- A list of names with those given, each once. -/
def addNames (names new : List String) : List String :=
  new.foldl (fun names n => if n ∈ names then names else names ++ [n]) names

/-- The attributes and inputs a type marks personal. -/
def FlowType.personalNames (lib : Library) (t : FlowType) : List String :=
  (t.attributes.filter fun (_, a) => a.personal).map Prod.fst ++
    t.transitions.flatMap fun (_, x) =>
      (x.requiredInputs ++ x.optionalInputs ++ x.inputs.map Prod.fst).filter
        (inputPersonal lib t x)

/-- The derived attributes that read a personal name, added until none is. -/
def personalDerived (lib : Library) : Nat → List String → List String
  | 0, names => names
  | fuel + 1, names =>
      let grown := lib.types.foldl (fun names (_, t) =>
        t.derived.foldl (fun names (d, e) =>
          if d ∉ names ∧ e.readsAny names then names ++ [d] else names) names) names
      if grown.length = names.length then names else personalDerived lib fuel grown

/-- The names the library marks personal, by name in any type. -/
def personalNames (lib : Library) : List String :=
  personalDerived lib ((lib.types.map fun (_, t) => t.derived.length).sum + 1)
    (addNames [] (lib.types.flatMap fun (_, t) => t.personalNames lib))

/-- Whether a value of type `identity` is personal: an actor type marks its
identity attribute so. -/
def identitiesPersonal (lib : Library) : Bool :=
  lib.types.any fun (_, t) => match t.actorIdentity with
    | some (a, _) => t.personal a
    | none => false

def Declared.isIdentity : Declared → Bool
  | .scalar (.named n) => n = "identity"
  | _ => false

/-- The names of the members and inputs of type `identity`, by name in any
type. -/
def identityNames (lib : Library) : List String :=
  addNames [] <| lib.types.flatMap fun (_, t) =>
    (t.attributes.filter fun (_, a) => a.declared.isIdentity).map Prod.fst ++
      t.transitions.flatMap fun (_, x) =>
        (x.inputs.filter fun (_, i) => i.declared.isIdentity).map Prod.fst

/-- Whether an expression reads anything the library marks personal. -/
def readsPersonal (lib : Library) (e : Expr) : Bool :=
  e.readsAny (personalNames lib) ||
    (identitiesPersonal lib && e.readsAny (identityNames lib))

end ObjectFlow
