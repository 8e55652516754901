import ObjectFlow.Expr

/-!
# Flow libraries

What a store installs: types with their attributes, states, conditions,
invariants and transitions, and the enumerations they name.  A library is
taken as loaded, so what a machine, a base or a generated rule gives a type is
already among its members.
-/

namespace ObjectFlow

open Base

/-- What a caller can do about a refusal. -/
inductive Remedy where
  | selfServiceable | delegable | temporal | dependent | unreachableFromHere
deriving DecidableEq

/-- How a guard is enforced. -/
inductive Enforce where
  /-- It refuses the request. -/
  | deny
  /-- Its failure is recorded, and refuses nothing. -/
  | audit
  /-- Its failure is told to the caller, and refuses nothing. -/
  | warn
deriving DecidableEq

/-- A built-in type or an enumeration: the two that take parameters apart, the
others by name. -/
inductive Scalar where
  | decimal (precision scale : Nat)
  | money (currency : String)
  | named (name : String)
deriving DecidableEq

/-- An attribute's or input's declared type. -/
inductive Declared where
  | scalar (s : Scalar)
  /-- A reference to an object of a type. -/
  | reference (type : String)
  /-- A value of several fields, by its name. -/
  | value (name : String)
deriving DecidableEq

/-- Whether an attribute's values are unique. -/
inductive Unique where
  | no
  /-- Across every object of the type, absent values aside. -/
  | yes
  /-- Within the scope its identifier names. -/
  | inScope
  /-- Together with the attributes named. -/
  | with (attributes : List String)
  /-- Among the objects that meet a condition. -/
  | where (condition : Expr)

/-- A part of an identifier's format: a text, the number padded to a width, or
a value of the object. -/
inductive FormatPart where
  | text (s : String)
  | number (width : Nat)
  | field (e : Expr)

/-- A stretch of an identifier's format; an optional one is left out whole
where a value in it is absent. -/
structure FormatSegment where
  optional : Bool
  parts : List FormatPart

/-- An identifier minted from a sequence, its format as parsed. -/
structure Identifier where
  sequence : String
  scope : Option String
  format : List FormatSegment

/-- The transition each part takes when its whole takes one of `on`. -/
structure CascadeClause where
  on : List String
  transition : String
  inputs : List (String × Expr)
  limit : Option Int

structure Attribute where
  declared : Declared
  /-- A set of values, or of references. -/
  many : Bool := false
  optional : Bool := false
  default : Option Expr := none
  unique : Unique := .no
  personal : Bool := false
  notBlank : Bool := false
  mediaTypes : List String := []
  /-- The kind of actor whose identity it holds. -/
  actorKind : Option String := none
  identifier : Option Identifier := none
  /-- A relationship end the other side stores. -/
  opposite : Option String := none
  /-- Its objects are parts of this one. -/
  composite : Bool := false
  /-- The source whose external identifier it holds. -/
  external : Option String := none
  survivesAlways : Bool := false
  cascade : List CascadeClause := []

/-- One write of an effect. -/
inductive Step where
  | assign (location : String) (expr : Expr)
  | clear (names : List String)
  | add (location : String) (expr : Expr)
  | remove (location : String) (expr : Expr)
  | create (type transition : String) (inputs : List (String × Expr)) (result : Option String)
  | call (target : Expr) (transition : String) (inputs : List (String × Expr))
  | foreach (item : String) (array range filter : Option Expr) (limit : Int) (steps : List Step)
  | supersede (e : Expr)

structure Input where
  declared : Declared
  many : Bool := false
  optional : Bool := false
  default : Option Expr := none
  personal : Bool := false
  notBlank : Bool := false
  mediaTypes : List String := []

structure State where
  category : String := ""
  isFinal : Bool := false
  requiredAttributes : List String := []
  /-- An object in it is superseded. -/
  superseding : Bool := false
  /-- Whether an actor whose object is in it acts. -/
  acts : Bool := true
deriving DecidableEq

structure Condition where
  expression : Expr
  remedy : Option Remedy := none

/-- A transition's kind. -/
inductive Kind where
  | initial | external | internal | assertion | erasure
deriving DecidableEq

/-- The states a transition may be taken from. -/
inductive From where
  /-- Every state not final, and for an external transition every one but its
  target. -/
  | any
  | states (names : List String)
deriving DecidableEq

structure Transition where
  kind : Kind
  fromStates : Option From := none
  toStates : List String := []
  onlyVia : List String := []
  proposable : Bool := false
  requiredInputs : List String := []
  optionalInputs : List String := []
  /-- The optional inputs that clear their attribute where given as null. -/
  clearableInputs : List String := []
  inputs : List (String × Input) := []
  guards : List (String × Enforce) := []
  effect : List Step := []
  backdatingLimit : Option String := none
  /-- The invariants a request may admit breaking. -/
  mayAdmit : List String := []
  /-- The attributes a correction corrects. -/
  corrects : List String := []
  /-- The kinds of actor that may take it, every kind where it names none. -/
  takenBy : List String := []

/-- A type of a flow. -/
structure FlowType where
  name : String
  attributes : List (String × Attribute) := []
  derived : List (String × Expr) := []
  states : List (String × State) := []
  conditions : List (String × Condition) := []
  invariants : List (String × Expr) := []
  transitions : List (String × Transition) := []
  /-- Each collection of observations and the kind it holds. -/
  observations : List (String × String) := []
  /-- For an observation kind, the type of its subject. -/
  observationOn : Option String := none
  /-- The base it extends. -/
  base : Option String := none
  /-- Another system owns it, and only the import writes it. -/
  mirror : Bool := false
  /-- A base with no objects of its own. -/
  isAbstract : Bool := false
  /-- Dropped by a later version. -/
  retired : Bool := false
  /-- Each inherited attribute, and the base that declares it. -/
  inherited : Table String String := []

structure ValueType where
  name : String
  fields : List (String × Attribute) := []

/-- A library as installed, its types and enumerations by name. -/
structure Library where
  types : Table String FlowType
  enumerations : Table String (List String) := []
  values : Table String ValueType := []
  /-- The sequences its modules declare, which an import may raise. -/
  sequences : List String := []
  version : Int := 1
  /-- The attributes its publish renamed: a type, the old name and the new. -/
  renamedAttributes : List (String × String × String) := []
  /-- The types its publish moved objects into. -/
  movedInto : List String := []
  /-- The kinds of actor that may approve the next version, where it names
  them. -/
  publishing : Option (List String) := none

/-- The type a reference to any object names. -/
def ANY_TYPE : String := "*"

/-- An entry of a list of named things, by its name. -/
def named? {α : Type} (entries : List (String × α)) (name : String) : Option α :=
  Table.get? entries name

namespace Attribute

/-- Whether the object stores it as a set: of values, or of references with no
opposite end to compute it from. -/
def storedSet (a : Attribute) : Bool :=
  a.many && !(match a.declared with | .reference _ => a.opposite.isSome | _ => false)

/-- Whether it has no column: a set of references computed from the opposite
end. -/
def derivedEnd (a : Attribute) : Bool :=
  a.many && (match a.declared with | .reference _ => a.opposite.isSome | _ => false)

end Attribute

namespace FlowType

def attribute? (t : FlowType) (name : String) : Option Attribute := named? t.attributes name

def state? (t : FlowType) (name : String) : Option State := named? t.states name

def transition? (t : FlowType) (name : String) : Option Transition := named? t.transitions name

def condition? (t : FlowType) (name : String) : Option Condition := named? t.conditions name

/-- The attribute that holds an actor's identity, and the kind of actor. -/
def actorIdentity (t : FlowType) : Option (String × String) :=
  t.attributes.findSome? fun (n, a) => a.actorKind.map fun k => (n, k)

/-- Whether a state is closed or final. -/
def finished (t : FlowType) (state : String) : Bool :=
  match t.state? state with
  | some s => s.isFinal || s.category = "closed"
  | none => false

end FlowType

namespace Library

def type? (lib : Library) (name : String) : Option FlowType := Table.get? lib.types name

/-- A type's bases, nearest first, from the base given; a cycle or a type the
library does not hold ends them, and so does having named every type. -/
def basesFrom (lib : Library) : Nat → List String → Option String → List String
  | 0, _, _ => []
  | fuel + 1, seen, base =>
      match base with
      | none => []
      | some b =>
          match lib.type? b with
          | none => []
          | some t => if b ∈ seen then [] else b :: basesFrom lib fuel (b :: seen) t.base

/-- A type's bases, nearest first. -/
def bases (lib : Library) (name : String) : List String :=
  lib.basesFrom lib.types.length [name] ((lib.type? name).bind FlowType.base)

/-- Whether a type is the one wanted, or extends it. -/
def isA (lib : Library) (type want : String) : Bool :=
  type = want || (lib.bases type).contains want

/-- The type whose family a uniqueness of an attribute spans. -/
def uniqueScope (t : FlowType) (name : String) : String :=
  (Table.get? t.inherited name).getD t.name

/-- The members whose every value is timed: the state, each enumeration
attribute, and each singular reference the object stores. -/
def tracked (lib : Library) (t : FlowType) : List String :=
  "state" :: (t.attributes.filter fun (_, a) =>
    !a.many && match a.declared with
      | .scalar (.named s) => (Table.get? lib.enumerations s).isSome
      | .scalar _ => false
      | .reference target =>
          match a.opposite with
          | none => true
          | some o => ((lib.type? target).bind fun tt => tt.attribute? o).any (·.many)
      | .value _ => false).map Prod.fst

@[simp] theorem isA_self (lib : Library) (type : String) : lib.isA type type = true := by
  simp [isA]

end Library

end ObjectFlow
