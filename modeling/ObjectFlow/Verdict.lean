import ObjectFlow.Base.Program
import ObjectFlow.Eval
import ObjectFlow.Fit
import ObjectFlow.Sequence
import ObjectFlow.Spans

/-!
# Verdicts, stops and what a request has done so far

A request is decided over a working copy of the store and either stops, with a
refusal or a construct not run, or leaves everything it did in its context.
-/

namespace ObjectFlow

open Base

/-- Why an input is at fault. -/
inductive InputReason where
  | unknownInput | missing | wrongType | malformed | wrongCurrency | wrongMediaType
  | noSuchObject | outOfRange | notAllowed
deriving DecidableEq

/-- A flag a `warn` clause raised. -/
structure Flag where
  clause : String
  remedy : Option Remedy
  unknown : Bool
  objects : List String
deriving DecidableEq

/-- An invariant that fails on an object, which has no id where the request
was creating it. -/
structure InvariantFailure where
  objectId : Option String
  type : String
  invariant : String
deriving DecidableEq

/-- What a request answers. -/
inductive Verdict where
  | satisfied (objectId : String) (version : Int) (events : List Int) (created : List String)
      (flags : List Flag) (replayed : Bool)
  | stale (expected actual : Int)
  | unsatisfied (clause : String) (remedy : Option Remedy)
  | notFound
  | unavailable (state : String)
  | unknownTransition (transition : String)
  | unknownType (type : String) (remedy : Option Remedy)
  | invalidInput (inputs : List (String × InputReason))
  | notProposable
  | notRequestable (parents : List String)
  | invariantViolated (failures : List InvariantFailure)
  /-- A call or a creation an effect made was refused. -/
  | callRefused (step : String) (objectId : Option String) (verdict : Verdict)
      (clause : Option String)
  /-- A loop or a cascade would take more than its declared limit. -/
  | overLimit (loop : String) (bound : Int)

/-- The clause a refusal names, where it names one. -/
def Verdict.clause : Verdict → Option String
  | unsatisfied clause _ => some clause
  | invariantViolated failures => failures.head?.map (·.invariant)
  | callRefused _ _ _ clause => clause
  | _ => none

/-- What a refusal tells beyond its verdict. -/
structure Refusal where
  /-- Its clause was unknown rather than false. -/
  unknown : Bool := false
  /-- Everything the request had read when refused. -/
  reads : Reading := {}
  consulted : Table String (Table String Value) := []
  /-- The objects its remedy points at. -/
  objects : List String := []

/-- Why a request stops before it applies. -/
inductive Stop where
  | refused (v : Verdict) (r : Refusal)
  | notRun (e : NotRun)

/-- A refusal by a generated guard, naming the objects it states. -/
def Stop.guard (clause : String) (remedy : Remedy) (objects : List String) : Stop :=
  .refused (.unsatisfied clause (some remedy)) { objects }

/-- A value past its range refuses the request as the generated guard
`value_in_range`, naming the object. -/
def Stop.ofNotRun : NotRun → Stop
  | .outOfRange id => .guard "value_in_range" .unreachableFromHere (if id = "" then [] else [id])
  | e => .notRun e

/-- A clause qualified by the type it is of, unless it names one already. -/
def qualified (clause type : String) : String :=
  if clause.toList.contains '.' then clause else type ++ "." ++ clause

/-- A refused call or creation refuses the request, naming the step, the
object it targeted and its own refusal. -/
def callRefused (step type : String) (target : Option String) : Stop → Stop
  | .refused v r =>
      let clause := match v with
        | .callRefused _ _ _ clause => clause
        | other => other.clause.map fun c => qualified c type
      .refused (.callRefused step target v clause) r
  | other => other

/-- A refusal of a part a cascade drives, its clause qualified by its type. -/
def asPart (type : String) : Stop → Stop
  | .refused (.unsatisfied clause remedy) r => .refused (.unsatisfied (qualified clause type) remedy) r
  | other => other

/-- A row of the attempt log of a clause that failed and refused nothing. -/
structure Observed where
  type : String
  objectId : Option String
  transition : String
  clause : String
  remedy : Option Remedy
  unknown : Bool
  flagged : Bool
  appliedPosition : Int
  reads : Reading

/-- A `warn` or `audit` guard that failed. -/
structure Failed where
  clause : String
  flagged : Bool
  remedy : Option Remedy
  unknown : Bool
  reading : Reading

/-- The counters a request allocates from: the last position and object
number, the numbers of its sequences, and the id each object number gives,
which no other number gives. -/
structure Counters where
  position : Int
  object : Nat
  numbers : Allocator
  mintId : String → Nat → String
  distinct : ∀ type type' n n', mintId type n = mintId type' n' → n = n'

/-- An object's id where a store numbers them: its type and its number. -/
def numberedId (type : String) (n : Nat) : String := type.toLower ++ "-" ++ toString n

theorem numberedId_toList (type : String) (n : Nat) :
    (numberedId type n).toList = type.toLower.toList ++ '-' :: Nat.toDigits 10 n := by
  simp [numberedId]

/-- A numbered id gives its number back: what follows its last dash. -/
theorem numberedId_distinct (type type' : String) (n n' : Nat)
    (h : numberedId type n = numberedId type' n') : n = n' := by
  have hdigits : ∀ k, ∀ c ∈ (Nat.toDigits 10 k).reverse, (c ≠ '-') = true := by
    intro k c hc
    have hdigit := Nat.isDigit_of_mem_toDigits (by decide) (by decide) (List.mem_reverse.mp hc)
    have hne : c ≠ '-' := by
      rintro rfl
      exact absurd hdigit (by decide)
    simpa using hne
  have hlast : ∀ s k, ((numberedId s k).toList.reverse.takeWhile (· ≠ '-')) =
      (Nat.toDigits 10 k).reverse := by
    intro s k
    rw [numberedId_toList, List.reverse_append, List.reverse_cons, List.append_assoc,
      List.takeWhile_append_of_pos (by simpa using hdigits k)]
    simp
  have heq := hlast type n
  rw [h, hlast type' n'] at heq
  have hsame := congrArg (Nat.ofDigitChars 10 · 0) (List.reverse_injective heq)
  simpa using hsame.symm

/-- One request's working copy of the store, and what it has done so far. -/
structure Ctx where
  work : World
  /-- The store as the request found it. -/
  before : World
  alloc : Counters
  who : Who
  /-- The requested transition's type, whose own clauses go unqualified. -/
  requested : String
  occurred : Option Int := none
  /-- For an approved proposal, when it was filed. -/
  filedAt : Option Int := none
  /-- The occurred time every transition the request takes records. -/
  at' : Int
  answers : Table String String := []
  /-- For a check, which names each guard it did not evaluate. -/
  checking : Bool := false
  unevaluated : List String := []
  flags : List Flag := []
  observed : List Observed := []
  /-- The positions of the transitions taking place, the innermost first. -/
  causes : List Int := []
  /-- The transitions being taken, the innermost first. -/
  taking : List (String × String) := []
  /-- The spans a correction merged away: object, dimension, entry and the
  correcting event. -/
  merged : List (String × String × Int × Int × Int) := []
  /-- For each object, what its current transition wrote by an input or an
  effect, whatever the value. -/
  wrote : Table String (List String) := []
  /-- The write index's rows the request sets, in the order set. -/
  index : List (String × String × Int) := []
  asserted : Option String := none
  admits : List String := []
  /-- For each object erased, the personal attributes erased. -/
  erased : Table String (List String) := []
  /-- Each erased actor's identity, with its object's id. -/
  renamed : List (String × String) := []
  /-- Whether a group erasure is walking its group. -/
  inGroup : Bool := false
  redactedInputs : List (Int × String) := []
  /-- What a walk down clears on another object: the object, the attribute and
  the event that carried the erased value in. -/
  cleared : List (String × String × Int) := []
  redactedWrites : List (Int × String) := []
  redactedSpans : List (String × String × Int) := []
  effectRead : Reading := {}
  /-- The external identifiers it writes: source, value, object, attribute. -/
  external : List (String × String × String × String) := []
  /-- Those it no longer holds: source, value and object. -/
  externalRemoved : List (String × String × String) := []
  /-- Every event, in the order recorded. -/
  events : List Event := []
  created : List String := []
  read : Reading := {}
  /-- What the rules evaluated for each event read, by its position. -/
  readings : Table Int Reading := []
  /-- The objects a transition is being taken on, the innermost first, and
  whether an event was recorded on one of them by another transition: kept for
  what is proved of a run, and read by nothing it does. -/
  underway : List String := []
  reentered : Bool := false

abbrev Act (α : Type) := Program Ctx Stop α

namespace Act

/-- A refusal. -/
def refuse {α : Type} (v : Verdict) : Act α := Program.stop (.refused v {})

/-- A generated guard's refusal, naming an object. -/
def refuseNaming {α : Type} (clause : String) (remedy : Remedy) (id : String) : Act α :=
  Program.stop (.guard clause remedy [id])

def notRun {α : Type} (what : String) : Act α := Program.stop (.notRun (.unsupported what))

/-- The request as it stands. -/
def context : Act Ctx := Program.read fun ctx => ctx

end Act

/-- An evaluation's value, and what it notes. -/
def evaluated {α : Type} (x : Evaluated α) : Except Stop (α × List Note) :=
  match x.outcome with
  | .ok a => .ok (a, x.notes)
  | .error e => .error (Stop.ofNotRun e)

/-- The value of an evaluation whose notes are not kept. -/
def evaluatedOnly {α : Type} (x : Evaluated α) : Except Stop α := (evaluated x).map Prod.fst

/-- Objects by id, in the order they were made, those not held last. -/
def inIdOrder (w : World) (ids : List String) : List String :=
  let ids := addNames [] ids
  (w.inOrder.map Object.id).filter ids.contains ++
    (ids.filter fun id => (w.get id).isNone).insertionSort (· ≤ ·)

/-- The objects an evaluation names. -/
def namedIn (notes : List Note) : List String :=
  addNames [] <| notes.filterMap fun n => match n with
    | .named id => some id
    | _ => none

/-- What an evaluation of a rule reads. -/
def readingOf (notes : List Note) : Reading := Reading.ofNotes notes

/-- An identifier's or a key's text of a value. -/
def textOf : Value → String
  | .text s | .object s => s
  | .state _ name => name
  | .member _ m => m
  | v => v.written

end ObjectFlow
