import ObjectFlow.Erase

/-!
# Effects and cascades

An effect's steps in their order, and what a transition drives after them: the
parts its cascades name, and for an erasure the observations of its object and
the other members of its supersession group.  The transitions they take are
one deeper, and are given here as `TakeBelow`.
-/

namespace ObjectFlow

open Base

/-- How a transition one deeper is taken: its type, its name, the object it is
on and its inputs, answering its object's id. -/
abbrev TakeBelow := String → String → Option String → Table String Value → Act String

/-- The rule an effect's reads are recorded under in a refusal's read set. -/
def EFFECT : String := "effect"

/-- A value past what its attribute holds refuses the request, naming the
object. -/
def valueInRange {α : Type} (id : String) : Act α :=
  Act.refuseNaming "value_in_range" .unreachableFromHere id

/-- A value written to an attribute fitted to its declared type, or the request
refused. -/
def fitted (t : FlowType) (name : String) (v : Value) (id : String) : Except Stop Value :=
  match t.atDeclaredScale name v with
  | some v => .ok v
  | none => .error (.guard "value_in_range" .unreachableFromHere [id])

/-- Whether a write's right-hand side is an input not supplied, or the
principal of a request that names none. -/
def unsupplied (e : Expr) (inputs : Table String Value) (principal : Option String) : Bool :=
  match e with
  | .path b k =>
      (b.isName "inputs" && (Table.get? inputs k).isNone) ||
        (b.isName "actor" && k = "principal" && principal.isNone)
  | _ => false

/-- An expression as a step writes it, for naming a call. -/
def dotted : Expr → String
  | .name n => n
  | .path b m => dotted b ++ "." ++ m
  | _ => "…"

/-- How an effect's expression is evaluated: as a value, as a loop's filter, or
as a value written to a decimal of the scale given, whose quotient is divided
once at that scale. -/
inductive Evaluating where
  | plain | filtering | writtenAt (scale : Nat)

/-- The evaluator of what an effect's expression reads, over the working
copy. -/
def Ctx.effectEvaluator (ctx : Ctx) (t : FlowType) (id : String) (inputs : Table String Value) :
    Evaluator :=
  { ctx.evaluator t (some id) inputs with reading := some EFFECT }

/-- An evaluation of an effect, what it reads kept whether or not it ends in a
value. -/
def Act.evaluating {α : Type} (f : Ctx → Evaluated α) : Act (α × List Note) := do
  let ctx ← Act.context
  let x := f ctx
  Program.modify fun ctx => { ctx with effectRead := ctx.effectRead.merge (readingOf x.notes) }
  Program.check fun _ => evaluated x

/-- The place in creation order of an object, past every other where it is not
held. -/
def World.place (w : World) (id : String) : Nat := (Table.keys w.objects).idxOf id

/-- Where a loop takes an item: objects by place, then members of an
enumeration in its order; none for any other value. -/
def loopRank (w : World) : Value → Option (Nat × Nat)
  | .object id => some (0, w.place id)
  | .member e m => some (1, ((Table.get? w.lib.enumerations e).getD []).idxOf m)
  | _ => none

/-- Whether a loop takes one item no later than another: objects by ascending
id, enumeration members in declaration order, other values ascending. -/
def loopOrder (w : World) (a b : Value) : Bool :=
  match loopRank w a, loopRank w b with
  | none, none => (a.compare? b).getD .eq ≠ .gt
  | some (ka, pa), some (kb, pb) => ka < kb || (ka = kb && pa ≤ pb)
  | some _, none => true
  | none, some _ => false

/-- An object's attributes changed in place. -/
def Ctx.changeAttrs (ctx : Ctx) (id : String) (f : Table String Value → Table String Value) :
    Ctx :=
  { ctx with work := ctx.work.change id fun o => { o with attrs := f o.attrs } }

/-- Attributes noted as written by an object's transition. -/
def Ctx.noteWrote (ctx : Ctx) (id : String) (names : List String) : Ctx :=
  { ctx with
    wrote := Table.set ctx.wrote id (addNames ((Table.get? ctx.wrote id).getD []) names) }

/-- Whether a write would round a decimal to its target's scale, which only a
product or a quotient may. -/
def rounds (how : Evaluating) (v : Value) (e : Expr) : Bool :=
  match how, v with
  | .writtenAt scale, .decimal d =>
      !(match e with
        | .bin .mul _ _ | .bin .div _ _ => true
        | _ => false) &&
        !(d.rescale scale).any fun r => r.equal d
  | _, _ => false

/-- Whether an expression is a plain read, a name or a path. -/
def Expr.isPlainRead : Expr → Bool
  | .name _ | .path _ _ => true
  | _ => false

/-- Whether a value fitted to its attribute is past the digits it is declared
with, or an amount past what an input holds. -/
def pastDigits (declared : Option Declared) : Value → Bool
  | .decimal d => (declared.bind Declared.decimal?).any fun (p, _) =>
      10 ^ p - 1 < (d.units.natAbs : Int)
  | .money currency amount =>
      !(amount.rescale ((minorUnit currency).getD 2)).any fun held =>
        (held.units.natAbs : Int) ≤ MAX_UNITS
  | _ => false

section

variable (r : Readers) (t : FlowType) (id : String) (inputs : Table String Value)
  (position : Int) (below : TakeBelow)

/-- A value of an effect's expression; one left with none by an arithmetic
refuses the request. -/
def effectValue (env : Env) (e : Expr) (how : Evaluating) : Act Value := do
  let (v, notes) ← Act.evaluating fun ctx =>
    let ev : Evaluator := { ctx.effectEvaluator t id inputs with
      answers := some ctx.answers
      event := some position }
    match how, e with
    | .filtering, e => { ev with filterMode := true }.evalIn r.metrics e env
    | .writtenAt scale, .bin .div a b =>
        quotientAt a b (Evaluator.meaning r.metrics a) (Evaluator.meaning r.metrics b) scale ev env
    | _, e => ev.evalIn r.metrics e env
  match how with
  | .filtering => return v
  | _ => if v.isAbsent && notes.any Note.isFailedArithmetic then valueInRange id else return v

/-- How a value written to an attribute is evaluated. -/
def evaluatingFor (spec : Option Attribute) : Evaluating :=
  match spec.bind (·.declared.decimal?) with
  | some (_, scale) => .writtenAt scale
  | none => .plain

/-- `set location := expr`. -/
def assign (env : Env) (location : String) (e : Expr) : Act Unit := do
  let ctx ← Act.context
  if unsupplied e inputs ctx.who.principal then return ()
  else do
    let spec := t.attribute? location
    let how := evaluatingFor spec
    let v ← effectValue r t id inputs position env e how
    if rounds how v e then valueInRange id
    else if v.isAbsent && e.isPlainRead && spec.any (·.optional) then
      Program.modify fun ctx =>
        (ctx.changeAttrs id fun attrs => Table.erase attrs location).noteWrote id [location]
    else if v.isAbsent then valueInRange id
    else do
      let v ← Program.check fun _ => fitted t location v id
      if pastDigits (spec.map (·.declared)) v then valueInRange id
      else Program.modify fun ctx =>
        (ctx.changeAttrs id fun attrs => Table.set attrs location v).noteWrote id [location]

/-- `clear a, b`. -/
def clear (names : List String) : Act Unit :=
  Program.modify fun ctx =>
    (ctx.changeAttrs id fun attrs => names.foldl Table.erase attrs).noteWrote id names

/-- A set with an element added, or removed. -/
def setWith (adding : Bool) (v : Value) (held : Value) : Value :=
  let items := match held with
    | .set items => items
    | _ => []
  let present := items.any fun i => i.equals v
  .set (if adding then (if present then items else items ++ [v])
    else items.filter fun i => !i.equals v)

/-- `add location expr` and `remove location expr`. -/
def addOrRemove (env : Env) (adding : Bool) (location : String) (e : Expr) : Act Unit := do
  let ctx ← Act.context
  if unsupplied e inputs ctx.who.principal then return ()
  else do
    let v ← effectValue r t id inputs position env e .plain
    let held := match t.attribute? location with
      | none => some v
      | some a => (fitValue a.declared false v).filter fun v =>
          !adding || mediaTaken a.mediaTypes v
    match held.filter fun v => !v.isAbsent with
    | none => valueInRange id
    | some v =>
        Program.modify fun ctx =>
          (ctx.changeAttrs id fun attrs => Table.set attrs location
            (setWith adding v ((Table.get? attrs location).getD .absent))).noteWrote id [location]

/-- A call's or a creation's inputs; an input not supplied, or an absent value,
is not passed. -/
def arguments (env : Env) : List (String × Expr) → Act (Table String Value)
  | [] => return []
  | (k, e) :: rest => do
      let ctx ← Act.context
      if unsupplied e inputs ctx.who.principal then arguments env rest
      else do
        let v ← effectValue r t id inputs position env e .plain
        let others ← arguments env rest
        -- of two of one name the later is passed
        return if v.isAbsent || (Table.get? others k).isSome then others else Table.set others k v

/-- `create type.transition`. -/
def create (env : Env) (type transition : String) (binds : List (String × Expr))
    (result : Option String) : Act Env := do
  let values ← arguments r t id inputs position env binds
  let made ← (below type transition none values).mapStop
    (callRefused ("create " ++ type ++ "." ++ transition) type none)
  return match result with
    | some name => Table.set env name (.object made)
    | none => env

/-- `call target.transition`: a target that is absent reaches nothing. -/
def call (env : Env) (target : Expr) (transition : String) (binds : List (String × Expr)) :
    Act Unit := do
  let v ← effectValue r t id inputs position env target .plain
  let ctx ← Act.context
  match v with
  | .absent => return ()
  | .object tid =>
      match ctx.work.get tid with
      | none => Act.notRun "a call whose target is not one object"
      | some o => do
          let values ← arguments r t id inputs position env binds
          let _ ← (below o.type transition (some tid) values).mapStop
            (callRefused ("call " ++ dotted target ++ "." ++ transition) o.type (some tid))
          return ()
  | _ => Act.notRun "a call whose target is not one object"

/-- The items a loop is given: the numbers up to its range, or the elements of
its array. -/
def itemsGiven (env : Env) (array range : Option Expr) : Act (List Value) :=
  match range, array with
  | some n, _ => do
      match ← effectValue r t id inputs position env n .plain with
      | .int n => return (List.range n.toNat).map fun i => Value.int (i + 1)
      -- absent or not positive: no step
      | _ => return []
  | none, some a => do
      match ← effectValue r t id inputs position env a .plain with
      | .set items => return items
      | _ => Act.notRun "a loop over what is not a collection"
  | none, none => return []

/-- A loop's items, in the order it takes them. -/
def loopItems (env : Env) (array range : Option Expr) : Act (List Value) := do
  let items ← itemsGiven r t id inputs position env array range
  let ctx ← Act.context
  return items.insertionSort fun a b => loopOrder ctx.work a b

/-- The items of a loop its filter keeps. -/
def keptItems (env : Env) (item : String) (f : Expr) : List Value → Act (List Value)
  | [] => return []
  | i :: rest => do
      let v ← effectValue r t id inputs position (Table.set env item i) f .filtering
      let keep ← Program.check fun _ => evaluatedOnly (truth v)
      let others ← keptItems env item f rest
      return if keep = some true then i :: others else others

/-- A loop's items, those its filter keeps where it has one. -/
def filteredItems (env : Env) (item : String) (filter : Option Expr) (items : List Value) :
    Act (List Value) :=
  match filter with
  | some f => keptItems r t id inputs position env item f items
  | none => return items

/-- A loop's items, those its filter keeps and no more than its limit. -/
def looped (env : Env) (item : String) (array range filter : Option Expr) (limit : Int) :
    Act (List Value) := do
  let items ← loopItems r t id inputs position env array range
  let items ← filteredItems r t id inputs position env item filter items
  if limit < items.length then
    Act.refuse (.overLimit ("the loop over " ++ ((array.orElse fun _ => range).map dotted).getD "")
      limit)
  else return items

/-- `supersede by expr`. -/
def supersede (env : Env) (e : Expr) : Act Unit := do
  match ← effectValue r t id inputs position env e .plain with
  | .object successor =>
      Program.modify fun ctx =>
        { ctx with work := ctx.work.change id fun o => { o with supersededBy := some successor } }
  | _ => Act.notRun "a supersession naming no successor"

mutual

/-- One step of an effect, with the names bound after it. -/
def Step.run (env : Env) : Step → Act Env
  | .assign location e => do
      assign r t id inputs position env location e
      return env
  | .clear names => do
      ObjectFlow.clear id names
      return env
  | .add location e => do
      addOrRemove r t id inputs position env true location e
      return env
  | .remove location e => do
      addOrRemove r t id inputs position env false location e
      return env
  | .create type transition binds result =>
      ObjectFlow.create r t id inputs position below env type transition binds result
  | .call target transition binds => do
      ObjectFlow.call r t id inputs position below env target transition binds
      return env
  | .foreach item array range filter limit steps => do
      let items ← looped r t id inputs position env item array range filter limit
      items.forM fun i => runSteps (Table.set env item i) steps
      return env
  | .supersede e => do
      ObjectFlow.supersede r t id inputs position env e
      return env

/-- An effect's steps, in order. -/
def runSteps (env : Env) : List Step → Act Unit
  | [] => return ()
  | s :: rest => do
      let env ← s.run env
      runSteps env rest

end

/-! ### Cascades -/

/-- The parts a composite end names that are not in a final state, in creation
order. -/
def driven (w : World) (parts : Value) : List Object :=
  let ids := match parts with
    | .set items => items.filterMap fun i => match i with
        | Value.object p => some p
        | _ => none
    | .object p => [p]
    | _ => []
  let held := (ids.filterMap w.get).filter fun p => !w.isFinal p
  held.insertionSort fun a b => w.place a.id ≤ w.place b.id

/-- What a cascade passes to a part. -/
def passedDown : List (String × Expr) → Act (Table String Value)
  | [] => return []
  | (k, e) :: rest => do
      let (v, _) ← Act.evaluating fun ctx =>
        (ctx.effectEvaluator t id inputs).eval r.metrics e
      let others ← passedDown rest
      return if v.isAbsent || (Table.get? others k).isSome then others else Table.set others k v

/-- The parts one clause of a composite end drives. -/
def cascade (an : String) (clause : CascadeClause) : Act Unit := do
  let (parts, _) ← Act.evaluating fun ctx =>
    (ctx.effectEvaluator t id inputs).eval r.metrics (.name an)
  let ctx ← Act.context
  let parts := driven ctx.work parts
  match clause.limit.filter fun limit => !parts.isEmpty && limit < (parts.length : Int) with
  | some limit => Act.refuse (.overLimit ("the cascade on " ++ an) limit)
  | none => parts.forM fun p => do
    let values ← passedDown r t id inputs clause.inputs
    let _ ← (below p.type clause.transition (some p.id) values).mapStop (asPart p.type)
    return ()

/-- The parts each composite end drives on a transition. -/
def cascades (xn : String) : Act Unit :=
  t.attributes.forM fun (an, a) =>
    if a.composite then
      (a.cascade.filter fun clause => clause.on.contains xn).forM fun clause =>
        cascade r t id inputs below an clause
    else return ()

end

/-! ### What an erasure reaches -/

section

variable (t : FlowType) (id : String) (inputs : Table String Value) (below : TakeBelow)

/-- The objects of a kind whose subject is the object given. -/
def World.observing (w : World) (kind id : String) : List Object :=
  (w.ofTypeWhere kind none [("subject", .object id)]).filter fun o =>
    (o.attr "subject").same (.object id)

/-- A label's note gone, with a `redact` event of its own. -/
def redactNote (l : String) : Act Unit := do
  let ctx ← Act.context
  match ctx.work.get l with
  | none => return ()
  | some held => do
      let label := { held with attrs := Table.erase held.attrs "note" }
      let position ← Act.position
      Program.modify fun ctx =>
        (ctx.recordApart label held.attrs (ctx.redactEvent ["note"] position)).noteErased l ["note"]

/-- Each observation of a kind that can be forgotten, forgotten. -/
def forgetKind (kind : String) : Act Unit := do
  let ctx ← Act.context
  if ((ctx.work.lib.type? kind).bind (·.transition? "forget")).isNone then return ()
  else
    let reason := (Table.get? inputs "reason").getD (.text "erasure")
    (ctx.work.observing kind id).forM fun x => do
      let _ ← below kind "forget" (some x.id) [("reason", reason)]
      return ()

/-- Each observation of the subject forgotten, and its labels' notes gone. -/
def forgetObservations : Act Unit := do
  t.observations.forM fun (_, kind) => forgetKind id inputs below kind
  let ctx ← Act.context
  ((ctx.work.observing LABEL id).filter fun l => !(l.attr "note").isAbsent).forM fun l =>
    redactNote l.id

/-- The members of a supersession chain, from those left to follow. -/
def supersessionChain (w : World) : Nat → List String → List String → List String
  | 0, _, chain => chain
  | _, [], chain => chain
  | fuel + 1, current :: rest, chain =>
      if chain.contains current then supersessionChain w fuel rest chain
      else
        let next := ((w.get current).bind (·.supersededBy)).toList
        let predecessors := w.lib.types.flatMap fun (tn, t) =>
          if t.states.any fun (_, s) => s.superseding then
            (w.supersededInto tn current).map Object.id
          else []
        supersessionChain w fuel (next ++ predecessors ++ rest) (current :: chain)

/-- The other members of an object's supersession group, in creation order. -/
def groupOf (w : World) (id : String) : List Object :=
  let most := w.objects.length + 1
  let chain := supersessionChain w (2 * most * most) [id] []
  w.inOrder.filter fun o => chain.contains o.id && o.id ≠ id

/-- A member of a group erased by its own type's erasure, where it declares one
and the request has not erased it. -/
def eraseMember (o : Object) : Act Unit := do
  let ctx ← Act.context
  if (Table.get? ctx.erased o.id).isSome && (ctx.work.get o.id).any (·.erased) then return ()
  else
    let erasure := ((ctx.work.lib.type? o.type).map (·.transitions)).getD [] |>.find?
      fun (_, x) => x.kind = .erasure
    match erasure with
    | none => return ()
    | some (xn, x) => do
        let given := inputs.filter fun (k, _) => x.inputs.any fun (n, _) => n = k
        let _ ← (below o.type xn (some o.id) given).mapStop
          (callRefused "group erasure" o.type (some o.id))
        return ()

/-- Every other member of the object's supersession group erased, by the
erasure that began it. -/
def eraseChain : Act Unit := do
  let ctx ← Act.context
  if ctx.inGroup then return ()
  else do
    Program.modify fun ctx => { ctx with inGroup := true }
    (groupOf ctx.work id).forM fun o => eraseMember inputs below o
    Program.modify fun ctx => { ctx with inGroup := false }

end

end ObjectFlow
