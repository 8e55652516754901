import ObjectFlow.Scope

/-!
# The evaluator

The meaning of each construct of the expression language from those of its
parts, and last the tree's recursion over them.  A derived attribute is
evaluated by a fresh evaluation one hop further in; an evaluation is inside at
most `DERIVED_HOPS` of them.  A derived value met again is computed again: a
value remembered within one evaluation is the one it would have again.
-/

namespace ObjectFlow

open Base

/-! ### Literals -/

def numberTerm (n : Number) (ev : Evaluator) : Evaluated Term :=
  match n with
  | .int n => pure (.value (.int n))
  | .decimal t =>
      -- an integer past 64 bits has no value
      if !t.toList.contains '.' then ev.outOfRange
      else match Decimal.parse t with
        | some d => pure (.value (.decimal d))
        | none => notRun ("the number " ++ t)

def durationTerm (n : Number) (unit : String) (ev : Evaluator) : Evaluated Term :=
  match unitSeconds unit with
  | none => notRun ("the unit " ++ unit)
  | some size =>
      match n with
      | .int n =>
          match fits64 (n * size) with
          | some s => pure (.value (.duration s))
          | none => ev.outOfRange
      | .decimal t =>
          -- a fraction of a second is not run
          let seconds := do
            let d ← (← Decimal.parse t).checkedMul (← Decimal.fromInt size)
            (d.rescale 0).filter fun (w : Decimal) => w.equal d
          match seconds with
          | some s =>
              match s.toInt with
              | some s => pure (.value (.duration s))
              | none => ev.outOfRange
          | none => notRun ("the duration " ++ t ++ " " ++ unit ++
              ", which is no whole number of seconds")

def moneyTerm (currency amount : String) : Evaluated Term :=
  let amount := do
    let places ← minorUnit currency
    let d ← Decimal.parse amount
    (d.rescale places).filter fun (r : Decimal) => r.equal d
  match amount with
  | some amount => pure (.value (.money currency amount))
  | none => notRun ("an amount in " ++ currency)

/-! ### Names and members -/

namespace Evaluator

variable (ev : Evaluator)

/-- An end the other side stores: the objects of the target type whose
opposite end names this one. -/
def oppositeEnd (w : World) (o : Object) (target opposite : String) (many : Bool) : Value :=
  let named := Value.object o.id
  let found := ((w.ofTypeWhere target none [(opposite, named)]).filter fun x =>
    (Table.get? x.attrs opposite).any fun v => v.same named).map fun x => Value.object x.id
  if many then .set found else found.head?.getD .absent

/-- A subject's collection of a kind: its observations nothing has corrected. -/
def collection (w : World) (o : Object) (kind : String) : Value :=
  let subject := Value.object o.id
  let ofKind := w.ofTypeWhere kind none [("subject", subject)]
  let corrected := ofKind.map fun x => x.attr "corrects"
  .set <| (ofKind.filter fun x => (x.attr "subject").same subject &&
    !corrected.any fun c => c.same (.object x.id)).map fun x => .object x.id

/-- Whether an end of a type may hold a reference to an object of type `mine`
that is no part's. -/
def mayRefer (lib : Library) (mine : String) (spec : Attribute) : Bool :=
  match spec.declared with
  | .reference target =>
      !spec.derivedEnd && (target = ANY_TYPE || lib.isA mine target) &&
        !((spec.opposite.bind fun back => (lib.type? target).bind fun tt =>
          tt.attribute? back).any (·.composite))
  | _ => false

/-- The objects of a type that hold a reference at an end to the one given. -/
def holders (w : World) (type end' : String) (spec : Attribute) (target : Value) : List Object :=
  if spec.many then
    (w.ofType type).filter fun x => match Table.get? x.attrs end' with
      | some (.set items) => items.any fun i => i.same target
      | _ => false
  else w.withKey type [(end', target)]

/-- Every object holding a reference to this one, in the order objects were
made, its parts excepted. -/
def referrers : Value :=
  match ev.this.bind ev.world.get with
  | none => .set []
  | some mine =>
      let found := ev.world.lib.types.flatMap fun (xn, xt) =>
        xt.attributes.flatMap fun (a, spec) =>
          if mayRefer ev.world.lib mine.type spec then
            ((holders ev.world xn a spec (.object mine.id)).filter fun x =>
              x.type = xn && x.id ≠ mine.id).map Object.id
          else []
      .set ((ev.world.inOrder.filter fun x => found.contains x.id).map fun x => .object x.id)

/-- A member every object has, or one it answers where its type declares none
of the name; none where `m` is not such a member. -/
def builtin? (o : Object) (t : FlowType) (m : String) : Option (Evaluated Term) :=
  if m = "state" || OBJECT_MEMBERS.contains m ||
      (YIELDING_MEMBERS.contains m && !t.declaresMember m) then
    match m with
    | "id" => some (pure (.value (.text o.id)))
    | "type" => some (pure (.typeRef o.type))
    | "state" => some (pure (.value (.state o.type o.state)))
    | "created_at" => some (pure (.value (.timestamp o.createdAt)))
    | "recorded_from" => some (pure (.value (.timestamp o.recordedFrom)))
    | "created_by_kind" | "recorded_by_kind" => some (pure (.value (.text o.createdByKind)))
    | "declaration_version" => some (pure (.value (.int (ev.world.versionOf o.id))))
    | "open" => some (pure (.value (.bool (!t.finished o.state))))
    | "actor_id" => some <| pure <| .value <| match t.actorIdentity with
        | some (attr, _) => o.attr attr
        | none => .absent
    | "intervals" => some <| match intervalRows ev.world o t "state" with
        | some rows => pure (.value (.set rows))
        | none => notRun ("the intervals of " ++ o.type ++ ".state, which is not tracked")
    | "transitions" => some <| pure <| .value <| .set <|
        (ev.world.eventsOf o.id).map fun e => transitionRow ev.world o t e
    | "attempts" => some <| pure <| .value <| .set <|
        (Table.get? ev.world.attempts o.id).getD []
    | "labels" => some (notRun ("an object's " ++ "`labels`, its flow data"))
    | _ => none
  else none

/-- A member of an object. -/
def memberOf (m : MetricReader) (below : Evaluator → Expr → Evaluated Value) (id name : String) :
    Evaluated Term := do
  ev.noteRead id
  match ev.world.get id with
  | none => notRun ("a member `" ++ name ++ "` of an object the store does not hold")
  | some o =>
      match ev.world.lib.type? o.type with
      | none => notRun ("the type " ++ o.type)
      | some t =>
          match ev.builtin? o t name with
          | some answer => answer
          | none =>
              match t.attribute? name, named? t.observations name, t.derived? name with
              | some a, _, _ =>
                  match Table.get? o.attrs name, a.declared, a.opposite with
                  | some v, _, _ => pure (.value v)
                  | none, .reference target, some opposite =>
                      pure (.value (oppositeEnd ev.world o target opposite a.many))
                  | none, _, _ => pure (.value .absent)
              | none, some kind, _ => pure (.value (collection ev.world o kind))
              | none, none, some e => do
                  let v ← (below (ev.forDerived t o.id) e).keeping fun n =>
                    !n.isUnanswered && !n.isFailedArithmetic
                  return .value (m.typedDerived ev.world t e v)
              | none, none, none =>
                  notRun ("the member `" ++ o.type ++ "." ++ name ++ "`")

/-- A member of a row of an object's flow data. -/
def rowMember (fields : List (String × Value)) (name : String) : Evaluated Term :=
  match Table.get? fields name with
  | some v => pure (.value v)
  | none =>
      if name = "corrected_by" then pure (.value .absent)
      else notRun ("the member `" ++ name ++ "` of a row of an object's flow data")

/-- A member of what a path reaches. -/
def member (m : MetricReader) (below : Evaluator → Expr → Evaluated Value) (base : Term)
    (name : String) : Evaluated Term :=
  match base with
  | .value .absent => pure (.value .absent)
  | .inputs => pure (.value ((Table.get? ev.inputs name).getD .absent))
  | .actor => pure <| .value <| match ev.actor with
      | none => .absent
      | some a =>
          if name = "id" then .text a.id
          else if name = "kind" then .text a.kind
          else if name = "principal" then (a.principal.map Value.text).getD .absent
          else .absent
  | .typeRef type =>
      if ((Table.get? ev.world.lib.enumerations type).getD []).contains name then
        pure (.value (.member type name))
      else if ((ev.world.lib.type? type).bind (·.state? name)).isSome then
        pure (.value (.state type name))
      else notRun ("`" ++ type ++ "." ++ name ++ "`")
  | .value (.row fields) => rowMember fields name
  | .value (.record valueType fields) =>
      match Table.get? fields name with
      | some v => pure (.value v)
      | none => notRun ("the field `" ++ name ++ "` of a " ++ valueType)
  | .value (.object id) => ev.memberOf m below id name
  | .value (.state type state) =>
      if name = "category" then
        pure (.category (((ev.world.lib.type? type).bind (·.state? state)).map (·.category)
          |>.getD ""))
      else notRun ("a member `" ++ name ++ "` of a state")
  | .value (.file _ size mediaType) =>
      if name = "media_type" then pure (.value (.text mediaType))
      else if name = "size" then pure (.value (.int size))
      else notRun ("a member `" ++ name ++ "` of a file")
  | other => notRun ("a member `" ++ name ++ "` of " ++ other.kind)

/-- What a bare name reads that no name bound is. -/
def freeName (m : MetricReader) (below : Evaluator → Expr → Evaluated Value) (n : String) :
    Evaluated Term :=
  match n with
  | "now" => pure (.value (.timestamp ev.world.now))
  | "this" => pure (.value ((ev.this.map Value.object).getD .absent))
  | "inputs" => pure .inputs
  | "actor" => pure .actor
  | "referrers" => pure (.value ev.referrers)
  | "this_event" =>
      match ev.event with
      | some p => pure (.value (.int p))
      | none => notRun "`this_event` outside an effect"
  | n =>
      let afterType : Evaluated Term :=
        if ACTOR_KINDS.contains n then pure (.value (.text n)) else pure (.typeRef n)
      match ev.type with
      | some t =>
          if t.hasMember n then
            match ev.this with
            | some id => ev.memberOf m below id n
            | none =>
                -- a creation's object has no earlier value: a member it takes
                -- as an input reads the value supplied
                if ev.creating.any (·.contains n) then
                  pure (.value ((Table.get? ev.inputs n).getD .absent))
                else pure (.value .absent)
          else if (t.state? n).isSome then pure (.value (.state t.name n))
          else if t.hasCategory n then pure (.category n)
          else afterType
      | none => if n = "closed" then pure (.category n) else afterType

/-- A bare name. -/
def name (m : MetricReader) (below : Evaluator → Expr → Evaluated Value) (n : String) (env : Env) :
    Evaluated Term :=
  match Table.get? env n with
  | some v => pure (.value v)
  | none => ev.freeName m below n

/-- A bare name, its object noted where it is named; a name an aggregate binds
is no reference. -/
def nameTerm (m : MetricReader) (below : Evaluator → Expr → Evaluated Value) (n : String)
    (env : Env) : Evaluated Term := do
  let t ← ev.name m below n env
  if (Table.get? env n).isNone then ev.nameObject t
  return t

/-- Whether a path reads a member of a creation's object as its bare name
does. -/
def readsCreated (base : Expr) (member : String) (env : Env) : Bool :=
  ev.this.isNone && ev.creating.any (·.contains member) &&
    match base with
    | .name b => b = "this" && (Table.get? env "this").isNone
    | _ => false

end Evaluator

def pathTerm (m : MetricReader) (below : Evaluator → Expr → Evaluated Value) (base : Expr)
    (baseMeaning : Meaning) (member : String) : Meaning := fun ev env => do
  let t ←
    if ev.readsCreated base member env then ev.name m below member env
    else do
      let b ← baseMeaning ev env
      ev.member m below b member
  ev.nameObject t
  return t

/-! ### Sets, conditions and operators -/

/-- The elements of a set literal, each once, and whether one is unknown. -/
def setItems (ev : Evaluator) (env : Env) :
    List Meaning → List Value → Bool → Evaluated (List Value × Bool)
  | [], out, unknown => pure (out, unknown)
  | item :: rest, out, unknown => do
      let v ← item.value ev env
      if v.isAbsent then setItems ev env rest out true
      else if out.any (·.equals v) then setItems ev env rest out unknown
      else setItems ev env rest (out ++ [v]) unknown

def setTerm (items : List Meaning) : Meaning := fun ev env => do
  let (out, unknown) ← setItems ev env items [] false
  return .value (if unknown then .absent else .set out)

def notTerm (inner : Meaning) : Meaning := fun ev env => do
  return .value (ofTruth ((← inner.truth ev env).map (!·)))

def negTerm (inner : Meaning) : Meaning := fun ev env => do
  let v ← inner.value ev env
  match negated v with
  | .error what => notRun what
  | .ok (some n) => return .value n
  | .ok none => ev.outOfRange

def isNullTerm (inner : Meaning) (negated : Bool) : Meaning := fun ev env => do
  return .value (.bool ((← inner.value ev env).isAbsent != negated))

/-- Whether a value is one of a literal's elements, which stop at the first
that equals it. -/
def amongItems (ev : Evaluator) (env : Env) (l : Value) :
    List Meaning → Bool → Evaluated (Option Bool)
  | [], unknown => pure (if unknown then none else some false)
  | item :: rest, unknown => do
      let v ← item.value ev env
      if v.isAbsent then amongItems ev env l rest true
      else if v.equals l then pure (some true)
      else amongItems ev env l rest unknown

def membership (left : Meaning) (right : Expr) (items : Option (List Meaning))
    (rightMeaning : Meaning) : Meaning := fun ev env => do
  let l ← left.value ev env
  if l.isAbsent then return .value .absent
  else
    match right, items with
    | .name n, _ =>
        if (Table.get? env n).isNone && (Table.get? ev.world.lib.enumerations n).isSome then
          return .value (.bool (match l with
            | .member enumeration _ => enumeration = n
            | _ => false))
        else inValue ev env l
    | _, some items => return .value (ofTruth (← amongItems ev env l items false))
    | _, none => inValue ev env l
where
  inValue (ev : Evaluator) (env : Env) (l : Value) : Evaluated Term := do
    match ← rightMeaning.value ev env with
    | .absent => return .value .absent
    | .set items => return .value (.bool (items.any (·.equals l)))
    | other => notRun ("membership in " ++ other.kind)

/-- `and`, `or` and `implies`: a side that decides alone leaves the other
evaluated for the record. -/
def logic (op : BinOp) (l r : Meaning) : Meaning := fun ev env => do
  let deciding := decide (op ≠ .and)
  let a := (← l.truth ev env).map fun b => if op = .implies then !b else b
  if a = some deciding then do
    r.aside ev env
    return .value (.bool deciding)
  else do
    let b ← r.truth ev env
    return .value <| ofTruth <|
      if b = some deciding then b
      else match a, b with
        | some a, some _ => some a
        | _, _ => none

/-- A decimal literal widened to the scale of a decimal with more places. -/
def widened (v other : Value) : Value :=
  match v, other with
  | .decimal d, .decimal o =>
      if d.scale < o.scale then ((d.rescale o.scale).map .decimal).getD v else v
  | _, _ => v

def Expr.isDecimalLiteral : Expr → Bool
  | .num (.decimal _) => true
  | _ => false

/-- An operator's two operands, a decimal literal widened to the scale of the
other. -/
def operands (l r : Expr) (lm rm : Meaning) (ev : Evaluator) (env : Env) :
    Evaluated (Value × Value) := do
  let a ← lm.value ev env
  let b ← rm.value ev env
  return match l.isDecimalLiteral, r.isDecimalLiteral with
    | true, false => (widened a b, b)
    | false, true => (a, widened b a)
    | _, _ => (a, b)

def binaryTerm (op : BinOp) (l r : Expr) (lm rm : Meaning) : Meaning := fun ev env =>
  if op = .and ∨ op = .or ∨ op = .implies then logic op lm rm ev env
  else do
    let (a, b) ← operands l r lm rm ev env
    return .value (← ev.combined op a b)

/-- A quotient written to a decimal of `scale` places, rounded once there; any
other quotient as `/` gives it. -/
def quotientAt (l r : Expr) (lm rm : Meaning) (scale : Nat) (ev : Evaluator) (env : Env) :
    Evaluated Value := do
  let (a, b) ← operands l r lm rm ev env
  match a, b.number with
  | .decimal p, some q =>
      if q.isZero then ev.combined .div a b
      else match p.checkedDiv q scale with
        | some d => return .decimal d
        | none => ev.outOfRange
  | _, _ => ev.combined .div a b

def ifTerm (c a b : Meaning) : Meaning := fun ev env => do
  match ← c.truth ev env with
  | none => return .value .absent
  | some true => a ev env
  | some false => b ev env

/-- Whether any of the attributes named was written after an event. -/
def changedTerm (names : List String) (event : Meaning) : Meaning := fun ev env => do
  let since ← event.value ev env
  match ev.this.bind ev.world.get, since with
  | none, _ | some _, .absent => return .value .absent
  | some o, .int p =>
      return .value (.bool (names.any fun n => (Table.get? o.writes n).any (p < ·)))
  | some _, other => notRun ("changed_since an event that is " ++ other.kind)

/-! ### Aggregates -/

/-- The states a scan's filter requires of the object it binds to the variable
given, through an `and`; none where it requires none this can tell. -/
def requiredStates (ev : Evaluator) (var : String) (env : Env) : Expr → Option (List String)
  | .bin .and l r =>
      match requiredStates ev var env l, requiredStates ev var env r with
      | some a, some b => some (a.filter b.contains)
      | some a, none => some a
      | none, b => b
  | .bin .eq l r => ((named l r).or (named r l)).map ([·])
  | _ => none
where
  named (side other : Expr) : Option String :=
    match side with
    | .path (.name v) "state" =>
        if v ≠ var then none
        else match other with
          | .name s => if ev.readsState env s then some s else none
          | .path (.name x) s =>
              if ev.readsType env x && ((ev.world.lib.type? x).bind (·.state? s)).isSome
              then some s else none
          | _ => none
    | _ => none

mutual

/-- Whether an expression reads neither a name nor a call, an aggregate or a
metric. -/
def Expr.plain (var : String) : Expr → Bool
  | .name n => n ≠ var
  | .call .. | .agg .. | .metric .. => false
  | .path b _ => b.plain var
  | .changed _ e | .not e | .neg e | .isNull e _ => e.plain var
  | .set items => plainList var items
  | .in' l r | .bin _ l r => l.plain var && r.plain var
  | .if' c a b => c.plain var && a.plain var && b.plain var
  | _ => true

def plainList (var : String) : List Expr → Bool
  | [] => true
  | e :: rest => e.plain var && plainList var rest

end

/-- A side of an equation a filter requires, the other side and its meaning. -/
structure EqSide where
  side : Expr
  other : Expr
  meaning : Meaning

/-- The stored attribute of the scanned type a side names, where it names
one. -/
def EqSide.column? (t : FlowType) (var : String) (s : EqSide) : Option String :=
  match s.side with
  | .path (.name v) a =>
      if v = var && a ≠ "state" && (t.attribute? a).any (!·.many) && s.other.plain var then some a
      else none
  | _ => none

/-- Whether an index can narrow a scan to a value. -/
def Value.narrows : Value → Bool
  | .absent | .set _ | .row _ => false
  | _ => true

/-- The values a filter's equations require of stored attributes, each
evaluated as the filter would and not read. -/
def narrowingColumns (ev : Evaluator) (t : FlowType) (var : String) (env : Env) :
    List EqSide → Evaluated (List (String × Value))
  | [] => pure []
  | s :: rest =>
      match s.column? t var with
      | none => narrowingColumns ev t var env rest
      | some a => do
          let v ← (s.meaning.value ev.examining env).attempt
          let later ← narrowingColumns ev t var env rest
          return match v with
            | .ok v => if v.narrows then (a, v) :: later else later
            | .error _ => later

/-- What a scan is narrowed to: the states required, and the values of stored
attributes. -/
abbrev Narrowing := Option (List String) × List (String × Value)

/-- What a scan of a type's filter narrows it to; none where it narrows
nothing. -/
def narrowing (ev : Evaluator) (scanned var : String) (filter : Expr) (sides : List EqSide)
    (env : Env) : Evaluated (Option Narrowing) :=
  match ev.world.lib.type? scanned with
  | none => pure none
  | some t => do
      let states := requiredStates ev var env filter
      let columns ← narrowingColumns ev t var env sides
      return if states.isSome || !columns.isEmpty then some (states, columns) else none

/-- The objects a scan of a type reads, narrowed or all of them. -/
def scanObjects (w : World) (type : String) : Option Narrowing → List Object
  | some (states, columns) => w.ofTypeWhere type states columns
  | none => w.ofType type

/-- Each object a scan ranges over, `this` left out where it ranges over the
others. -/
def Evaluator.scanItems (ev : Evaluator) (objects : List Object) : List Value :=
  (objects.filter fun o => !ev.others || ev.this ≠ some o.id).map fun o => .object o.id

/-- An aggregate as written: its kind, its variable, and its parts with their
meanings. -/
structure Aggregate where
  kind : AggKind
  distinct : Bool
  var : String
  filter : Option Meaning
  body : Option Meaning

/-- The objects among values, by id. -/
def objectIds (items : List Value) : List String :=
  items.filterMap fun v => match v with
    | .object id => some id
    | _ => none

namespace Aggregate

variable (a : Aggregate) (ev : Evaluator) (env : Env)

/-- The names an element binds. -/
def bound (item : Value) : Env := Table.set env a.var item

/-- The elements a filter selects, in order, and whether it leaves one
undecided. -/
def choose (filter : Meaning) : List Value → Evaluated (List Value × Bool)
  | [] => pure ([], false)
  | item :: rest => do
      let keep ← filter.truth ev (a.bound env item)
      let (chosen, undecided) ← choose filter rest
      return match keep with
        | some true => (item :: chosen, undecided)
        | some false => (chosen, undecided)
        | none => (chosen, undecided || !ev.filterMode)

/-- The elements an aggregate's `where` selects. -/
def select (examined : Evaluator) (items : List Value) : Evaluated (List Value × Bool) :=
  match a.filter with
  | none => pure (items, false)
  | some f => a.choose examined env f items

/-- What a scan's matches add to the record. -/
def record (scanned : Option String) (selected : List Value) : Evaluated Unit :=
  match scanned, ev.reading with
  | some type, some rule =>
      if ev.quiet then pure ()
      else do
        (objectIds selected).forM ev.noteRead
        Noted.note (.scan rule type (objectIds selected))
  | _, _ => pure ()

/-- Whether the body is a condition each selected element meets too. -/
def bodySelects : Bool := a.kind = .any || a.kind = .none || (a.kind = .count && !a.distinct)

/-- The elements that meet the body too, where it is a condition. -/
def meet (selected : List Value) : Evaluated (List Value × Bool) :=
  match a.body with
  | some b => if a.bodySelects then a.choose ev env b selected else pure (selected, false)
  | none => pure (selected, false)

/-- Whether every selected element meets the body; once one fails the rest are
evaluated for the record alone. -/
def allMeet (body : Meaning) : List Value → Bool → Bool → Evaluated (Option Bool)
  | [], failed, unknown => pure (if failed then some false else if unknown then none else some true)
  | item :: rest, true, unknown => do
      body.aside ev (a.bound env item)
      allMeet body rest true unknown
  | item :: rest, false, unknown => do
      match ← body.truth ev (a.bound env item) with
      | some false => if ev.reading.isNone then pure (some false) else allMeet body rest true unknown
      | none => allMeet body rest false true
      | some true => allMeet body rest false unknown

/-- The body's value on each element, none once one is absent. -/
def values (body : Meaning) : List Value → Evaluated (Option (List Value))
  | [] => pure (some [])
  | item :: rest => do
      let v ← body.value ev (a.bound env item)
      if v.isAbsent then return none
      else return (← values body rest).map (v :: ·)

/-- How many values the body takes. -/
def distinctValues (body : Option Meaning) : List Value → List Value → Evaluated Int
  | [], seen => pure (min seen.length i64Max)
  | item :: rest, seen => do
      let v ← match body with
        | some b => b.value ev (a.bound env item)
        | none => pure .absent
      distinctValues body rest (if seen.any (·.equals v) then seen else seen ++ [v])

/-- The sum of values of one type. -/
def total : Value → List Value → Evaluated Value
  | acc, [] => pure acc
  | acc, v :: rest => do total (← ev.combined .add acc v) rest

/-- The least or the greatest of values, the first of equals. -/
def best (least : Bool) : Value → List Value → Evaluated Value
  | b, [] => pure b
  | b, v :: rest =>
      match v.compare? b with
      | none => notRun "`min` or `max` over values of different types"
      | some o => best least (if o = (if least then .lt else .gt) then v else b) rest

/-- The aggregate's value over what it selected. -/
def fold (selected : List Value) (undecided : Bool) : Evaluated Value :=
  match a.kind with
  | .any => pure (if !selected.isEmpty then .bool true
      else if undecided then .absent else .bool false)
  | .none => pure (if !selected.isEmpty then .bool false
      else if undecided then .absent else .bool true)
  | .all =>
      match a.body with
      | some b => do return ofTruth (← a.allMeet ev env b selected false undecided)
      | none => pure (if undecided then .absent else .bool true)
  | kind =>
      if undecided then pure .absent
      else match kind with
        | .count =>
            if a.distinct then do return .int (← a.distinctValues ev env a.body selected [])
            else pure (.int (min selected.length i64Max))
        | .sum | .min | .max =>
            match a.body with
            | none => notRun ("`" ++ kind.text ++ "` with no body")
            | some b => do
                match ← a.values ev env b selected with
                | none => return .absent
                | some [] => return if kind = .sum then .int 0 else .absent
                | some (v :: rest) =>
                    if kind = .sum then total ev v rest else best (kind = .min) v rest
        | _ => notRun ("`" ++ kind.text ++ "`")

/-- What an aggregate answers of the elements its `where` selects: what the
scan matched is recorded, then those that meet the body too. -/
def conclude (scanned : Option String) (selected : List Value) (undecided : Bool) :
    Evaluated (Value × List String) := do
  record ev scanned selected
  let (met, unmet) ← a.meet ev env selected
  let v ← a.fold ev env met (undecided || unmet)
  return (v, objectIds met)

/-- The aggregate over the items given, with the objects its `where` and its
body select. -/
def choosing (scanned : Option String) (items : List Value) :
    Evaluated (Value × List String) := do
  let examined := if scanned.isSome then ev.inside.examining else ev.inside
  let (selected, undecided) ← a.select env examined items
  a.conclude ev.inside env scanned selected undecided

end Aggregate

/-- What an aggregate ranges over: the items of a set, or a type it scans. -/
inductive Range where
  | absent
  | items (vs : List Value)
  | scan (type : String)

/-- What an aggregate's collection reads as. -/
def rangeOf (ev : Evaluator) (collection : Term) : Evaluated Range :=
  match collection with
  | .value .absent => pure .absent
  | .value (.set items) => do
      (objectIds items).forM ev.noteRead
      return .items items
  | .typeRef t =>
      if (ev.world.lib.type? t).isSome then pure (.scan t)
      else notRun ("an aggregate over " ++ collection.kind)
  | other => notRun ("an aggregate over " ++ other.kind)

/-- An aggregate's value and what it selected, a scan narrowed by its
filter. -/
def aggregateChoosing (a : Aggregate) (collection : Meaning) (filter : Option Expr)
    (sides : List EqSide) (ev : Evaluator) (env : Env) : Evaluated (Value × List String) := do
  match ← rangeOf ev (← collection ev env) with
  | .absent => return (.absent, [])
  | .items items => a.choosing ev env none items
  | .scan t => do
      -- what the narrowing reads names nothing
      let narrowed ← match filter with
        | some f => narrowing ev.inside t a.var f sides env
        | none => pure none
      a.choosing ev env (some t) (ev.scanItems (scanObjects ev.world t narrowed))

def aggregateTerm (kind : AggKind) (distinct : Bool) (var : Option String)
    (collection : Option Meaning) (filter : Option Expr) (filterMeaning : Option Meaning)
    (sides : List EqSide) (body : Option Meaning) : Meaning := fun ev env =>
  match var, collection with
  | some var, some collection => do
      let (v, chosen) ← aggregateChoosing ⟨kind, distinct, var, filterMeaning, body⟩ collection
        filter sides ev env
      -- the elements the outermost aggregate's where selects are named
      chosen.forM ev.nameId
      return .value v
  | _, _ => notRun ("a metric's own `" ++ kind.text ++ "`")

/-! ### Calls and metrics -/

/-- An object's `intervals(<member>)`, `entered_at(<STATE or member>)` or
`time_in(<STATE>)`, read from its flow data. -/
def flowFunction (ev : Evaluator) (id function arg : String) : Evaluated Value := do
  ev.noteRead id
  match ev.world.get id with
  | none => notRun ("`" ++ function ++ "` of an object the store does not hold")
  | some o =>
      match ev.world.lib.type? o.type with
      | none => notRun ("the type " ++ o.type)
      | some t =>
          let states := (Spans.of o.spans "state").filter fun sp => sp.stateName = some arg
          if function = "intervals" then
            match intervalRows ev.world o t arg with
            | some rows => return .set rows
            | none => notRun ("the intervals of " ++ o.type ++ "." ++ arg ++
                ", which is not tracked")
          else if function = "entered_at" then
            if (t.state? arg).isSome then
              return (states.getLast?.map fun sp => Value.timestamp sp.enteredAt).getD .absent
            else match (Spans.of o.spans arg).getLast? with
              | some sp => return .timestamp sp.enteredAt
              | none => notRun ("`entered_at(" ++ arg ++
                  ")`, which names neither a state nor a tracked member")
          else if function = "time_in" then
            if (t.state? arg).isNone then
              notRun ("`time_in(" ++ arg ++ ")`, which names no state of " ++ t.name)
            else
              return .duration (states.map fun sp => sp.leftAt.getD ev.world.now - sp.enteredAt).sum
          else notRun ("the member function `" ++ function ++ "`")

/-- An argument's value as a consulted reference writes it. -/
def writtenFor (ev : Evaluator) (e : Expr) (v : Value) : String :=
  if readsPersonal ev.world.lib e then PERSONAL else v.written

/-- The arguments of an evaluator's call, each as written and as recorded;
none once one is absent. -/
def askArguments (ev : Evaluator) (env : Env) :
    List (Expr × Meaning) → Evaluated (Option (List (String × String)))
  | [] => pure (some [])
  | (e, m) :: rest => do
      let v ← m.value ev env
      if v.isAbsent then return none
      else return (← askArguments ev env rest).map ((v.written, writtenFor ev e v) :: ·)

/-- An evaluator's verdict, as the store's evaluators answer it. -/
def ask (evaluator function : String) (args : List (Expr × Meaning)) (ev : Evaluator) (env : Env) :
    Evaluated Value := do
  let key := evaluator ++ "." ++ function
  match ← askArguments ev env args with
  | none => return .absent
  | some arguments =>
      match ev.answers with
      -- an offer asks no evaluator
      | none => do
          Noted.note .unanswered
          return .absent
      | some answers =>
          let written := arguments.map Prod.fst
          -- a call's own answer, then its function's
          let answer := (Table.get? answers (key ++ "(" ++ ", ".intercalate written ++ ")")).or
            (Table.get? answers key)
          let reference := key ++ "(" ++ ", ".intercalate (arguments.map Prod.snd) ++ ")"
          match answer with
          | some "satisfied" => do
              ev.consult reference (.text "satisfied")
              return .bool true
          | some "unsatisfied" => do
              ev.consult reference (.text "unsatisfied")
              return .bool false
          | some "unanswered" => do
              Noted.note .unanswered
              ev.consult reference (.text "unanswered")
              return .absent
          | _ =>
              if answer.isNone && ev.aside then return .absent
              else
                let said := "the evaluator function " ++ key ++
                  ", which the sandbox gives no answer for"
                Noted.fail (.unanswered ⟨evaluator, function, written, said⟩)

/-- A function of one argument's value. -/
def function1 (name : String) (v : Value) : Evaluated Value :=
  match name, v with
  | _, .absent => pure .absent
  | "length", .text s => pure (.int (min s.length i64Max))
  | "length", .set items => pure (.int (min items.length i64Max))
  | "trim", .text s => pure (.text (trim s))
  | "date", .date d => pure (.date d)
  | "date", .timestamp t => pure (.date (t / 86400))
  | "length", v | "trim", v | "date", v =>
      notRun ("the " ++ name ++ " of " ++ v.kind)
  | unit, .timestamp t => pure (.text (bucket unit t))
  | unit, .date d => pure (.text (bucket unit (saturate64 (d * 86400))))
  | unit, v => notRun ("the " ++ unit ++ " of " ++ v.kind)

def FUNCTIONS : List String :=
  ["length", "trim", "date", "day", "week", "month", "quarter", "year"]

/-- A call: a function, a member function of what a path reaches, or an
evaluator's. -/
def callTerm (function : Expr) (base : Option Meaning) (args : List (Expr × Meaning)) : Meaning :=
  fun ev env =>
  match function, base with
  | .path b member, some base =>
      let evaluator? := match b with
        | .name n =>
            if (Table.get? env n).isNone && n ≠ "this" &&
              !(ev.type.any fun t => (t.attribute? n).isSome) then some n else none
        | _ => none
      match evaluator? with
      | some evaluator => do return .value (← ask evaluator member args ev env)
      | none =>
          match args with
          | [(.name arg, _)] =>
              if member = "intervals" ∨ member = "entered_at" ∨ member = "time_in" then do
                match ← base.value ev env with
                | .absent => return .value .absent
                | .object id => return .value (← flowFunction ev id member arg)
                | other => notRun ("`" ++ member ++ "` of " ++ other.kind)
              else if member = "held" then do
                match ← base.value ev env with
                | .absent => return .value .absent
                | .row fields =>
                    return .value (match Table.get? fields "held" with
                      | some (.row held) => (Table.get? held arg).getD .absent
                      | _ => .absent)
                | other => notRun ("`held` of " ++ other.kind)
              else notRun ("the member function `" ++ member ++ "`")
          | _ => notRun ("the member function `" ++ member ++ "`")
  | .name n, _ =>
      match args with
      | [(e, m)] =>
          if FUNCTIONS.contains n then do
            return .value (← function1 n (← m.value ev env))
          else match e with
            | .name arg =>
                if n = "entered_at" ∨ n = "time_in" then
                  match ev.this with
                  | some id => do return .value (← flowFunction ev id n arg)
                  | none => pure (.value .absent)
                else notRun ("the function `" ++ n ++ "`")
            | _ => notRun ("the function `" ++ n ++ "`")
      | _ => notRun ("the function `" ++ n ++ "`")
  | _, _ => notRun "a call of what is no name"

/-- The dimensions a metric's read binds; none once one is bound to an unknown
value. -/
def metricBinds (ev : Evaluator) (env : Env) :
    List (String × Expr × Meaning) → Table String Value → Evaluated (Option (Table String Value))
  | [], bound => pure (some bound)
  | (d, _, m) :: rest, bound => do
      let v ← m.value ev env
      match ev.committed with
      | some committed => do
          if ev.this.any fun id => (committed.get id).isNone then
            notRun ("a metric guard of an object the request itself creates, whose arguments " ++
              "no consultation before it can resolve")
          let before : Evaluator :=
            { world := committed, type := ev.type, this := ev.this, inputs := ev.inputs,
              actor := ev.actor, answers := ev.answers }
          let was ← (m.value before env).keeping fun _ => false
          if !was.same v then
            notRun ("a metric guard's argument the request itself writes, which check 61 " ++
              "refuses at publish")
      | none => pure ()
      if v.isAbsent then return none
      else metricBinds ev env rest (Table.set bound d v)

/-- How a consulted metric's reference names it. -/
def Expr.metricName : Expr → String
  | .name n => n
  | .path (.name t) n => t ++ "." ++ n
  | .path _ n => n
  | _ => ""

/-- A metric read: the dimensions it binds, and the metric read from the store
as the request found it. -/
def metricTerm (m : MetricReader) (name : Expr) (binds : List (String × Expr × Meaning))
    (window : Option Meaning) : Meaning := fun ev env => do
  if !ev.metrics then
    Noted.note .unanswered
    return .value .absent
  else
    let committed := ev.committed.getD ev.world
    let found ← Noted.lift (m.find committed ev.answers name (ev.type.map (·.name)))
    match ← metricBinds ev env binds [] with
    | none => return .value .absent
    | some bound =>
        let length ← match window with
          | none => pure none
          | some o => do
              match ← o.value ev env with
              | .duration s => pure (some s)
              | other => notRun ("a window of " ++ other.kind)
        let v ← Noted.lift (found bound length)
        let bindings := bound.map fun (d, v) =>
          let personal := binds.any fun (b, x, _) => b = d && readsPersonal committed.lib x
          d ++ ": " ++ (if personal then PERSONAL else v.written)
        ev.consult (name.metricName ++ "(" ++ ", ".intercalate bindings ++ ")") v
        return .value v

/-! ### The tree -/

section Tree

variable (m : MetricReader) (below : Evaluator → Expr → Evaluated Value)

mutual

/-- The meaning of an expression. -/
def Expr.meaning : Expr → Meaning
  | .num n => fun ev _ => numberTerm n ev
  | .str s => fun _ _ => pure (.value (.text s))
  | .bool b => fun _ _ => pure (.value (.bool b))
  | .dur n unit => fun ev _ => durationTerm n unit ev
  | .money currency amount => fun _ _ => moneyTerm currency amount
  | .name n => fun ev env => ev.nameTerm m below n env
  | .path b member => pathTerm m below b b.meaning member
  | .call f args => callTerm f f.baseMeaning (argMeanings args)
  | .agg kind distinct var collection filter body =>
      aggregateTerm kind distinct var (optionMeaning collection) filter (optionMeaning filter)
        (optionSides filter) (optionMeaning body)
  | .metric name binds window _ => metricTerm m name (bindMeanings binds) (optionMeaning window)
  | .changed names e => changedTerm names e.meaning
  | .set items => setTerm (meanings items)
  | .not e => notTerm e.meaning
  | .neg e => negTerm e.meaning
  | .isNull e negated => isNullTerm e.meaning negated
  | .in' l r => membership l.meaning r r.itemMeanings r.meaning
  | .bin op l r => binaryTerm op l r l.meaning r.meaning
  | .if' c a b => ifTerm c.meaning a.meaning b.meaning
  | .param n => fun _ _ => notRun ("the parameter :" ++ n ++ ", which nothing bound")
  | .lit v => fun _ _ => pure (.value v)

/-- The meaning of what a path is a member of. -/
def Expr.baseMeaning : Expr → Option Meaning
  | .path b _ => some b.meaning
  | _ => none

/-- The meanings of a set literal's elements. -/
def Expr.itemMeanings : Expr → Option (List Meaning)
  | .set items => some (meanings items)
  | _ => none

/-- The sides of the equations a filter requires, through `and`, the last
conjunct first. -/
def Expr.sides : Expr → List EqSide
  | .bin .and l r => r.sides ++ l.sides
  | .bin .eq l r => [⟨l, r, r.meaning⟩, ⟨r, l, l.meaning⟩]
  | _ => []

def meanings : List Expr → List Meaning
  | [] => []
  | e :: rest => e.meaning :: meanings rest

def argMeanings : List Expr → List (Expr × Meaning)
  | [] => []
  | e :: rest => (e, e.meaning) :: argMeanings rest

def bindMeanings : List (String × Expr) → List (String × Expr × Meaning)
  | [] => []
  | (d, e) :: rest => (d, e, e.meaning) :: bindMeanings rest

def optionMeaning : Option Expr → Option Meaning
  | none => none
  | some e => some e.meaning

def optionSides : Option Expr → List EqSide
  | none => []
  | some e => e.sides

end

end Tree

/-- A derived attribute's value, read so many hops from the deepest. -/
def derivedValue (m : MetricReader) : Nat → Evaluator → Expr → Evaluated Value
  | 0 => fun _ _ => notRun "derived attributes read more than 64 deep, each reading the next"
  | hops + 1 => fun ev e => do (← e.meaning m (derivedValue m hops) ev []).answer

namespace Evaluator

/-- What an expression means. -/
def meaning (m : MetricReader) (e : Expr) : Meaning :=
  e.meaning m (derivedValue m DERIVED_HOPS)

/-- An expression's value. -/
def eval (m : MetricReader) (ev : Evaluator) (e : Expr) : Evaluated Value := do
  (← meaning m e ev []).answer

/-- An expression's value with names bound. -/
def evalIn (m : MetricReader) (ev : Evaluator) (e : Expr) (env : Env) : Evaluated Value :=
  (meaning m e).value ev env

end Evaluator

end ObjectFlow
