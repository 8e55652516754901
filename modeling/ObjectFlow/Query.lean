import ObjectFlow.Base.Ranking
import ObjectFlow.Chunked
import ObjectFlow.Civil
import ObjectFlow.Eval
import ObjectFlow.Export
import ObjectFlow.Wire

/-!
# Queries

A query over a type or a family: the objects its filter holds for, ordered by each
key, an absent value last and creation order breaking every tie, a page at a time.
A page is cut at its limit and at its bytes, and its cursor names the last object it
gave; in creation order it is read by chunks from the cursor on, and by any other
order chosen and sorted whole.
-/

namespace ObjectFlow

open Base

/-! ### What a query narrows its reads to -/

/-- Whether a type of the family reads a name as a member, not a constant. -/
def familyMember (family : List FlowType) (n : String) : Bool :=
  family.any fun t =>
    ["state", "id", "open", "created_at", "created_by_kind"].contains n ||
      (t.attribute? n).isSome || t.derived.any (·.1 = n) || t.observations.any (·.1 = n)

/-- The state a filter's equation names. -/
def stateNamed (lib : Library) (family : List FlowType) (side other : Expr) : Option String :=
  match side with
  | .name "state" =>
      match other with
      | .name s =>
          if !familyMember family s && family.all fun t => (t.state? s).isSome then some s else none
      | .path (.name x) s =>
          if !familyMember family x && (family.all fun t => (t.state? x).isNone) &&
              (lib.type? x).any fun t => (t.state? s).isSome then some s
          else none
      | _ => none
  | _ => none

/-- The states a filter requires, through its `and`s; none where it requires none
this can tell. -/
def statesRequired (lib : Library) (family : List FlowType) : Expr → Option (List String)
  | .bin .and l r =>
      match statesRequired lib family l, statesRequired lib family r with
      | some a, some b => some (a.filter b.contains)
      | a, b => a.or b
  | .bin .eq l r =>
      ((stateNamed lib family l r).or (stateNamed lib family r l)).map ([·])
  | _ => none

/-- The types of a type's family. -/
def familyTypes (lib : Library) (type : String) : List FlowType :=
  (lib.types.filter fun (n, _) => lib.isA n type).map Prod.snd

/-- The column a side of an equation names, and the value the other holds. -/
def columnHeld (t : FlowType) (side other : Expr) : Option (String × Value) :=
  match side, other with
  | .path (.name r) "id", .str v =>
      ((t.attribute? r).filter fun a =>
        !a.many && match a.declared with
          | .reference _ => true
          | _ => false).map fun _ => (r, .object v)
  | .name n, .str v =>
      ((t.attribute? n).filter fun a =>
        !a.many && (a.declared = .scalar (.named "string") ||
          a.declared = .scalar (.named "identity"))).map fun _ => (n, .text v)
  | .name n, .num (.int k) =>
      ((t.attribute? n).filter fun a =>
        !a.many && a.declared = .scalar (.named "int")).map fun _ => (n, .int k)
  | _, _ => none

/-- The columns a filter's conjuncts hold equal to a value. -/
def columnsRequired (t : FlowType) : Expr → List (String × Value)
  | .bin .and l r => columnsRequired t r ++ columnsRequired t l
  | .bin .eq l r => ((columnHeld t l r).or (columnHeld t r l)).toList
  | _ => []

/-- What a query reads of its type. -/
def filterNarrows (lib : Library) (type : String) (filter : Option Expr) : Narrowed where
  states := filter.bind (statesRequired lib (familyTypes lib type))
  columns := match filter, lib.type? type with
    | some e, some t => columnsRequired t e
    | _, _ => []

/-! ### Its order -/

/-- What one key of an order reads. -/
inductive OrderKey where
  | createdAt
  | enteredAt (member : String)
  | attribute (name : String)
deriving DecidableEq

/-- The tracked member an order key or a field names the entry time of. -/
def enteredMember (text : String) : Option String :=
  ((stripBeginning "entered_at(" text).bind (stripEnding ")")).map trim

/-- A key as written, and whether it descends; none for one the type does not
order by. -/
def orderKey (lib : Library) (t : FlowType) (text : String) : Option (OrderKey × Bool) :=
  let key := trim text
  let (name, desc) := match stripEnding " desc" key with
    | some n => (trim n, true)
    | none => (key, false)
  if name = "created_at" then some (.createdAt, desc)
  else
    match enteredMember name with
    | some m => if (lib.tracked t).contains m then some (.enteredAt m, desc) else none
    | none => if (t.attribute? name).any (!·.many) then some (.attribute name, desc) else none

/-- When an object entered its member's current interval. -/
def enteredAt (o : Object) (member : String) : Value :=
  match (((Table.get? o.spans member).bind (·.getLast?)).filter fun sp => sp.leftPosition.isNone) with
  | some sp => .timestamp sp.enteredAt
  | none => .absent

/-- A key's value for an object. -/
def OrderKey.value (o : Object) : OrderKey → Value
  | .createdAt => .timestamp o.createdAt
  | .enteredAt m => ObjectFlow.enteredAt o m
  | .attribute a => o.attr a

section Order

variable (s : StoredObjects) (lib : Library)

/-- Where a value stands by its declaration: a member of an enumeration, a state of
its type, an object by its creation. -/
def placeOf : Value → Option Int
  | .member e m => (Table.get? lib.enumerations e).bind fun ms => (ms.idxOf? m).map Int.ofNat
  | .state t n => (lib.type? t).bind fun t => ((t.states.map Prod.fst).idxOf? n).map Int.ofNat
  | .object id => (s.rows.find? fun o => o.id = id).map fun o => o.order
  | _ => none

/-- How two values of one key order. -/
def rank (v w : Value) : Ordering :=
  match placeOf s lib v, placeOf s lib w with
  | some a, some b => compare a b
  | _, _ => (v.compare? w).getD .eq

/-- How a key orders two objects, an absent value last whichever way it runs. -/
def keyOrder (key : OrderKey × Bool) (a b : HeldObject) : Ordering :=
  let x := key.1.value a.toObject
  let y := key.1.value b.toObject
  match x.isAbsent, y.isAbsent with
  | true, true => .eq
  | true, false => .gt
  | false, true => .lt
  | false, false => if key.2 then rank s lib y x else rank s lib x y

/-- How a query orders two objects: by each key, then by creation. -/
def inOrderOf (keys : List (OrderKey × Bool)) (a b : HeldObject) : Ordering :=
  keys.foldr (fun key o => (keyOrder s lib key a b).then o) (compare a.order b.order)

end Order

/-! ### Its pages -/

/-- An object as a page gives it. -/
structure Item where
  id : String
  type : String
  fields : List (String × Value)

structure QueryPage where
  items : List Item := []
  refused : Option String := none
  reason : Option String := none
  cursor : Option String := none

/-- A query as asked: its filter as it parses, or why it is malformed, beside its
text and its parameters'. -/
structure Query where
  type : String
  filter : Option (Except String Expr) := none
  filterText : String := ""
  paramsText : String := ""
  params : Bool := false
  order : List String := []
  fields : Option (List String) := none

namespace Query

/-- What a query's cursors carry of it. -/
def read (q : Query) : String :=
  "\x1f".intercalate ["query", q.type, q.filterText, q.paramsText, ",".intercalate q.order,
    (q.fields.map fun f => ",".intercalate f).getD ""]

end Query

/-- A byte in two hexadecimal digits. -/
def hexByte (b : Fin 256) : List Char := [Nat.digitChar (b / 16), Nat.digitChar (b % 16)]

section Cursor

variable (sha : String → List (Fin 256))

/-- A read, digested, which its cursors carry. -/
def readDigest (read : String) : String := String.ofList (((sha read).take 6).flatMap hexByte)

/-- A page's cursor: the read it continues and the last object it gave. -/
def cursorOf (read last : String) : String := readDigest sha read ++ "." ++ last

/-- The object a cursor continues after; none for a cursor of another read or naming
no object of the type. -/
def continued (s : StoredObjects) (lib : Library) (read type cursor : String) :
    Option HeldObject :=
  match splitOnce '.' cursor with
  | none => none
  | some (digest, id) =>
      if digest ≠ readDigest sha read then none
      else (s.rows.find? fun o => o.id = id).filter fun o => lib.isA o.type type

end Cursor

namespace Query

section Page

variable (m : MetricReader) (w : World) (s : StoredObjects)
  (summary : List String) (wireBytes : Value → Nat) (sha : String → List (Fin 256))

/-- Whether a filter selects an object: it does where it is true of it. -/
def selects (filter : Option Expr) (o : HeldObject) : Except QueryStop Bool :=
  match w.lib.type? o.type with
  | none => .error (.notRun (.unsupported ("the type " ++ o.type)))
  | some t =>
      match filter with
      | none => .ok true
      | some e =>
          let ev : Evaluator := { world := w, this := some o.id, type := some t }
          match (do truth (← ev.eval m e) : Evaluated (Option Bool)).outcome with
          | .ok b => .ok (b = some true)
          | .error (.unsupported why) => .error (.malformed why)
          | .error e => .error (.notRun e)

/-- A field asked of an object, none where no object of its type has it. -/
def field (t : FlowType) (o : HeldObject) (f : String) : Except QueryStop (Option Value) :=
  match enteredMember f with
  | some member =>
      if (w.lib.tracked t).contains member then .ok (some (enteredAt o.toObject member))
      else .ok none
  | none =>
      let derived := t.derived.any (·.1 = f)
      if (t.attribute? f).isSome || derived ||
          ["state", "open", "created_at", "created_by_kind", "recorded_by_kind",
            "recorded_from"].contains f then
        let ev : Evaluator := { world := w, this := some o.id, type := some t }
        match (ev.eval m (.path (.name "this") f)).outcome with
        | .error e => .error (.notRun e)
        | .ok (.timestamp seconds) =>
            if derived && !(FIRST_DAY * 86400 ≤ seconds && seconds ≤ LAST_DAY * 86400 + 86399) then
              .error (.notRun (.outOfRange o.id))
            else .ok (some (.timestamp seconds))
        | .ok v => .ok (some v)
      else .ok none

/-- The fields asked of an object. -/
def fieldsOf (t : FlowType) (o : HeldObject) : List String →
    Except QueryStop (Option (List (String × Value)))
  | [] => .ok (some [])
  | f :: rest => do
      match ← field m w t o f with
      | none => return none
      | some v =>
          match ← fieldsOf t o rest with
          | none => return none
          | some fields => return some ((f, v) :: fields)

/-- An object as the page gives it; none where a field asked is one it has not. -/
def itemOf (asked : List String) (o : HeldObject) : Except QueryStop (Option Item) :=
  match w.lib.type? o.type with
  | none => .error (.notRun (.unsupported ("the type " ++ o.type)))
  | some t => do
      match ← fieldsOf m w t o asked with
      | none => return none
      | some fields => return some { id := o.id, type := o.type, fields }

/-- How many bytes an item adds to its page. -/
def itemBytes (it : Item) : Nat :=
  it.id.utf8ByteSize + it.type.utf8ByteSize +
    (it.fields.map fun (f, v) => f.utf8ByteSize + wireBytes v + 4).sum + 32

/-- A page's items, to its bytes, one at least, and whether they end it. -/
def itemsTo (asked : List String) : List HeldObject → Nat →
    Except QueryStop (Option (List Item × Bool))
  | [], _ => .ok (some ([], false))
  | o :: rest, bytes =>
      if PAGE_BYTES ≤ bytes then .ok (some ([], true))
      else do
        match ← itemOf m w asked o with
        | none => return none
        | some it =>
            match ← itemsTo asked rest (bytes + itemBytes wireBytes it) with
            | none => return none
            | some (items, cut) => return some (it :: items, cut)

/-- The objects a filter selects of all those given. -/
def judgedAll (judge : HeldObject → Except QueryStop Bool) :
    List HeldObject → Except QueryStop (List HeldObject)
  | [] => .ok []
  | o :: rest => do
      let chosen ← judge o
      let others ← judgedAll judge rest
      return if chosen then o :: others else others

/-- The objects a page is of, those its filter selects: in creation order those read
from the cursor on, by any other order those of the whole type. -/
def chosen (q : Query) (filter : Option Expr) (keys : List (OrderKey × Bool))
    (start : Option HeldObject) (limit : Nat) (h : Held) : Except QueryStop (List HeldObject) × Held :=
  let n := filterNarrows w.lib q.type filter
  if keys = [] then
    match chosenFrom (selects m w filter) limit s w.lib q.type n (s.rows.length + 1)
        ((start.map fun o => o.order).getD i64Min) [] h with
    | (some found, h) => (found, h)
    | (none, h) => (.error (.unreadable "the objects of a type, which do not end"), h)
  else (judgedAll (selects m w filter) (s.narrowed w.lib q.type n), h)

/-- The objects chosen, in order, after the cursor's. -/
def leftFound (keys : List (OrderKey × Bool)) (start : Option HeldObject)
    (found : List HeldObject) : List HeldObject :=
  let ordered := found.mergeSort fun a b => inOrderOf s w.lib keys a b != Ordering.gt
  match start with
  | some f => ordered.filter fun o => inOrderOf s w.lib keys o f == Ordering.gt
  | none => ordered

/-- A page of the objects chosen. -/
def pageOf (q : Query) (keys : List (OrderKey × Bool)) (start : Option HeldObject) (limit : Nat)
    (found : List HeldObject) : Except QueryStop QueryPage := do
  let left := leftFound w s keys start found
  let more := decide (limit < left.length)
  match ← itemsTo m w wireBytes (q.fields.getD summary) (left.take limit) 0 with
  | none => return { refused := some "unknown_field" }
  | some (items, cut) =>
      return { items, cursor :=
        if cut || more then items.getLast?.map fun it => cursorOf sha q.read it.id else none }

/-- A page of a query, of at most `limit` objects after those of the pages before
it. -/
def page (q : Query) (after : Option String) (limit : Nat) (h : Held) :
    Except QueryStop QueryPage × Held :=
  let refuse (why : String) := (Except.ok { refused := some why }, h)
  let malformed (why : String) :=
    (Except.ok { refused := some "malformed_filter", reason := some why }, h)
  match w.lib.type? q.type with
  | none => refuse "unknown_type"
  | some t =>
      let start := after.map (continued sha s w.lib q.read q.type)
      if start.any (·.isNone) then refuse "malformed_cursor"
      else if q.filter.isNone && q.params then
        malformed "params gives parameters, and there is no filter to name them"
      else
        match q.filter with
        | some (.error why) => malformed why
        | filter =>
            let filter := filter.bind Except.toOption
            match q.order.mapM (orderKey w.lib t) with
            | none => refuse "unknown_order_key"
            | some keys =>
                match chosen m w s q filter keys start.join limit h with
                | (.error (.malformed why), h) =>
                    (.ok { refused := some "malformed_filter"
                           reason := some ("an object of the type cannot answer it: " ++ why) }, h)
                | (.error e, h) => (.error e, h)
                | (.ok found, h) =>
                    (pageOf m w s summary wireBytes sha q keys start.join limit found, h)

end Page

end Query

end ObjectFlow
