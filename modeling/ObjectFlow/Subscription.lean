import ObjectFlow.Store

/-!
# Subscriptions and the log's export

A subscription is a filter over the log that a reader pulls a page at a time;
the log and a type's transitions are exported a page at a time.  A page ends at
its limit or at its bytes, and says where the next is asked from.
-/

namespace ObjectFlow

open Base

/-- What choosing an event reads of it, short of its payload. -/
structure Head where
  position : Int
  transition : String
  changesState : Bool
  recordedAt : Int
deriving DecidableEq

def Event.head (e : Event) : Head where
  position := e.position
  transition := e.transition
  changesState := e.changesState
  recordedAt := e.recordedAt

namespace World

variable (w : World)

/-- The events after a position, in position order, at most `limit`, of the
objects of the types given where some are. -/
def logAfter (after : Int) (types : Option (List String)) (limit : Nat) : List Event :=
  (w.log.filter fun e => decide (after < e.position) &&
    types.all fun ts => (w.get e.objectId).any fun o => ts.contains o.type).take limit

/-- The heads of the events after a position. -/
def logHeadsAfter (after : Int) (types : Option (List String)) (limit : Nat) : List Head :=
  (w.logAfter after types limit).map Event.head

/-- The log's last position, the operation's own events among it. -/
def lastPosition : Int :=
  let last := ((w.stored.map (·.position)).max?).getD 0
  match w.appended.getLast? with
  | some e => max e.position last
  | none => last

/-- An object's first event's position. -/
def firstPosition (id : String) : Option Int := (w.log.find? (·.objectId = id)).map (·.position)

end World

/-! ### Pulling a subscription -/

/-- A page of events: those the filter selects after the cursor, the furthest a
reader may acknowledge, and whether the next page may hold more now; or a
refusal, with no events. -/
structure EventPage where
  events : List Event
  settled : Int
  refused : Option String := none
  more : Bool := false

/-- The types whose objects' events a subscription selects. -/
def typesOf (w : World) (s : Object) : List String :=
  match s.attr "target_type" with
  | .text target =>
      if (s.attr "target_family").same (.bool true) then w.family target
      else (Table.keys w.lib.types).filter (· = target)
  | _ => []

/-- Whether a subscription selects an event of its types. -/
def selects (s : Object) (h : Head) : Bool :=
  let named := match s.attr "transitions" with
    | .set names => names.isEmpty || names.any (·.same (.text h.transition))
    | _ => true
  named && (!(s.attr "changes_state_only").same (.bool true) || h.changesState)

/-- The heads selected of a chunk, after those selected before it, until there
are as many as asked for. -/
def pushSelected (s : Object) (limit : Nat) : List Head → List Head → List Head
  | out, [] => out
  | out, h :: rest =>
      if selects s h then
        if limit ≤ (out ++ [h]).length then out ++ [h]
        else pushSelected s limit (out ++ [h]) rest
      else pushSelected s limit out rest

/-- The heads selected after a position, a chunk of the log at a time. -/
def selectedFrom (w : World) (s : Object) (types : List String) (limit chunk : Nat) :
    Nat → Int → List Head → List Head
  | 0, _, out => out
  | fuel + 1, at', out =>
      let page := w.logHeadsAfter at' (some types) chunk
      let out := pushSelected s limit out page
      if limit ≤ out.length then out
      else if page.length < chunk then out
      else selectedFrom w s types limit chunk fuel
        ((page.getLast?.map (·.position)).getD at') out

/-- The least a chunk of the log holds. -/
def HEADS_CHUNK : Nat := 256

/-- The heads of the first `limit` events after a position a subscription
selects. -/
def selected (w : World) (s : Object) (after : Int) (limit : Nat) : List Head :=
  let types := typesOf w s
  if types.isEmpty || limit = 0 then []
  else selectedFrom w s types limit (max (limit + 1) HEADS_CHUNK) (w.log.length + 1) after []

/-- The events of the heads given, read one at a time until they come to a
page's bytes, one at least; and whether some were left. -/
def pageEvents (w : World) (bytes : Event → Nat) (pageBytes : Nat) :
    Nat → List Head → List Event × Bool
  | _, [] => ([], false)
  | used, h :: rest =>
      match w.eventAt h.position with
      | none => pageEvents w bytes pageBytes used rest
      | some e =>
          let used := used + bytes e
          if pageBytes ≤ used ∧ rest ≠ [] then ([e], true)
          else
            let (events, cut) := pageEvents w bytes pageBytes used rest
            (e :: events, cut)

namespace Store

variable (s : Store)

/-- Whether a position falls in a gap a restore skipped. -/
def skippedPosition (p : Int) : Bool := s.restores.any (·.skippedPosition p)

/-- A subscription's acknowledged cursor: the one last acknowledged, or its own
creation's position. -/
def acknowledgedAt (sub : Object) : Int :=
  match Table.get? s.acknowledged sub.id with
  | some at' => at'
  | none => (s.world.firstPosition sub.id).getD 0

/-- Where a page is read from: the cursor given, where it is one of the store's,
or the acknowledged one. -/
def pulledFrom (sub : Object) (cursor : Option Int) : Option Int :=
  match cursor with
  | some c =>
      if c < 0 ∨ s.world.lastPosition < c ∨ s.skippedPosition c then none else some c
  | none => some (s.acknowledgedAt sub)

/-- The subscription an id names, where it is not revoked; else what a page of
it is refused as. -/
def subscription (id : String) : Except String Object :=
  match (s.world.get id).filter fun o => o.type = SUBSCRIPTION with
  | none => .error "unknown"
  | some sub => if sub.state = "REVOKED" then .error "revoked" else .ok sub

/-- A page of a subscription: at most `limit` events, and, where more remain,
the last one's position as the settled cursor. -/
def pullPage (bytes : Event → Nat) (pageBytes : Nat) (id : String) (cursor : Option Int)
    (limit : Nat) : EventPage :=
  let settled := s.world.lastPosition
  match s.subscription id with
  | .error why => { events := [], settled, refused := some why }
  | .ok sub =>
      match s.pulledFrom sub cursor with
      | none => { events := [], settled, refused := some "invalid_cursor" }
      | some after =>
          -- one past the page says another follows
          let heads := selected s.world sub after (limit + 1)
          let (events, cut) := pageEvents s.world bytes pageBytes 0 (heads.take limit)
          let more := decide (limit < heads.length) || cut
          { events
            settled := if more then (events.getLast?.map (·.position)).getD settled else settled
            more }

end Store

/-! ### Exporting the log -/

/-- A page of an export of events: its rows, the cursor to continue from, and
whether the next may hold more now; or a refusal, with no rows. -/
structure ExportPage where
  rows : List Event
  cursor : Int
  refused : Option String := none
  more : Bool := false

/-- How many events the log's export reads at a time. -/
def ROWS_CHUNK : Nat := 16

/-- Events until they come to a page's bytes, with the bytes they come to. -/
def upToBytes (bytes : Event → Nat) (pageBytes : Nat) : Nat → List Event → List Event × Nat
  | used, [] => ([], used)
  | used, e :: rest =>
      let used := used + bytes e
      if pageBytes ≤ used then ([e], used)
      else
        let (events, used) := upToBytes bytes pageBytes used rest
        (e :: events, used)

/-- The log's rows after a position, at most `limit`, a few events at a time and
ending once they reach a page's bytes. -/
def logRowsFrom (w : World) (bytes : Event → Nat) (pageBytes : Nat)
    (types : Option (List String)) (limit : Nat) : Nat → Int → Nat → List Event → List Event
  | 0, _, _, rows => rows
  | fuel + 1, at', used, rows =>
      if rows.length < limit ∧ used < pageBytes then
        let most := min ROWS_CHUNK (limit - rows.length)
        let page := w.logAfter at' types most
        let (read, used) := upToBytes bytes pageBytes used page
        let rows := rows ++ read
        if page.length < most then rows
        else logRowsFrom w bytes pageBytes types limit fuel
          ((read.getLast?.map (·.position)).getD at') used rows
      else rows

def logRows (w : World) (bytes : Event → Nat) (pageBytes : Nat) (types : Option (List String))
    (after : Int) (limit : Nat) : List Event :=
  logRowsFrom w bytes pageBytes types limit (w.log.length + 1) after 0 []

/-- The first of the rows at which they come to a page's bytes. -/
def fitsAt (bytes : Event → Nat) (pageBytes : Nat) : Nat → List Event → Option Event
  | _, [] => none
  | used, e :: rest =>
      if pageBytes ≤ used + bytes e then some e else fitsAt bytes pageBytes (used + bytes e) rest

/-- Rows up to one of them, with those that share its cursor. -/
def upToRow (last : Event) (rows : List Event) : List Event :=
  rows.filter fun e => e.position ≤ last.position

/-- Rows cut at their limit, never among the rows of one cursor. -/
def cutAtLimit (limit : Nat) (rows : List Event) : List Event :=
  match rows[limit - 1]? with
  | some last => if limit < rows.length ∧ 0 < limit then upToRow last rows else rows
  | none => rows

/-- A page of the rows read, in cursor order, cut at its limit and at its
bytes. -/
def exportedPage (bytes : Event → Nat) (pageBytes : Nat) (after : Int) (limit : Nat)
    (read : List Event) : ExportPage :=
  let sorted := inPositionOrder read
  let rows := cutAtLimit limit sorted
  let cut := fitsAt bytes pageBytes 0 rows
  let rows := match cut with
    | some last => if rows.any fun e => last.position < e.position then upToRow last rows else rows
    | none => rows
  { rows
    cursor := (rows.getLast?.map (·.position)).getD after
    more := cut.isSome || (decide (limit ≤ sorted.length) && decide (0 < limit)) }

/-- A page of the log's export, of every type or of a type's family, the bytes
of each row given. -/
def Store.exportPage (s : Store) (bytes : Event → Nat) (pageBytes : Nat) (type : Option String)
    (cursor : Option Int) (limit : Nat) : ExportPage :=
  let after := cursor.getD 0
  let refuse (why : String) : ExportPage := { rows := [], cursor := after, refused := some why }
  if after < 0 then refuse "invalid_cursor"
  else if s.world.lastPosition < after ∨ s.skippedPosition after then refuse "invalid_cursor"
  else match type with
    | none =>
        exportedPage bytes pageBytes after limit (logRows s.world bytes pageBytes none after limit)
    | some t =>
        if (s.world.lib.type? t).isNone then refuse "unknown_source"
        else exportedPage bytes pageBytes after limit
          (logRows s.world bytes pageBytes (some (s.world.family t)) after limit)

end ObjectFlow
