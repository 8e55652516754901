import ObjectFlow.Withheld

/-!
# Pages of an export

A page of a source's rows after a cursor, in cursor order: the log and a
type's transitions by position, the records of an observation kind and the
labels by their object's last event, a type's intervals by the event that last
wrote each, its attempts by the transaction that wrote each, and its attempt
counts by the day.
-/

namespace ObjectFlow

open Base

/-! ### What is exported -/

/-- An attempt as an export writes it, its personal inputs named and withheld
when it was written. -/
structure AttemptRow where
  at' : Int
  actorId : String
  actorKind : String
  principal : Option String
  context : Option String
  type : Option String
  objectId : Option String
  transition : Option String
  verdict : String
  clause : Option String
  remedy : String
  unknown : Bool
  enforced : Bool
  flagged : Bool
  reads : Json
  appliedPosition : Option Int
  call : Json
  proposal : Option String
  batchIndex : Option Int
  consulted : Json
  requestValues : Json
  withheld : List String
  declarationVersion : Int

/-- A row of the attempt log: its transaction and its place in the order
written. -/
structure Attempt extends AttemptRow where
  txn : Int
  id : Int

/-- What attempts are counted by. -/
structure CountKey where
  day : Option Int
  object : Option String
  transition : Option String
  verdict : Option String
  clause : Option String
  remedy : Option String
  actorKind : Option String
  enforced : Bool
  flagged : Bool
  declarationVersion : Int
deriving DecidableEq

/-- The count of the pruned attempts of a key, on a type. -/
structure RolledUp where
  key : CountKey
  type : Option String
  count : Int

/-- A restore, with the transactions it skipped, when its copy was last written
and when it was made. -/
structure Restored extends Restore where
  txnCopied : Int
  txnAdvanced : Int
  copyLastAt : Int
  restoredAt : Int

def Restored.skippedTxn (r : Restored) (t : Int) : Bool := r.txnCopied < t && t ≤ r.txnAdvanced

/-- Whether some version moved objects of a type into another. -/
def Moves.takes (m : Moves) (before now : String) : Bool :=
  m.any fun (_, moved) => moved.any fun (type, entered) => type = before && entered.contains now

/-- Whether each move an object's events record, from the latest, is one some
version made. -/
def Moves.linked (m : Moves) : List Event → String → Bool
  | [], _ => true
  | e :: earlier, now =>
      match e.payload.movedFrom with
      | none => m.linked earlier now
      | some before => m.takes before now && m.linked earlier before

/-- Whether a version is the installed one or an earlier one the store holds. -/
def World.holdsVersion (w : World) (v : Int) : Bool :=
  v = w.lib.version || (Table.keys w.earlier).contains v

/-- Whether the store holds the versions an event was written under, a move's
before the installed one. -/
def World.versioned (w : World) (e : Event) : Bool :=
  w.holdsVersion (writtenUnder e) && w.holdsVersion e.declarationVersion &&
    (e.payload.movedFrom.isNone || e.declarationVersion < w.lib.version)

/-- A row of the interval table: a span of a dimension of an object, and the
commit that moved it, where one did. -/
structure IntervalRow where
  objectId : String
  dimension : String
  span : Span
  movedAt : Option Int := none

def IntervalRow.key (row : IntervalRow) : SpanKey :=
  ⟨row.objectId, row.dimension, row.span.enteredPosition, row.span.enteredAt⟩

/-- A store as an export reads it. -/
structure Exporting where
  world : World
  moves : Moves := []
  intervals : List IntervalRow := []
  retractions : List Retraction := []
  attempts : List Attempt := []
  rollup : List RolledUp := []
  /-- The last transaction handed out. -/
  lastTxn : Int := 0
  restores : List Restored := []

/-- A store that holds the versions its events were written under. -/
structure VersionedStore extends Exporting where
  /-- Every event was written under a version the store holds. -/
  versioned : world.log.all world.versioned = true
  /-- Every move its objects' events record is one some version made. -/
  linked : (world.inOrder.all fun o => moves.linked (world.eventsOf o.id).reverse o.type) = true
  /-- The built-in type of proposals is no kind of observation. -/
  proposals : ((world.lib.type? PROPOSAL).any fun t => t.observationOn.isSome) = false

/-- A row of an export. -/
inductive ExportRow where
  | event (row : EventRow)
  | object (row : ObjectRow)
  | span (row : SpanRow)
  | retracted (key : SpanKey)
  | attempt (row : AttemptRow)
  | count (key : CountKey) (count : Int)

/-- Rows, each with its cursor. -/
abbrev Cursored := List (Int × ExportRow)

/-- A page of an export: its lines and the cursor to continue from, and whether
the next may hold more now; or a refusal, with no lines. -/
structure Exported where
  lines : List String
  cursor : String
  refused : Option String := none
  more : Bool := false
deriving DecidableEq

/-- The most a page holds. -/
def PAGE_BYTES : Nat := 8 * 1024 * 1024

/-- The bytes of a row on its line. -/
def lineBytes (line : ExportRow → String) (row : ExportRow) : Nat := (line row).utf8ByteSize + 1

/-! ### The rows of the log -/

/-- The rows of the log after a position. -/
def Exporting.logPage (x : Exporting) (r : Readers) (line : ExportRow → String)
    (types : Option (List String)) (after : Int) (limit : Nat) : Cursored :=
  let row := fun (e : Event) => ExportRow.event (x.world.eventRow r e)
  (logRows x.world (fun e => lineBytes line (row e)) PAGE_BYTES types after limit).map fun e =>
    (e.position, row e)

/-! ### The rows of objects -/

/-- The position of an object's last event. -/
def World.lastEvent (w : World) (id : String) : Option Int :=
  (w.eventsOf id).getLast?.map (·.position)

/-- The objects whose last event is past a position, with it, at most
`limit`. -/
def World.idsAfter (w : World) (keep : Object → Bool) (after : Int) (limit : Nat) :
    List (Int × Object) :=
  let written := (w.inOrder.filter keep).filterMap fun o =>
    ((w.lastEvent o.id).filter fun at' => decide (after < at')).map fun at' => (at', o)
  (written.insertionSort fun a b => a.1 ≤ b.1).take limit

/-- Whether a label is on an object of the types given. -/
def World.labels (w : World) (types : List String) (o : Object) : Bool :=
  o.type = LABEL && match o.attr "subject" with
    | .object id => (w.get id).any fun s => types.contains s.type
    | _ => false

/-- The rows of the objects given, each at its last event. -/
def Exporting.pagedRows (x : Exporting) (ids : List (Int × Object)) : Cursored :=
  ids.map fun (at', o) => (at', .object (x.world.objectRow x.moves o))

/-! ### The rows of intervals -/

/-- Where a row stands among those of one cursor: its object's place in creation
order, and its dimension and entry. -/
def SpanKey.le (a b : SpanKey) : Bool :=
  a.dimension < b.dimension || a.dimension = b.dimension &&
    (a.enteredPosition < b.enteredPosition ||
      a.enteredPosition = b.enteredPosition && a.enteredAt ≤ b.enteredAt)

/-- A row's cursor, its object's place and its key. -/
abbrev Placed := Int × Nat × SpanKey

/-- In cursor order, and at one cursor in the objects' order. -/
def Placed.le (a b : Placed) : Bool :=
  a.1 < b.1 || a.1 = b.1 && (a.2.1 < b.2.1 || a.2.1 = b.2.1 && a.2.2.le b.2.2)

/-- An object's place in creation order. -/
def World.rank (w : World) (id : String) : Nat := (Table.keys w.objects).findIdx (· = id)

/-- An object's first imported event. -/
def World.firstImported (w : World) (id : String) : Option Int :=
  (w.log.find? fun e => e.objectId = id && e.imported).map (·.position)

/-- The event that last wrote a row: the one that opened its span, closed it,
relabelled it or moved it; a legacy span's the import of its object. -/
def World.cursorOf (w : World) (row : IntervalRow) : Option Int :=
  let s := row.span
  if s.legacy then w.firstImported row.objectId
  else some (max (max s.enteredPosition (s.leftPosition.getD 0))
    (max (s.correctedBy.getD 0) (row.movedAt.getD 0)))

/-- A row of an object of one of the types given, of a dimension its type
declares, as a page reads it. -/
def World.cursored (w : World) (types : List String) (row : IntervalRow) : Option CursoredSpan :=
  (w.get row.objectId).bind fun o =>
    if types.contains o.type && (row.dimension = "state" ||
        (w.lib.type? o.type).any fun t => (t.attribute? row.dimension).isSome) then
      (w.cursorOf row).map fun cursor =>
        { cursor, objectId := row.objectId, type := o.type, dimension := row.dimension
          span := row.span, order := w.rank row.objectId }
    else none

/-- The spans of the types given last written past a position and at most at
another, in order. -/
def Exporting.intervalsBetween (x : Exporting) (types : List String) (after upto : Int) :
    List CursoredSpan :=
  ((x.intervals.filterMap (x.world.cursored types)).filter fun s =>
    after < s.cursor && s.cursor ≤ upto).insertionSort fun a b =>
      Placed.le (a.cursor, a.order, a.key) (b.cursor, b.order, b.key)

/-- The rows of the types given that a commit past a position and at most at
another retracted, in order. -/
def Exporting.retractionsBetween (x : Exporting) (types : List String) (after upto : Int) :
    List Retraction :=
  (x.retractions.filter fun r => after < r.position && r.position ≤ upto &&
    (x.world.get r.key.objectId).any fun o => types.contains o.type).insertionSort fun a b =>
      Placed.le (a.position, x.world.rank a.key.objectId, a.key)
        (b.position, x.world.rank b.key.objectId, b.key)

/-- A window's rows, each cursor's retractions before the rows written there. -/
def Exporting.window (x : Exporting) (types : List String) (after upto : Int) : Cursored :=
  let retracted := (x.retractionsBetween types after upto).map fun r =>
    (r.position, false, ExportRow.retracted r.key)
  let written := (x.intervalsBetween types after upto).map fun s =>
    (s.cursor, true, ExportRow.span (x.world.spanRow s))
  ((retracted ++ written).insertionSort fun a b =>
    a.1 < b.1 ∨ a.1 = b.1 ∧ (a.2.1 = false ∨ b.2.1 = true)).map fun r => (r.1, r.2.2)

/-- The first window of positions a page of intervals reads. -/
def SPANS_FIRST : Int := 4096

/-- The widest one. -/
def SPANS_WIDEST : Int := 65536

/-- The rows of intervals, a window of positions at a time; one that finds
nothing doubles the next. -/
def Exporting.intervalRowsFrom (x : Exporting) (line : ExportRow → String) (types : List String)
    (limit : Nat) : Nat → Int → Int → Nat → Cursored → Cursored
  | 0, _, _, _, rows => rows
  | fuel + 1, at', window, used, rows =>
      let last := x.world.lastPosition
      if at' < last ∧ rows.length < limit ∧ used < PAGE_BYTES then
        let upto := min (at' + window) last
        let found := x.window types at' upto
        let next := if found.isEmpty then min (window * 2) SPANS_WIDEST else SPANS_FIRST
        x.intervalRowsFrom line types limit fuel upto next
          (used + (found.map fun f => lineBytes line f.2).sum) (rows ++ found)
      else rows

/-- The rows of a type's intervals after a position. -/
def Exporting.intervalRows (x : Exporting) (line : ExportRow → String) (type : String)
    (after : Int) (limit : Nat) : Cursored :=
  x.intervalRowsFrom line (x.world.family type) limit (x.world.lastPosition - after).toNat after
    SPANS_FIRST 0 []

/-! ### The rows of attempts -/

/-- A place in the order attempts were written in: a transaction, and an attempt
of it or, where none, its end. -/
abbrev Place := Int × Option Int

/-- The attempts of the types given after a place, in a transaction at most
`upto`, in the order written. -/
def Exporting.attemptsAfter (x : Exporting) (types : List String) (past : Place) (upto : Int) :
    List Attempt :=
  (x.attempts.filter fun a =>
    (past.1 < a.txn || (a.txn = past.1 && past.2.any fun id => decide (id < a.id))) &&
      a.txn ≤ upto && a.type.any types.contains).insertionSort fun a b =>
        a.txn < b.txn ∨ a.txn = b.txn ∧ a.id ≤ b.id

def attemptRow (a : Attempt) : Int × ExportRow := (a.txn, .attempt a.toAttemptRow)

/-- How many attempts are read at a time. -/
def ATTEMPTS_CHUNK : Nat := 16

/-- The first window of transactions a page of attempts reads. -/
def TXNS_FIRST : Int := 4096

/-- The widest one. -/
def TXNS_WIDEST : Int := 1048576

/-- Whether a page's rows have come to its limit or its bytes. -/
def pageFull (limit : Nat) (rows : Cursored) (used : Nat) : Bool :=
  limit ≤ rows.length || PAGE_BYTES ≤ used

/-- A window's attempts, a few at a time until the page is full: the place read
to, the bytes and the rows. -/
def Exporting.attemptChunks (x : Exporting) (line : ExportRow → String) (types : List String)
    (limit : Nat) (upto : Int) : Nat → Place → Nat → Cursored → Place × Nat × Cursored
  | 0, past, used, rows => (past, used, rows)
  | fuel + 1, past, used, rows =>
      let chunk := (x.attemptsAfter types past upto).take ATTEMPTS_CHUNK
      let past := (chunk.getLast?.map fun a => (a.txn, some a.id)).getD past
      let used := used + (chunk.map fun a => lineBytes line (attemptRow a).2).sum
      let rows := rows ++ chunk.map attemptRow
      if chunk.length < ATTEMPTS_CHUNK || pageFull limit rows used then (past, used, rows)
      else x.attemptChunks line types limit upto fuel past used rows

/-- The rows of attempts, a window of transactions at a time, and then to the
end of the last transaction read. -/
def Exporting.attemptRowsFrom (x : Exporting) (line : ExportRow → String) (types : List String)
    (limit : Nat) : Nat → Place → Int → Nat → Cursored → Cursored
  | 0, _, _, _, rows => rows
  | fuel + 1, past, window, used, rows =>
      if past.1 < x.lastTxn ∧ pageFull limit rows used = false then
        let upto := min (past.1 + window) x.lastTxn
        let (read, used, found) :=
          x.attemptChunks line types limit upto (x.attempts.length + 1) past used rows
        if pageFull limit found used then
          found ++ (x.attemptsAfter types read read.1).map attemptRow
        else
          let next := if found.length = rows.length then min (window * 2) TXNS_WIDEST
            else TXNS_FIRST
          x.attemptRowsFrom line types limit fuel (upto, none) next used found
      else rows

/-- The rows of a type's attempts after a transaction. -/
def Exporting.attemptRows (x : Exporting) (line : ExportRow → String) (type : String)
    (after : Int) (limit : Nat) : Cursored :=
  x.attemptRowsFrom line (x.world.family type) limit (x.lastTxn - after).toNat (after, none)
    TXNS_FIRST 0 []

/-! ### Pages -/

/-- The cursor of the first line at which they come to a page's bytes. -/
def bytesAt : Nat → List (Int × String) → Option Int
  | _, [] => none
  | used, (c, l) :: rest =>
      let used := used + (l.utf8ByteSize + 1)
      if PAGE_BYTES ≤ used then some c else bytesAt used rest

/-- Rows cut at their limit, never among the rows of one cursor. -/
def limited (limit : Nat) (rows : Cursored) : Cursored :=
  match rows[limit - 1]? with
  | some last => if limit < rows.length ∧ 0 < limit then rows.filter fun r => r.1 ≤ last.1 else rows
  | none => rows

/-- The rows of a page of those read, in cursor order, cut at its limit and at
its bytes; and whether the next may hold more now. -/
def pageRows (line : ExportRow → String) (limit : Nat) (read : Cursored) : Cursored × Bool :=
  let sorted := read.insertionSort fun a b => a.1 ≤ b.1
  let rows := limited limit sorted
  let cut := bytesAt 0 (rows.map fun r => (r.1, line r.2))
  let rows := match cut with
    | some c => if rows.any fun r => decide (c < r.1) then rows.filter fun r => r.1 ≤ c else rows
    | none => rows
  (rows, cut.isSome || (decide (limit ≤ sorted.length) && decide (0 < limit)))

/-- Where a page's reader continues from. -/
def nextCursor (after : Int) (rows : Cursored) : Int := (rows.getLast?.map Prod.fst).getD after

def pageOf (line : ExportRow → String) (after : Int) (limit : Nat) (read : Cursored) : Exported :=
  let (rows, more) := pageRows line limit read
  { lines := rows.map fun r => line r.2
    cursor := toString (nextCursor after rows)
    more }

/-- Digits with a sign or none, as a 64-bit number. -/
def parseInt (text : String) : Option Int :=
  let number (digits : List Char) : Option Int :=
    if digits.isEmpty then none else Decimal.digits digits
  (match text.toList with
  | '-' :: digits => (number digits).map (- ·)
  | '+' :: digits => number digits
  | digits => number digits).bind fits64

/-- A text before and after the first of a character. -/
def splitOnce (c : Char) (text : String) : Option (String × String) :=
  match text.toList.dropWhile (· ≠ c) with
  | [] => none
  | _ :: rest => some (String.ofList (text.toList.takeWhile (· ≠ c)), String.ofList rest)

/-- A text without the ending given, where it ends so. -/
def stripEnding (ending text : String) : Option String :=
  if ending.toList.isSuffixOf text.toList then
    some (String.ofList (text.toList.take (text.length - ending.length)))
  else none

/-! ### Attempt counts -/

/-- A day written as `2026-01-31`, in days since 1970. -/
def parseDate (text : String) : Option Int :=
  match splitOnce '-' text with
  | none => none
  | some (y, rest) => match splitOnce '-' rest with
      | none => none
      | some (m, d) =>
          let digits (n : Nat) (s : String) : Option Int :=
            if s.length = n then Decimal.digits s.toList else none
          match digits 4 y, digits 2 m, digits 2 d with
          | some y, some m, some d =>
              let days := daysFromCivil y m.toNat d.toNat
              if y < 1 ∨ m < 1 ∨ 12 < m ∨ d < 1 ∨ 31 < d then none
              else if civilFromDays days = (y, m.toNat, d.toNat) then some days else none
          | _, _, _ => none

/-- Counts with one more of a key. -/
def addCount (counts : Table CountKey Int) (key : CountKey) (n : Int) : Table CountKey Int :=
  Table.put counts key (((Table.get? counts key).getD 0) + n)

/-- A text, unless it is empty. -/
def someText (text : String) : Option String := if text = "" then none else some text

/-- What an attempt is counted by. -/
def Attempt.countKey (a : Attempt) : CountKey where
  day := some (a.at' / 86400)
  object := a.objectId
  transition := a.transition
  verdict := some a.verdict
  clause := a.clause
  remedy := someText a.remedy
  actorKind := some a.actorKind
  enforced := a.enforced
  flagged := a.flagged
  declarationVersion := a.declarationVersion

/-- A type's family's attempt counts: those pruned and those that remain. -/
def Exporting.attemptCounts (x : Exporting) (owner : String) : Table CountKey Int :=
  let rolled := (x.rollup.filter fun u => u.type.any fun t => x.world.lib.isA t owner).foldl
    (fun counts u => addCount counts u.key u.count) []
  (x.world.family owner).foldl (fun counts t =>
    (x.attempts.filter fun a => a.type = some t).foldl
      (fun counts a => addCount counts a.countKey 1) counts) rolled

/-- The index of the line at which a page of counts ends, by its limit or its
bytes. -/
def countsEnd (limit : Nat) : Nat → Nat → List (Int × String) → Option Nat
  | _, _, [] => none
  | i, used, (_, l) :: rest =>
      let used := used + (l.utf8ByteSize + 1)
      if limit ≤ i + 1 ∨ PAGE_BYTES ≤ used then some i else countsEnd limit (i + 1) used rest

/-- The lines up to a day. -/
def linesTo (day : Int) (lines : List (Int × String)) : List (Int × String) :=
  lines.filter fun l => l.1 ≤ day

/-- Whether a restore counts a day again. -/
def Exporting.recounted (x : Exporting) (day : Int) : Bool :=
  x.restores.any fun r => r.copyLastAt / 86400 ≤ day && day ≤ r.restoredAt / 86400

/-- The lines of a type's attempt counts on the settled days after one. -/
def Exporting.countLines (x : Exporting) (line : ExportRow → String) (type : String)
    (after : Option Int) : List (Int × String) :=
  let today := x.world.now / 86400
  ((x.attemptCounts type).filterMap fun c => (c.1.day.filter fun day =>
    decide (day < today) && after.all fun a => decide (a < day)).map fun day =>
      (day, line (.count c.1 c.2))).insertionSort fun a b => a.1 < b.1 ∨ a.1 = b.1 ∧ a.2 ≤ b.2

/-- A page of a type's attempt counts, by settled day, its cursor the last day
exported. -/
def Exporting.countsPage (x : Exporting) (line : ExportRow → String) (type : String)
    (cursor : Option String) (limit : Nat) : Exported :=
  let page (after : Option Int) : Exported :=
    let read := x.countLines line type after
    let cut := (countsEnd limit 0 0 read).bind fun i =>
      if i + 1 < read.length then read[i]? else none
    let rows := match cut with
      | some last => linesTo last.1 read
      | none => read
    { lines := rows.map Prod.snd
      cursor := (rows.getLast?.map fun (day, _) => dateText day).getD (cursor.getD "")
      more := cut.isSome }
  match cursor with
  | none => page none
  | some c =>
      if c = "" then page none
      else match (parseDate c).filter fun d => d < x.world.now / 86400 && !x.recounted d with
        | some d => page (some d)
        | none => { lines := [], cursor := c, refused := some "invalid_cursor" }

/-! ### Exporting a source -/

/-- The rows of a source after a cursor; none where it names none. -/
def Exporting.rowsOf (x : Exporting) (r : Readers) (line : ExportRow → String) (source : String)
    (after : Int) (limit : Nat) : Option Cursored :=
  let w := x.world
  if source = "log" then some (x.logPage r line none after limit)
  else if (w.lib.type? source).any fun t => t.observationOn.isSome then
    some (x.pagedRows (w.idsAfter (fun o => o.type = source) after (limit + 1)))
  else match splitOnce '.' source with
    | none => none
    | some (type, kind) =>
        if (w.lib.type? type).isNone then none
        else if kind = "intervals" then some (x.intervalRows line type after limit)
        else if kind = "attempts" then some (x.attemptRows line type after limit)
        else if kind = "transitions" then
          some (x.logPage r line (some (w.family type)) after limit)
        else if kind = "labels" then
          some (x.pagedRows (w.idsAfter (w.labels (w.family type)) after (limit + 1)))
        else none

/-- Whether a cursor is past what the store has handed out, or in a gap a
restore skipped. -/
def Exporting.foreign (x : Exporting) (source : String) (after : Int) : Bool :=
  if (stripEnding ".attempts" source).isSome then
    x.lastTxn < after || x.restores.any (·.skippedTxn after)
  else x.world.lastPosition < after || x.restores.any (·.skippedPosition after)

/-- A page of an export: the rows of a source after a cursor up to `limit`, and
every further row sharing the last one's cursor. -/
def Exporting.exportPage (x : Exporting) (r : Readers) (line : ExportRow → String)
    (source : String) (cursor : Option String) (limit : Nat) : Exported :=
  let refuse (why : String) : Exported :=
    { lines := [], cursor := cursor.getD "0", refused := some why }
  match (stripEnding ".attempt_counts" source).filter fun t => (x.world.lib.type? t).isSome with
  | some type => x.countsPage line type cursor limit
  | none =>
      let after := match cursor with
        | none => some 0
        | some c => (parseInt c).filter fun n => decide (0 ≤ n)
      match after with
      | none => refuse "invalid_cursor"
      | some after =>
          if x.foreign source after then refuse "invalid_cursor"
          else match x.rowsOf r line source after limit with
            | none => refuse "unknown_source"
            | some rows => pageOf line after limit rows

end ObjectFlow
