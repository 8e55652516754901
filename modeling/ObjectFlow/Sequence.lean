import Mathlib.Data.List.Sort
import ObjectFlow.Base.Integer
import ObjectFlow.Base.Run
import ObjectFlow.Base.Table

/-!
# Sequence numbers

A sequence numbers objects within a scope.  The store keeps the next number of
each sequence and scope; a request reads them all at its start, draws from its
own copy, and writes back the ones it drew from.  A refused request is rolled
back and writes what it drew in a second transaction, an aborted batch
likewise, and between the two another process may run.

The processes share one store, whose transactions are atomic and serialised;
`numbering` is the machine of their steps and what it emits is each number
drawn.
-/

namespace ObjectFlow

open Base

/-- A sequence and the scope it numbers in, `''` where it has none. -/
structure Scope where
  sequence : String
  scope : String
deriving DecidableEq

instance : LT Scope where
  lt a b := a.sequence < b.sequence ∨ (a.sequence = b.sequence ∧ a.scope < b.scope)

instance : DecidableLT Scope := fun a b =>
  inferInstanceAs
    (Decidable (a.sequence < b.sequence ∨ (a.sequence = b.sequence ∧ a.scope < b.scope)))

/-- The last number a sequence draws. -/
def SEQUENCE_MOST : Int := i64Max - 1

/-- The least margin of a restore. -/
def RESTORE_LEAST : Int := 1000

/-- What a restored counter is a multiple of. -/
def RESTORE_ROUND : Int := 1000

/-- The rows numbers are drawn from: `of_sequence`, and the floor of the last
`of_restore`, 0 in a store never restored. -/
structure NumberRows where
  nextValue : Table Scope Int
  sequenceFloor : Int
deriving DecidableEq

/-- The rows of a new store. -/
def NumberRows.fresh : NumberRows := { nextValue := [], sequenceFloor := 0 }

/-- The counters a request draws from: each sequence's last number, the ones
it drew, and what a scope with no row is taken to have drawn. -/
structure Allocator where
  sequences : Table Scope Int
  drawn : List Scope
  floor : Int
deriving DecidableEq

/-- The last number drawn, from a row's next one; a next value that leaves no
last one reads as exhausted. -/
def lastDrawn (next : Int) : Int :=
  match (fits64 (next - 1)).filter (0 ≤ ·) with
  | some last => last
  | none => SEQUENCE_MOST

namespace Allocator

/-- The counters as the store holds them. -/
def read (rows : NumberRows) : Allocator where
  sequences := Table.mapValues lastDrawn rows.nextValue
  drawn := []
  floor := rows.sequenceFloor

/-- The next number of a sequence in a scope, numbered from 1; none once it is
exhausted. -/
def draw (alloc : Allocator) (key : Scope) : Option (Int × Allocator) :=
  match (fits64 ((Table.get? alloc.sequences key).getD alloc.floor + 1)).filter
      (· ≤ SEQUENCE_MOST) with
  | none => none
  | some n =>
      some (n, { alloc with
        sequences := Table.set alloc.sequences key n
        drawn := if key ∈ alloc.drawn then alloc.drawn else alloc.drawn ++ [key] })

/-- Every draw of a request in order: an exhausted sequence draws nothing. -/
def drawAll : Allocator → List Scope → Allocator × List (Scope × Int)
  | alloc, [] => (alloc, [])
  | alloc, key :: rest =>
      match alloc.draw key with
      | none => drawAll alloc rest
      | some (n, next) =>
          let (last, numbers) := drawAll next rest
          (last, (key, n) :: numbers)

/-- The last number drawn of each scope drawn from. -/
def draws (alloc : Allocator) : List (Scope × Int) :=
  alloc.drawn.map fun key => (key, (Table.get? alloc.sequences key).getD 0)

end Allocator

/-- `INSERT … ON CONFLICT DO UPDATE SET next_value = excluded.next_value`. -/
def NumberRows.overwrite (rows : NumberRows) (key : Scope) (next : Int) : NumberRows :=
  { rows with nextValue := Table.set rows.nextValue key next }

/-- `INSERT … ON CONFLICT DO UPDATE SET next_value = max(…)`. -/
def NumberRows.raise (rows : NumberRows) (key : Scope) (next : Int) : NumberRows :=
  match Table.get? rows.nextValue key with
  | none => rows.overwrite key next
  | some held => rows.overwrite key (max held next)

/-- The numbers drawn, written over whatever the rows hold. -/
def NumberRows.writeSequences (rows : NumberRows) (draws : List (Scope × Int)) : NumberRows :=
  draws.foldl (fun rows (key, last) => rows.overwrite key (last + 1)) rows

/-- The numbers a batch drew, each row kept where it is already past them. -/
def NumberRows.keepDraws (rows : NumberRows) (draws : Table Scope Int) : NumberRows :=
  draws.foldl (fun rows (key, last) => rows.raise key (last + 1)) rows

/-- The raises of an import, each of a last value that leaves a next number;
none where the import is refused for one that does not. -/
def NumberRows.raiseAll (rows : NumberRows) (raised : List (Scope × Int)) : Option NumberRows :=
  if raised.all (fun (_, last) => 0 ≤ last ∧ last < SEQUENCE_MOST) then
    some (raised.foldl (fun rows (key, last) => rows.raise key (last + 1)) rows)
  else none

/-- A batch's numbers, by scope the last one drawn. -/
def keepLast (kept : Table Scope Int) (draws : List (Scope × Int)) : Table Scope Int :=
  draws.foldl (fun kept (key, last) =>
    match Table.get? kept key with
    | none => Table.set kept key last
    | some held => Table.set kept key (max held last)) kept

/-- The requests of a batch, each on a savepoint of the batch's transaction:
the rows after them, what each drew, and what a rollback keeps. -/
def runBatch : NumberRows → Table Scope Int → List (List Scope) →
    NumberRows × Table Scope Int × List (Scope × Int)
  | rows, kept, [] => (rows, kept, [])
  | rows, kept, scopes :: rest =>
      let (alloc, numbers) := (Allocator.read rows).drawAll scopes
      let (rows', kept', later) :=
        runBatch (rows.writeSequences alloc.draws) (keepLast kept alloc.draws) rest
      (rows', kept', numbers ++ later)

/-- The most of `times` recorded in any period of `age`: the times up to one
and no more than `age` before it, counted as the later end moves. -/
def busiest (age : Int) : List Int → List Int → Nat → Nat
  | _, [], most => most
  | window, at' :: rest, most =>
      let window' := (window ++ [at']).dropWhile (fun from' => age < saturate64 (at' - from'))
      busiest age window' rest (max most window'.length)

/-- How far a restore advances a counter: twice what was recorded in the
busiest period as long as the copy is old, and no less than the least. -/
def restoreMargin (recorded : List Int) (now : Int) : Int :=
  let times := recorded.insertionSort (· ≤ ·)
  let copyLastAt := min (times.getLast?.getD now) now
  let age := saturate64 (now - copyLastAt)
  max (saturate64 (2 * (busiest age [] times 0 : Nat))) RESTORE_LEAST

/-- A counter advanced by a margin, to the next round number. -/
def advanced (margin v : Int) : Option Int :=
  ((fits64 (v + margin)).bind fun v => fits64 (v + (RESTORE_ROUND - 1))).map fun v =>
    Int.tdiv v RESTORE_ROUND * RESTORE_ROUND

/-- A row of `of_sequence` of a restored copy. -/
def restoredNext (margin next : Int) : Int :=
  (match advanced margin (max (saturate64 (next - 1)) 0) with
    | none => SEQUENCE_MOST
    | some last => min last SEQUENCE_MOST) + 1

/-- A copy restored: each scope's next number and the floor advanced past the
margin; none where the floor cannot be. -/
def restoreCopy (copy : NumberRows) (recorded : List Int) (now : Int) : Option NumberRows :=
  let margin := restoreMargin recorded now
  (advanced margin copy.sequenceFloor).map fun floor =>
    { nextValue := Table.mapValues (restoredNext margin) copy.nextValue
      sequenceFloor := min floor SEQUENCE_MOST }

/-- What a process has drawn and the store does not hold yet. -/
inductive Owed where
  | nothing
  /-- By a refused request, rolled back. -/
  | refused (draws : List (Scope × Int))
  /-- By the requests of a batch, rolled back. -/
  | aborted (draws : Table Scope Int)
deriving DecidableEq

/-- One store, the processes that share it, and the copies taken of it. -/
structure Numbering where
  rows : NumberRows
  owed : Nat → Owed
  copies : List NumberRows

/-- A new store no process has drawn from. -/
def Numbering.fresh : Numbering :=
  { rows := .fresh, owed := fun _ => .nothing, copies := [] }

/-- What a process does to the numbers, each a transaction or, where it takes
two, one of them. -/
inductive NumberStep where
  /-- A request applied, with what it draws from. -/
  | applied (process : Nat) (scopes : List Scope)
  /-- An import applied, with the last values it raises sequences past. -/
  | imported (process : Nat) (raised : List (Scope × Int))
  /-- A request refused: its transaction rolled back. -/
  | refused (process : Nat) (scopes : List Scope)
  /-- A refused request's numbers written. -/
  | recorded (process : Nat)
  /-- A batch committed, each request's draws. -/
  | committed (process : Nat) (requests : List (List Scope))
  /-- A batch rolled back. -/
  | aborted (process : Nat) (requests : List (List Scope))
  /-- An aborted batch's numbers written. -/
  | kept (process : Nat)
  /-- A copy of the store taken. -/
  | copied
  /-- A copy restored in the store's place. -/
  | restored (copy : Nat) (recorded : List Int) (now : Int)
deriving DecidableEq

/-- What a process owes, set. -/
def Numbering.owe (s : Numbering) (process : Nat) (what : Owed) : Numbering :=
  { s with owed := fun q => if q = process then what else s.owed q }

/-- One step of the processes, with the numbers it drew. -/
def Numbering.step (s : Numbering) : NumberStep → Option (Numbering × List (Scope × Int))
  | .applied p scopes =>
      match s.owed p with
      | .nothing =>
          let (alloc, numbers) := (Allocator.read s.rows).drawAll scopes
          some ({ s with rows := s.rows.writeSequences alloc.draws }, numbers)
      | _ => none
  | .imported p raised =>
      match s.owed p with
      | .nothing => (s.rows.raiseAll raised).map fun rows => ({ s with rows }, [])
      | _ => none
  | .refused p scopes =>
      match s.owed p with
      | .nothing =>
          let (alloc, numbers) := (Allocator.read s.rows).drawAll scopes
          some (if alloc.drawn.isEmpty then s else s.owe p (.refused alloc.draws), numbers)
      | _ => none
  | .recorded p =>
      match s.owed p with
      | .refused draws => some ({ s with rows := s.rows.writeSequences draws }.owe p .nothing, [])
      | _ => none
  | .committed p requests =>
      match s.owed p with
      | .nothing =>
          let (rows, _, numbers) := runBatch s.rows [] requests
          some ({ s with rows }, numbers)
      | _ => none
  | .aborted p requests =>
      match s.owed p with
      | .nothing =>
          let (_, kept, numbers) := runBatch s.rows [] requests
          some (if kept.isEmpty then s else s.owe p (.aborted kept), numbers)
      | _ => none
  | .kept p =>
      match s.owed p with
      | .aborted draws => some ({ s with rows := s.rows.keepDraws draws }.owe p .nothing, [])
      | _ => none
  | .copied => some ({ s with copies := s.copies ++ [s.rows] }, [])
  | .restored i recorded now =>
      match s.copies[i]? with
      | some copy => (restoreCopy copy recorded now).map fun rows => ({ s with rows }, [])
      | none => none

/-- The machine of the processes that share one store. -/
def numbering : Machine Numbering NumberStep (Scope × Int) where
  step := Numbering.step

end ObjectFlow
