import ObjectFlow.FlowData

/-!
# Recording spans

What a transition does to its object's interval index: it ends the current
span of each tracked member whose value it changed and opens the next, or, as
a correction, relabels the current span and merges it with one before it of
the same value.
-/

namespace ObjectFlow

open Base

/-- The value of the state and of each tracked member. -/
def trackedValues (lib : Library) (t : FlowType) (o : Object) : List (String × Value) :=
  (lib.tracked t).map fun m => (m, if m = "state" then .state o.type o.state else o.attr m)

/-- A dimension's current span ended. -/
def endCurrent (position now : Int) (spans : List Span) : List Span :=
  match spans.getLast? with
  | some last =>
      if last.leftPosition.isNone then
        spans.dropLast ++ [{ last with leftPosition := some position, leftAt := some now }]
      else spans
  | none => spans

/-- A span opened by a transition. -/
def openedSpan (lib : Library) (v : Value) (position now : Int) (byId byKind : String) :
    Span where
  value := v
  enteredPosition := position
  enteredAt := now
  enteredBy := some byId
  enteredByKind := byKind
  declarationVersion := lib.version

/-- A dimension's spans with the current one ended and the next opened. -/
def moveOn (lib : Library) (position now : Int) (byId byKind : String) (spans : Spans) (m : String)
    (v : Value) : Spans :=
  Table.set spans m
    (endCurrent position now (spans.of m) ++ [openedSpan lib v position now byId byKind])

/-- The tracked values a transition changed: every one on a creation, and one
with no span yet. -/
def changedValues (before : Option (List (String × Value))) (spans : Spans)
    (tracked : List (String × Value)) : List (String × Value) :=
  tracked.filter fun (m, v) =>
    match before with
    | none => true
    | some b => (spans.of m).isEmpty || !((Table.get? b m).any fun was => was.same v)

/-- The spans a transition opens at its occurred time: on a creation, one for
the state and for every tracked member; otherwise one for each whose value it
changed, ending the current one.  None, and nothing opened, where a change
would precede the current interval it ends. -/
def recordSpans (lib : Library) (t : FlowType) (o : Object)
    (before : Option (List (String × Value))) (position now : Int) (byId byKind : String) :
    Option Object :=
  let changed := changedValues before o.spans (trackedValues lib t o)
  if before.isSome && changed.any fun (m, _) =>
      (Spans.of o.spans m).getLast?.any fun last => now < last.enteredAt
  then none
  else some { o with
    spans := changed.foldl (fun spans (m, v) => moveOn lib position now byId byKind spans m v)
      o.spans }

/-- What a member held as each span of an object began, by dimension and
entry. -/
def heldRows (lib : Library) (t : FlowType) (m : String) (imported : List Int) (spans : Spans) :
    List ((String × Int × Int) × Value) :=
  spans.flatMap fun (d, list) => list.map fun sp =>
    let row := if sp.legacy || imported.contains sp.enteredPosition
      then heldAt lib t spans sp.enteredAt else held lib t spans sp.enteredPosition true
    let v := match row with
      | .row fields => (Table.get? fields m).getD .absent
      | _ => .absent
    ((d, sp.enteredPosition, sp.enteredAt), v)

/-- The last row of a key. -/
def lastRow (rows : List ((String × Int × Int) × Value)) (key : String × Int × Int) :
    Option Value :=
  (rows.reverse.find? fun (k, _) => k = key).map Prod.snd

/-- A dimension's current span relabelled, merged with the one before it where
that holds the value given; with the span merged away.  None where the
dimension has no current span. -/
def relabel (v : Value) (position : Int) (spans : List Span) :
    Option (List Span × Int × Option (Int × Int)) :=
  match spans.getLast? with
  | none => none
  | some last =>
      if last.leftPosition.isSome then none
      else
        let earlier := spans.dropLast
        match earlier.getLast? with
        | some p =>
            if p.value.same v then
              some (earlier.dropLast ++
                [{ p with leftPosition := none, leftAt := none, correctedBy := some position }],
                last.enteredPosition, some (last.enteredPosition, last.enteredAt))
            else some (earlier ++ [{ last with value := v, correctedBy := some position }],
              last.enteredPosition, none)
        | none => some ([{ last with value := v, correctedBy := some position }],
            last.enteredPosition, none)

/-- A correction of a tracked member: its current span relabelled, and every
span whose row it changes carrying the correction.  With the corrected span's
entered position and the entry of a span it merged away; none where the member
has no current span. -/
def correctSpan (lib : Library) (t : FlowType) (spans : Spans) (m : String) (v : Value)
    (position : Int) (imported : List Int) :
    Option (Spans × Int × Option (Int × Int)) :=
  match Table.get? spans m with
  | none => none
  | some list =>
      match relabel v position list with
      | none => none
      | some (relabelled, since, merged) =>
          let was := heldRows lib t m imported spans
          let after := Table.set spans m relabelled
          let now := heldRows lib t m imported after
          let marked := after.map fun (d, list) => (d, list.map fun sp =>
            let key := (d, sp.enteredPosition, sp.enteredAt)
            let kept := match lastRow was key, lastRow now key with
              | some a, some b => a.same b
              | none, none => true
              | _, _ => false
            if kept then sp else { sp with correctedBy := some position })
          some (marked, since, merged)

end ObjectFlow
