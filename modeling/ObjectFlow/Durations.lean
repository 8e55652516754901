import ObjectFlow.Split

/-!
# What spans' durations add up to

An object's history is well formed when each state's span ends as the next
begins and the last is current.  A member's span then counts exactly its seconds
outside the closed ones, and the state spans' durations make up the time up to
now while the object is open, and up to its current state's entry once it is
done: time spent in a closed state it has left is measured, as a state's span
keeps its exit less its entry.
-/

namespace ObjectFlow

open Base
open Base.Interval (times shut free)

/-! ### Well-formed histories -/

/-- Spans each ended as the next began, the last current. -/
def Contiguous (now : Int) : List Span → Prop
  | [] => False
  | [sp] => sp.leftAt = none ∧ sp.enteredAt ≤ now
  | sp :: next :: rest =>
      sp.leftAt = some next.enteredAt ∧ sp.enteredAt ≤ next.enteredAt ∧
        Contiguous now (next :: rest)

/-- A well-formed history, read at an instant from its last span's entry on: its
states' spans follow on one another up to the one its state is in, and no
member's span ends before it begins. -/
structure Object.WellFormed (o : Object) (now : Int) : Prop where
  states : Contiguous now (Spans.of o.spans "state")
  current : ∀ last ∈ (Spans.of o.spans "state").getLast?, last.stateName = some o.state
  forward : ∀ member, ∀ sp ∈ Spans.of o.spans member, sp.enteredAt ≤ sp.leftAt.getD now

/-! ### Closed seconds -/

/-- The stretches of closed or terminal states among spans. -/
def closedAmong (t : FlowType) (now : Int) (spans : List Span) : List (Int × Int) :=
  spans.filterMap fun sp =>
    if sp.stateName.any t.finished then some (sp.enteredAt, sp.leftAt.getD now) else none

/-- A span's own stretch before those of the spans after it. -/
theorem times_closedAmong_cons (t : FlowType) (now second : Int) (sp : Span) (rest : List Span) :
    times (closedAmong t now (sp :: rest)) second ≤
      (if sp.enteredAt ≤ second ∧ second < sp.leftAt.getD now then 1 else 0) +
        times (closedAmong t now rest) second := by
  by_cases hfinished : sp.stateName.any t.finished = true
  · have hcons : closedAmong t now (sp :: rest) =
        (sp.enteredAt, sp.leftAt.getD now) :: closedAmong t now rest := by
      simp [closedAmong, hfinished]
    rw [hcons]
    unfold times
    rw [List.countP_cons]
    by_cases hwithin : sp.enteredAt ≤ second ∧ second < sp.leftAt.getD now
    · simp [hwithin, Nat.add_comm]
    · simp [hwithin]
  · have hcons : closedAmong t now (sp :: rest) = closedAmong t now rest := by
      simp [closedAmong, hfinished]
    rw [hcons]
    omega

/-- **No second is closed twice**, and none is before the first span began. -/
theorem times_closedAmong (t : FlowType) {now : Int} {spans : List Span}
    (h : Contiguous now spans) (second : Int) :
    times (closedAmong t now spans) second ≤ 1 ∧
      ∀ first ∈ spans.head?, second < first.enteredAt →
        times (closedAmong t now spans) second = 0 := by
  induction spans with
  | nil => exact absurd h id
  | cons sp rest ih =>
      have hcons := times_closedAmong_cons t now second sp rest
      cases rest with
      | nil =>
          have hnone : times (closedAmong t now []) second = 0 := rfl
          rw [hnone] at hcons
          refine ⟨by split at hcons <;> omega, ?_⟩
          intro first hfirst hbefore
          obtain rfl := Option.some.inj hfirst
          rw [if_neg (by omega)] at hcons
          omega
      | cons next rest =>
          obtain ⟨hleft, hforward, hrest⟩ := h
          obtain ⟨honce, hnone⟩ := ih hrest
          have hnone := hnone next rfl
          rw [hleft, Option.getD_some] at hcons
          refine ⟨?_, ?_⟩
          · by_cases hwithin : sp.enteredAt ≤ second ∧ second < next.enteredAt
            · rw [if_pos hwithin, hnone hwithin.2] at hcons
              omega
            · rw [if_neg hwithin] at hcons
              omega
          · intro first hfirst hbefore
            obtain rfl := Option.some.inj hfirst
            rw [if_neg (by omega), hnone (by omega)] at hcons
            omega

/-! ### A member's span -/

/-- The duration of a member's span that is not empty: its seconds outside the
closed ones, none where there are none. -/
theorem spanDuration_member {o : Object} {now : Int} (h : o.WellFormed now) (t : FlowType)
    {member : String} (hmember : member ≠ "state") {sp : Span}
    (hsp : sp ∈ Spans.of o.spans member) (hlong : sp.enteredAt < sp.leftAt.getD now) :
    spanDuration t o o.spans member sp (closedPeriods o.spans t now) now =
      if free (closedPeriods o.spans t now) sp.enteredAt (sp.leftAt.getD now) = 0 then .absent
      else .duration (free (closedPeriods o.spans t now) sp.enteredAt (sp.leftAt.getD now)) := by
  have hforward := h.forward member sp hsp
  have honce : ∀ second, sp.enteredAt ≤ second → second < sp.leftAt.getD now →
      times (closedPeriods o.spans t now) second ≤ 1 := fun second _ _ =>
    (times_closedAmong t h.states second).1
  have hfree := (Interval.length_sub_shut_iff (closedPeriods o.spans t now) hforward).mpr honce
  have hpositive : 0 ≤ free (closedPeriods o.spans t now) sp.enteredAt (sp.leftAt.getD now) :=
    Int.natCast_nonneg _
  unfold spanDuration
  rw [if_pos hmember]
  show (if sp.leftAt.getD now - sp.enteredAt -
        shut (closedPeriods o.spans t now) sp.enteredAt (sp.leftAt.getD now) > 0 ∨
        sp.leftAt.getD now - sp.enteredAt = 0 then
      Value.duration (sp.leftAt.getD now - sp.enteredAt -
        shut (closedPeriods o.spans t now) sp.enteredAt (sp.leftAt.getD now))
    else Value.absent) = _
  rw [hfree]
  by_cases hnone : free (closedPeriods o.spans t now) sp.enteredAt (sp.leftAt.getD now) = 0
  · rw [if_neg (by omega), if_pos hnone]
  · rw [if_pos (by omega), if_neg hnone]

/-! ### The state's spans -/

/-- The length of a value that is a duration. -/
def Value.lasted : Value → Option Int
  | .duration d => some d
  | _ => none

/-- The durations of an object's state spans that are present. -/
def stateDurations (t : FlowType) (o : Object) (now : Int) : List Int :=
  (Spans.of o.spans "state").filterMap fun sp =>
    (spanDuration t o o.spans "state" sp (closedPeriods o.spans t now) now).lasted

/-- No span of a history begins after its last one. -/
theorem Contiguous.le_last {now : Int} {spans : List Span} (h : Contiguous now spans) :
    ∀ last ∈ spans.getLast?, ∀ sp ∈ spans, sp.enteredAt ≤ last.enteredAt := by
  induction spans with
  | nil => exact absurd h id
  | cons first rest ih =>
      cases rest with
      | nil =>
          intro last hlast sp hsp
          obtain rfl : first = last := Option.some.inj hlast
          rw [List.mem_singleton.mp hsp]
      | cons next rest =>
          intro last hlast sp hsp
          obtain ⟨-, hforward, hrest⟩ := h
          have hlast : last ∈ (next :: rest).getLast? := by simpa using hlast
          have hle := ih hrest last hlast
          cases hsp with
          | head => exact hforward.trans (hle next (List.mem_cons_self ..))
          | tail _ hsp => exact hle sp hsp

/-- Only a history's last span is current. -/
theorem Contiguous.last_current {now : Int} {spans : List Span} (h : Contiguous now spans) :
    ∀ last ∈ spans.getLast?, last.leftAt = none := by
  induction spans with
  | nil => exact absurd h id
  | cons first rest ih =>
      intro last hlast
      cases rest with
      | nil =>
          obtain rfl := Option.some.inj hlast
          exact h.1
      | cons next rest => exact ih h.2.2 last (by simpa using hlast)

/-- A closed stretch begins no later than the span it is run back from. -/
theorem stretchBegan_le {t : FlowType} {bound : Int} {earlier : List Span} {entry : Int}
    (hentry : entry ≤ bound) (h : ∀ sp ∈ earlier, sp.enteredAt ≤ bound) :
    stretchBegan t entry earlier ≤ bound := by
  induction earlier generalizing entry with
  | nil => exact hentry
  | cons sp earlier ih =>
      unfold stretchBegan
      split
      · exact ih (h sp (List.mem_cons_self ..)) fun past hpast => h past (List.mem_cons_of_mem _ hpast)
      · exact hentry

/-- Spans that each count their exit less their entry, the last up to a stop,
add up to the time from the first's entry to the stop. -/
theorem sum_lasted {now stop : Int} {duration : Span → Value}
    (hpast : ∀ sp out, sp.leftAt = some out → duration sp = .duration (out - sp.enteredAt))
    {spans : List Span} (h : Contiguous now spans)
    (hlast : ∀ last ∈ spans.getLast?, (duration last).lasted.getD 0 = stop - last.enteredAt) :
    ∀ first ∈ spans.head?,
      (spans.filterMap fun sp => (duration sp).lasted).sum = stop - first.enteredAt := by
  induction spans with
  | nil => exact absurd h id
  | cons sp rest ih =>
      intro first hfirst
      obtain rfl := Option.some.inj hfirst
      cases rest with
      | nil =>
          have hcurrent := hlast sp rfl
          cases hlasted : (duration sp).lasted with
          | none => simpa [hlasted] using hcurrent
          | some d => simpa [hlasted] using hcurrent
      | cons next rest =>
          obtain ⟨hleft, -, hrest⟩ := h
          have hrun := ih hrest (fun last hl => hlast last (by simpa using hl)) next rfl
          have hhead : (duration sp).lasted = some (next.enteredAt - sp.enteredAt) := by
            rw [hpast sp _ hleft]
            rfl
          rw [List.filterMap_cons, hhead]
          show (_ :: _).sum = _
          rw [List.sum_cons, hrun]
          omega

/-- A past span of the state counts its exit less its entry. -/
theorem spanDuration_past (t : FlowType) (o : Object) (closed : List (Int × Int)) (now : Int)
    (sp : Span) (out : Int) (h : sp.leftAt = some out) :
    spanDuration t o o.spans "state" sp closed now = .duration (out - sp.enteredAt) := by
  unfold spanDuration
  simp [h]

/-- The current span of the state counts up to now while the object is open,
and nothing once it is done. -/
theorem spanDuration_current {o : Object} {now : Int} (h : o.WellFormed now) (t : FlowType)
    (closed : List (Int × Int)) {last : Span} (hlast : last ∈ (Spans.of o.spans "state").getLast?) :
    (spanDuration t o o.spans "state" last closed now).lasted.getD 0 =
      (if t.finished o.state then last.enteredAt else now) - last.enteredAt := by
  have hleft := h.states.last_current last hlast
  have hstate := h.current last hlast
  by_cases hfinished : t.finished o.state = true
  · have hbegan : stretchBegan t last.enteredAt (Spans.of o.spans "state").reverse ≤ last.enteredAt :=
      stretchBegan_le le_rfl fun sp hsp => h.states.le_last last hlast sp (List.mem_reverse.mp hsp)
    have hlast : (Spans.of o.spans "state").getLast? = some last := hlast
    unfold spanDuration
    simp [hleft, hfinished, hlast, hstate, Value.lasted, not_lt.mpr hbegan]
  · unfold spanDuration
    simp [hleft, hfinished, Value.lasted]

/-! ### Durations -/

/-- **Durations are exact**: over a well-formed history, a member's span that
is not empty counts its seconds outside the union of the object's closed or
terminal states' spans and is absent where there are none, and the durations of
its state's spans that are present add up to the time from its first span's
entry to now while its state is open, and to its current state's entry once
that is closed or terminal. -/
theorem durations_exact {o : Object} {now : Int} (h : o.WellFormed now) (t : FlowType) :
    (∀ member ≠ "state", ∀ sp ∈ Spans.of o.spans member, sp.enteredAt < sp.leftAt.getD now →
      spanDuration t o o.spans member sp (closedPeriods o.spans t now) now =
        if free (closedPeriods o.spans t now) sp.enteredAt (sp.leftAt.getD now) = 0 then .absent
        else .duration
          (free (closedPeriods o.spans t now) sp.enteredAt (sp.leftAt.getD now))) ∧
    ∀ first ∈ (Spans.of o.spans "state").head?, ∀ last ∈ (Spans.of o.spans "state").getLast?,
      (stateDurations t o now).sum =
        (if t.finished o.state then last.enteredAt else now) - first.enteredAt := by
  refine ⟨fun member hmember sp hsp hlong => spanDuration_member h t hmember hsp hlong, ?_⟩
  intro first hfirst last hlast
  refine sum_lasted (spanDuration_past t o _ now) h.states ?_ first hfirst
  intro last' hlast'
  obtain rfl : last = last' := Option.mem_unique hlast hlast'
  exact spanDuration_current h t _ hlast

/-- A job open from 0, shelved from 10 and done from 20, its engineer on it all
along. -/
def shelvedJob : Object where
  id := "1"
  type := "Job"
  state := "DONE"
  spans := [
    ("engineer", [{ value := .object "9", enteredPosition := 1, enteredAt := 0 }]),
    ("state", [
      { value := .state "Job" "OPEN", enteredPosition := 1, enteredAt := 0,
        leftPosition := some 2, leftAt := some 10 },
      { value := .state "Job" "SHELVED", enteredPosition := 2, enteredAt := 10,
        leftPosition := some 3, leftAt := some 20 },
      { value := .state "Job" "DONE", enteredPosition := 3, enteredAt := 20 }])]

/-- Its type, open in one state and closed in the other two. -/
def shelvedType : FlowType where
  name := "Job"
  states := [("OPEN", {}), ("SHELVED", { category := "closed" }), ("DONE", { category := "closed" })]

/-- The shelved job's history is well formed at 25. -/
theorem shelvedJob_wellFormed : shelvedJob.WellFormed 25 where
  states := by
    refine ⟨rfl, ?_, rfl, ?_, rfl, ?_⟩
    · decide
    · decide
    · decide
  current := by
    intro last hlast
    obtain rfl := Option.some.inj hlast
    rfl
  forward := by
    intro member sp hsp
    simp only [Spans.of, shelvedJob, Table.get?] at hsp
    grind

/-- The shelved job's engineer worked on it for the ten seconds it was open, and
its states' durations make up the twenty until it was done. -/
theorem durations_exact_shelvedJob :
    free (closedPeriods shelvedJob.spans shelvedType 25) 0 25 = 10 ∧
      (stateDurations shelvedType shelvedJob 25).sum = 20 := by
  obtain ⟨hmember, hstate⟩ := durations_exact shelvedJob_wellFormed shelvedType
  have hspan := hmember "engineer" (by decide) _ (List.mem_cons_self ..) (by decide)
  have hten : spanDuration shelvedType shelvedJob shelvedJob.spans "engineer"
      { value := .object "9", enteredPosition := 1, enteredAt := 0 }
      (closedPeriods shelvedJob.spans shelvedType 25) 25 = .duration 10 := rfl
  refine ⟨?_, hstate _ rfl _ rfl⟩
  rw [hten] at hspan
  split at hspan
  · cases hspan
  · exact (Value.duration.inj hspan).symm

/-- The shelved job is in an unbroken stretch of closed states from 10, and its
states' durations make up more than the time to there. -/
theorem past_closed_counted :
    ¬ ∀ (o : Object) (now : Int) (t : FlowType), o.WellFormed now → t.finished o.state = true →
      ∀ first ∈ (Spans.of o.spans "state").head?, ∀ last ∈ (Spans.of o.spans "state").getLast?,
        (stateDurations t o now).sum =
          stretchBegan t last.enteredAt (Spans.of o.spans "state").reverse - first.enteredAt := by
  intro h
  exact absurd (h shelvedJob 25 shelvedType shelvedJob_wellFormed rfl _ rfl _ rfl) (by decide)

end ObjectFlow
