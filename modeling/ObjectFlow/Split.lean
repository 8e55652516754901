import ObjectFlow.Base.Interval
import ObjectFlow.Civil
import ObjectFlow.FlowData

/-!
# Spans split across the periods they cover

A metric over spans may read each in pieces: a span is cut at every boundary of
a calendar bucket it crosses, and a window keeps the part of each piece that
lies in it.  A state's span counts all its time, a member's only the time its
object was open.
-/

namespace ObjectFlow

open Base
open Base.Interval (times shut free cuts Boundaries Parts Piece Partition Tiles)

/-- The start of the bucket after the one a time is in, a week beginning on
Monday. -/
def nextBoundary (unit : String) (seconds : Int) : Int :=
  let days := seconds / 86400
  let (y, m, _) := civilFromDays days
  let next :=
    if unit = "day" then days + 1
    else if unit = "week" then days - (days + 3) % 7 + 7
    else if unit = "month" then
      if m = 12 then daysFromCivil (y + 1) 1 1 else daysFromCivil y (m + 1) 1
    else if unit = "quarter" then
      let first := (m - 1) / 3 * 3 + 4
      if first > 12 then daysFromCivil (y + 1) (first - 12) 1 else daysFromCivil y first 1
    else daysFromCivil (y + 1) 1 1
  next * 86400

/-- A span's row as one of its pieces. -/
def pieceRow (fields : Table String Value) (period : String) (start stop duration : Value) :
    Value :=
  .row (Table.set (Table.set (Table.set (Table.set fields "period" (.text period))
    "piece_start" start) "piece_end" stop) "duration" duration)

/-- Up to when a span with a duration is cut. -/
def cutStop (w : World) (member : String) (sp : Span) (d : Int) : Int :=
  if member = "state" then sp.enteredAt + d else sp.leftAt.getD w.now

/-- The time a span does not count: for a member's, that its object was closed. -/
def cutClosed (w : World) (spans : Spans) (t : FlowType) (member : String) : List (Int × Int) :=
  if member = "state" then [] else closedPeriods spans t w.now

/-- A span cut at every bucket boundary it crosses, each piece with its bucket,
its bounds and its duration; one with no duration is one piece, in the bucket
it began, with none. -/
def pieces (w : World) (spans : Spans) (t : FlowType) (member : String) (sp : Span) (row : Value)
    (unit : String) : List Value :=
  match row with
  | .row fields =>
      match Table.get? fields "duration" with
      | some (.duration d) =>
          let stop := cutStop w member sp d
          let closed := cutClosed w spans t member
          (cuts (nextBoundary unit) stop ((stop - sp.enteredAt).toNat + 1) sp.enteredAt).map
            fun part => pieceRow fields (bucket unit part.1) (.timestamp part.1)
              (.timestamp part.2) (.duration (part.2 - part.1 - shut closed part.1 part.2))
      | _ => [pieceRow fields (bucket unit sp.enteredAt) (.timestamp sp.enteredAt) .absent .absent]
  | _ => []

/-- The time a field holds. -/
def timeIn : Option Value → Option Int
  | some (.timestamp t) => some t
  | _ => none

/-- The part of a piece between two times, both included, or none where it has
none there. -/
def clipped (piece : Value) (low high : Int) : Option Value :=
  match piece with
  | .row shared =>
      match timeIn (Table.get? shared "piece_start") with
      | none => none
      | some start =>
          let whole := if low ≤ start ∧ start ≤ high then some (.row shared) else none
          match Table.get? shared "duration" with
          | some (.duration d) =>
              if d = 0 then whole
              else
                match timeIn (Table.get? shared "piece_end") with
                | none => none
                | some stop =>
                    let a := max start low
                    let b := min stop high
                    if b ≤ a then none
                    else some (.row (Table.set (Table.set (Table.set shared
                      "piece_start" (.timestamp a)) "piece_end" (.timestamp b))
                      "duration" (.duration (b - a))))
          | _ => whole
  | _ => none

/-- What a window of some length before now leaves of rows split. -/
def windowed (w : World) (window : Option Int) (rows : List Value) : List Value :=
  match window with
  | none => rows
  | some width => rows.filterMap fun r => clipped r (w.now - width) w.now

/-- An object's spans, each in its pieces.  A type the library does not hold, or
a member not tracked, does not run. -/
def objectPieces (w : World) (member unit : String) (o : Object) : Option (List Value) := do
  let t ← w.lib.type? o.type
  let rows ← intervalRows w o t member
  pure (((Spans.of o.spans member).zip rows).flatMap fun span =>
    pieces w o.spans t member span.1 span.2 unit)

/-- A split metric's rows before its filters. -/
def splitRows (w : World) (owner member unit : String) (window : Option Int) :
    Option (List Value) := do
  let found ← (w.ofType owner).mapM (objectPieces w member unit)
  pure (windowed w window found.flatten)

/-- The pieces read of one span. -/
def splitSpan (w : World) (o : Object) (t : FlowType) (member unit : String) (window : Option Int)
    (sp : Span) (row : Value) : List Value :=
  windowed w window (pieces w o.spans t member sp row unit)

/-! ### Buckets follow one another -/

/-- The first day of a bucket of a unit, by its number. -/
def bucketStart (unit : String) (n : Int) : Int :=
  if unit = "day" then n
  else if unit = "week" then 7 * n - 3
  else if unit = "month" then monthStart n
  else if unit = "quarter" then monthStart (3 * n)
  else monthStart (12 * n)

/-- A day is in the bucket whose first day it is not before, and before the
first of the next. -/
theorem bucketNumber_iff (unit : String) (z n : Int) :
    bucketNumber unit z = n ↔ bucketStart unit n ≤ z ∧ z < bucketStart unit (n + 1) := by
  have hmonth : ∀ k : Int, z < monthStart k ↔ monthOf z < k := by
    intro k
    rw [← not_le, monthStart_le_iff, not_le]
  unfold bucketNumber bucketStart
  by_cases hday : unit = "day"
  · simp only [if_pos hday]
    omega
  by_cases hweek : unit = "week"
  · simp only [if_neg hday, if_pos hweek]
    omega
  simp only [if_neg hday, if_neg hweek]
  by_cases hm : unit = "month"
  · simp only [if_pos hm, hmonth, monthStart_le_iff]
    omega
  by_cases hquarter : unit = "quarter"
  · simp only [if_neg hm, if_pos hquarter, hmonth, monthStart_le_iff]
    omega
  · simp only [if_neg hm, if_neg hquarter, hmonth, monthStart_le_iff]
    omega

theorem nextBoundary_eq (unit : String) (seconds : Int) :
    nextBoundary unit seconds =
      bucketStart unit (bucketNumber unit (seconds / 86400) + 1) * 86400 := by
  generalize hdays : seconds / 86400 = z
  obtain ⟨hm, hm'⟩ := civil_month z
  have hnext : ∀ {y : Int} {m : Nat}, 1 ≤ m → m ≤ 12 →
      daysFromCivil y m 1 = monthStart (12 * y + (m : Int) - 1) :=
    fun h h' => (monthStart_of h h').symm
  unfold nextBoundary bucketNumber bucketStart
  dsimp only
  rw [hdays]
  generalize hdate : civilFromDays z = date at hm hm'
  have hof : monthOf z = 12 * date.1 + (date.2.1 : Int) - 1 := by rw [monthOf, hdate]
  obtain ⟨y, m, d⟩ := date
  dsimp only at hm hm' hof ⊢
  by_cases hday : unit = "day"
  · simp only [if_pos hday]
  by_cases hweek : unit = "week"
  · simp only [if_neg hday, if_pos hweek]
    omega
  by_cases hmonth : unit = "month"
  · simp only [if_neg hday, if_neg hweek, if_pos hmonth, hof]
    by_cases htwelve : m = 12
    · rw [if_pos htwelve, hnext (le_refl _) (by omega)]
      congr 2
      omega
    · rw [if_neg htwelve, hnext (by omega) (by omega)]
      congr 2
      omega
  by_cases hquarter : unit = "quarter"
  · simp only [if_neg hday, if_neg hweek, if_neg hmonth, if_pos hquarter, hof]
    by_cases hlast : (m - 1) / 3 * 3 + 4 > 12
    · rw [if_pos hlast, hnext (by omega) (by omega)]
      congr 2
      omega
    · rw [if_neg hlast, hnext (by omega) (by omega)]
      congr 2
      omega
  · simp only [if_neg hday, if_neg hweek, if_neg hmonth, if_neg hquarter, hof]
    rw [hnext (le_refl _) (by omega)]
    congr 2
    omega

/-- The next boundary is the first second of the bucket after. -/
theorem bucket_boundaries (unit : String) : Boundaries (bucket unit) (nextBoundary unit) where
  forward t := by
    obtain ⟨_, hhigh⟩ := (bucketNumber_iff unit (t / 86400) _).mp rfl
    rw [nextBoundary_eq]
    omega
  same {t s} hts := by
    obtain ⟨hlow, _⟩ := (bucketNumber_iff unit (t / 86400) _).mp rfl
    rw [bucket_eq_iff, nextBoundary_eq, bucketNumber_iff]
    omega

/-! ### What the pieces say -/

/-- A row of a span split, as the piece it is. -/
def pieceOf (row : Value) : Option (Piece String) :=
  match row with
  | .row fields =>
      match Table.get? fields "period", timeIn (Table.get? fields "piece_start"),
        timeIn (Table.get? fields "piece_end"), Table.get? fields "duration" with
      | some (.text period), some start, some stop, some (.duration d) =>
          some ⟨period, start, stop, d⟩
      | _, _, _, _ => none
  | _ => none

/-- A piece cut of a span, between two seconds in one bucket. -/
def cutPiece (unit : String) (closed : List (Int × Int)) (part : Int × Int) : Piece String :=
  ⟨bucket unit part.1, part.1, part.2, part.2 - part.1 - shut closed part.1 part.2⟩

/-- What a window leaves of a piece. -/
def clipPiece (low high : Int) (p : Piece String) : Option (Piece String) :=
  if p.duration = 0 then (if low ≤ p.start ∧ p.start ≤ high then some p else none)
  else if min p.stop high ≤ max p.start low then none
  else some ⟨p.label, max p.start low, min p.stop high, min p.stop high - max p.start low⟩

theorem pieceOf_pieceRow (fields : Table String Value) (period : String) (a b d : Int) :
    pieceOf (pieceRow fields period (.timestamp a) (.timestamp b) (.duration d)) =
      some ⟨period, a, b, d⟩ := by
  simp [pieceOf, pieceRow, timeIn]

theorem clipped_pieceRow (fields : Table String Value) (p : Piece String) (low high : Int) :
    (clipped (pieceRow fields p.label (.timestamp p.start) (.timestamp p.stop)
      (.duration p.duration)) low high).map pieceOf = (clipPiece low high p).map some := by
  unfold clipped clipPiece
  by_cases hzero : p.duration = 0
  · by_cases hin : low ≤ p.start ∧ p.start ≤ high
    · simp [pieceRow, pieceOf, timeIn, hzero, hin]
      rw [← hzero]
    · simp [pieceRow, timeIn, hzero, hin]
  · by_cases hnone : min p.stop high ≤ max p.start low
    · simp [pieceRow, timeIn, hzero, hnone]
    · simp [pieceRow, pieceOf, timeIn, hzero, hnone]

/-- Rows read as pieces where each is the row of one. -/
theorem mapM_pieceOf {α : Type} {f : α → Option Value} {g : α → Option (Piece String)}
    (h : ∀ a, (f a).map pieceOf = (g a).map some) (l : List α) :
    (l.filterMap f).mapM pieceOf = some (l.filterMap g) := by
  induction l with
  | nil => rfl
  | cons a rest ih =>
    have ha := h a
    cases hf : f a with
    | none =>
      rw [hf, Option.map_none, eq_comm, Option.map_eq_none_iff] at ha
      rw [List.filterMap_cons_none hf, List.filterMap_cons_none ha, ih]
    | some row =>
      rw [hf, Option.map_some, eq_comm, Option.map_eq_some_iff] at ha
      obtain ⟨p, hg, hrow⟩ := ha
      rw [List.filterMap_cons_some hf, List.filterMap_cons_some hg, List.mapM_cons, ih, ← hrow]
      rfl

/-- What a window leaves of the pieces of the parts a span was cut in. -/
def cutPieces (unit : String) (closed : List (Int × Int)) (window : Option (Int × Int))
    (parts : List (Int × Int)) : List (Piece String) :=
  match window with
  | none => parts.map (cutPiece unit closed)
  | some (low, high) => parts.filterMap fun part => clipPiece low high (cutPiece unit closed part)

/-! ### When they partition the span -/

/-- The seconds of a span in one bucket. -/
def BucketPart (unit : String) (start stop a b : Int) : Prop :=
  a < b ∧ ∀ t, (a ≤ t ∧ t < b) ↔ (start ≤ t ∧ t < stop ∧ bucket unit t = bucket unit a)

/-- A bucket's part of a span is read as it is within a window: where the
closed stretches leave some of its length, no second of it in the window is
closed; where they leave none, it lies wholly in the window and each second of
it is closed, or wholly outside, not beginning where the window ends. -/
def PartExact (closed : List (Int × Int)) (low high a b : Int) : Prop :=
  if shut closed a b = b - a then
    (low ≤ a ∧ b ≤ high ∧ ∀ t, a ≤ t → t < b → times closed t ≠ 0) ∨
      ((∀ t, a ≤ t → t < b → ¬ (low ≤ t ∧ t < high)) ∧ ¬ (low ≤ a ∧ a ≤ high))
  else ∀ t, a ≤ t → t < b → low ≤ t → t < high → times closed t = 0

/-- The bounds of a span within a window. -/
def within (window : Option (Int × Int)) (start stop : Int) : Int × Int :=
  match window with
  | none => (start, stop)
  | some (low, high) => (max start low, min stop high)

/-- When the pieces of a span are its parts in the window, each with the time
it counts. -/
def CutsExact (unit : String) (closed : List (Int × Int)) (window : Option (Int × Int))
    (start stop : Int) : Prop :=
  match window with
  | none => start ≤ stop ∧ ∀ t, start ≤ t → t < stop → times closed t ≤ 1
  | some (low, high) => ∀ a b, BucketPart unit start stop a b → PartExact closed low high a b

section

variable {unit : String} {closed : List (Int × Int)} {start stop low high : Int}
  {parts : List (Int × Int)}

theorem cuts_bucket (h : start ≤ stop) : Parts (bucket unit) stop start
    (cuts (nextBoundary unit) stop ((stop - start).toNat + 1) start) :=
  Interval.cuts_parts (bucket_boundaries unit) h (by omega)

theorem bucketPart_iff (h : Parts (bucket unit) stop start parts) (a b : Int) :
    BucketPart unit start stop a b ↔ (a, b) ∈ parts ∧ a < b := by
  constructor
  · rintro ⟨hab, hall⟩
    exact ⟨(h.mem_iff hab).mpr hall, hab⟩
  · rintro ⟨hmem, hab⟩
    exact ⟨hab, (h.mem_iff hab).mp hmem⟩

theorem tiles_cutPiece (h : Parts (bucket unit) stop start parts) :
    Tiles stop start (parts.map (cutPiece unit closed)) := by
  induction h with
  | last hlow _ => exact ⟨rfl, hlow, le_refl _, le_refl _⟩
  | step hlow hcut _ _ _ ih => exact ⟨rfl, le_of_lt hlow, le_of_lt hcut, ih⟩

/-- Without a window, the pieces partition a span that does not end before it
begins and of which no second is closed twice over. -/
theorem map_cutPiece_iff (h : start ≤ stop) :
    Partition (bucket unit) (free closed) start stop
        ((cuts (nextBoundary unit) stop ((stop - start).toNat + 1) start).map
          (cutPiece unit closed)) ↔
      ∀ t, start ≤ t → t < stop → times closed t ≤ 1 := by
  have hparts : Parts (bucket unit) stop start _ := cuts_bucket h
  generalize cuts (nextBoundary unit) stop ((stop - start).toNat + 1) start = parts at hparts
  constructor
  · intro hpartition t hlow hhigh
    obtain ⟨p, hp, hin⟩ := hparts.exists_part t hlow hhigh
    have hforward := (hparts.part p hp).2.1
    have hduration := hpartition.duration _ (List.mem_map_of_mem hp)
    exact (Interval.length_sub_shut_iff closed hforward).mp hduration t hin.1 hin.2
  · intro honce
    apply Interval.Partition.of_tiles closed (tiles_cutPiece hparts)
    · intro p hp
      obtain ⟨part, _, rfl⟩ := List.mem_map.mp hp
      rfl
    · intro p hp t hlow hhigh
      obtain ⟨part, hmem, rfl⟩ := List.mem_map.mp hp
      exact (hparts.part part hmem).2.2.2.1 t hlow hhigh
    · rw [List.map_map]
      exact hparts.pairwise.map _ fun _ _ hne => hne
    · intro p hp
      obtain ⟨part, hmem, rfl⟩ := List.mem_map.mp hp
      obtain ⟨hfirst, hforward, hlast, _⟩ := hparts.part part hmem
      apply (Interval.length_sub_shut_iff closed hforward).mpr
      intro t hlow hhigh
      exact honce t (by omega) (by omega)

theorem clipPiece_cutPiece (unit : String) (closed : List (Int × Int)) (low high : Int)
    (part : Int × Int) :
    clipPiece low high (cutPiece unit closed part) =
      if part.2 - part.1 - shut closed part.1 part.2 = 0 then
        if low ≤ part.1 ∧ part.1 ≤ high then some (cutPiece unit closed part) else none
      else if min part.2 high ≤ max part.1 low then none
      else some ⟨bucket unit part.1, max part.1 low, min part.2 high,
        min part.2 high - max part.1 low⟩ := rfl

/-- What a window leaves of a piece lies within its part. -/
theorem clipPiece_within {part : Int × Int} {p : Piece String} (hpart : part.1 ≤ part.2)
    (h : clipPiece low high (cutPiece unit closed part) = some p) :
    p.label = bucket unit part.1 ∧ part.1 ≤ p.start ∧ p.stop ≤ part.2 ∧
      (p.start = part.1 ∨ p.start < part.2) := by
  rw [clipPiece_cutPiece] at h
  split at h
  · split at h
    · cases h
      exact ⟨rfl, le_refl _, le_refl _, .inl rfl⟩
    · cases h
  · split at h
    · cases h
    · cases h
      refine ⟨rfl, ?_, ?_, ?_⟩ <;> dsimp only <;> omega

/-- A part read as it is within a window is clipped to what of it lies there. -/
theorem clipPiece_of_exact {p : Int × Int} (hpart : p.1 < p.2)
    (h : PartExact closed low high p.1 p.2) :
    clipPiece low high (cutPiece unit closed p) =
      if max p.1 low < min p.2 high then
        some ⟨bucket unit p.1, max p.1 low, min p.2 high,
          free closed (max p.1 low) (min p.2 high)⟩
      else none := by
  unfold PartExact at h
  rw [clipPiece_cutPiece]
  by_cases hshut : shut closed p.1 p.2 = p.2 - p.1
  · rw [if_pos hshut] at h
    rw [if_pos (by omega)]
    rcases h with ⟨hlow, hhigh, hclosed⟩ | ⟨hout, hbegins⟩
    · have hnone := (Interval.free_eq_zero_iff closed p.1 p.2).mpr hclosed
      rw [if_pos ⟨hlow, by omega⟩, if_pos (by omega), max_eq_left hlow, min_eq_left hhigh, hnone]
      simp [cutPiece, hshut]
    · have hnone : ¬ max p.1 low < min p.2 high := by
        intro hsome
        exact hout (max p.1 low) (by omega) (by omega) (by omega)
      rw [if_neg hbegins, if_neg hnone]
  · rw [if_neg hshut] at h
    rw [if_neg (by omega)]
    by_cases hnone : min p.2 high ≤ max p.1 low
    · rw [if_pos hnone, if_neg (by omega)]
    · have hfree : min p.2 high - max p.1 low =
          free closed (max p.1 low) (min p.2 high) := by
        apply (Interval.free_eq_length_iff closed (by omega)).mpr
        intro t hlow hhigh
        exact h t (by omega) (by omega) (by omega) (by omega)
      rw [if_neg hnone, if_pos (by omega), hfree]

/-- A part of no length is kept where it begins in the window. -/
theorem clipPiece_empty (low high a : Int) :
    clipPiece low high (cutPiece unit closed (a, a)) =
      if low ≤ a ∧ a ≤ high then some ⟨bucket unit a, a, a, 0⟩ else none := by
  have hshut : shut closed a a = 0 := by
    rw [Interval.shut_eq_sum]
    simp
  unfold clipPiece
  simp [cutPiece, hshut]

theorem tiles_clipPiece (h : Parts (bucket unit) stop start parts)
    (hexact : ∀ p ∈ parts, p.1 < p.2 → PartExact closed low high p.1 p.2) :
    Tiles (min stop high) (max start low)
      (parts.filterMap fun part => clipPiece low high (cutPiece unit closed part)) := by
  induction h with
  | @last start hlow hcell =>
    by_cases hempty : start = stop
    · subst hempty
      simp only [List.filterMap_cons, List.filterMap_nil, clipPiece_empty]
      by_cases hin : low ≤ start ∧ start ≤ high
      · rw [if_pos hin]
        exact ⟨by dsimp only; omega, by dsimp only; omega, by dsimp only; omega,
          by unfold Tiles; dsimp only; omega⟩
      · rw [if_neg hin]
        unfold Tiles
        omega
    · have hone := hexact (start, stop) List.mem_cons_self (by dsimp only; omega)
      simp only [List.filterMap_cons, List.filterMap_nil,
        clipPiece_of_exact (p := (start, stop)) (by dsimp only; omega) hone]
      by_cases hin : max start low < min stop high
      · rw [if_pos hin]
        exact ⟨rfl, le_of_lt hin, le_refl _, by unfold Tiles; dsimp only; omega⟩
      · rw [if_neg hin]
        unfold Tiles
        omega
  | @step start cut rest hlow hcut hcell hother hrest ih =>
    obtain ⟨hone, hexact⟩ := List.forall_mem_cons.mp hexact
    have htiles := ih hexact
    simp only [List.filterMap_cons,
      clipPiece_of_exact (p := (start, cut)) hlow (hone hlow)]
    by_cases hin : max start low < min cut high
    · rw [if_pos hin]
      refine ⟨rfl, le_of_lt hin, by dsimp only; omega, ?_⟩
      dsimp only
      by_cases hend : cut ≤ high
      · rw [min_eq_left hend]
        rw [max_eq_left (by omega)] at htiles
        exact htiles
      · -- the window ends within the part, and nothing after is in it
        have hnil := htiles.eq_nil (by omega)
        rw [hnil]
        unfold Tiles
        omega
    · rw [if_neg hin]
      dsimp only
      by_cases hbefore : cut ≤ low
      · rw [max_eq_right hbefore] at htiles
        rw [max_eq_right (by omega)]
        exact htiles
      · have hnil := htiles.eq_nil (by omega)
        rw [hnil]
        unfold Tiles
        omega

/-- Within a window, the pieces partition what of the span lies in it exactly
where each bucket's part of the span is read as it is. -/
theorem filterMap_clipPiece_iff (h : Parts (bucket unit) stop start parts) :
    Partition (bucket unit) (free closed) (max start low) (min stop high)
        (parts.filterMap fun part => clipPiece low high (cutPiece unit closed part)) ↔
      ∀ p ∈ parts, p.1 < p.2 → PartExact closed low high p.1 p.2 := by
  constructor
  · intro hpartition p hp hlength
    obtain ⟨hfirst, _, hlast, _⟩ := h.part p hp
    -- a second of the part in the window is in the piece of this part
    have hcovered : ∀ t, p.1 ≤ t → t < p.2 → low ≤ t → t < high →
        ∃ q, clipPiece low high (cutPiece unit closed p) = some q ∧ q.start ≤ t ∧ t < q.stop := by
      intro t hlow hhigh hlow' hhigh'
      obtain ⟨q, hq, hin⟩ := (hpartition.covers t).mpr ⟨by omega, by omega⟩
      obtain ⟨p', hp', hclip⟩ := List.mem_filterMap.mp hq
      obtain ⟨_, hstart, hstop, _⟩ := clipPiece_within (h.part p' hp').2.1 hclip
      have hsame := h.eq_of_mem hp' hp (t := t) (by omega) ⟨hlow, hhigh⟩
      rw [hsame] at hclip
      exact ⟨q, hclip, hin⟩
    have hduration : ∀ q, clipPiece low high (cutPiece unit closed p) = some q →
        q.duration = free closed q.start q.stop := fun q hq =>
      hpartition.duration q (List.mem_filterMap.mpr ⟨p, hp, hq⟩)
    rw [clipPiece_cutPiece] at hcovered hduration
    unfold PartExact
    by_cases hshut : shut closed p.1 p.2 = p.2 - p.1
    · rw [if_pos hshut]
      rw [if_pos (by omega)] at hcovered hduration
      by_cases hbegins : low ≤ p.1 ∧ p.1 ≤ high
      · rw [if_pos hbegins] at hcovered hduration
        have hmem : cutPiece unit closed p ∈
            parts.filterMap fun part => clipPiece low high (cutPiece unit closed part) := by
          refine List.mem_filterMap.mpr ⟨p, hp, ?_⟩
          rw [clipPiece_cutPiece, if_pos (by omega), if_pos hbegins]
        have hend := (hpartition.covers (p.2 - 1)).mp
          ⟨_, hmem, show p.1 ≤ p.2 - 1 by omega, show p.2 - 1 < p.2 by omega⟩
        have hnone := hduration _ rfl
        dsimp only [cutPiece] at hnone
        refine .inl ⟨hbegins.1, by omega, ?_⟩
        exact (Interval.free_eq_zero_iff closed p.1 p.2).mp (by omega)
      · rw [if_neg hbegins] at hcovered
        refine .inr ⟨fun t hlow hhigh hin => ?_, hbegins⟩
        obtain ⟨q, hq, _⟩ := hcovered t hlow hhigh hin.1 hin.2
        cases hq
    · rw [if_neg hshut]
      rw [if_neg (by omega)] at hcovered hduration
      intro t hlow hhigh hlow' hhigh'
      rw [if_neg (by omega)] at hduration
      have hfree := hduration _ rfl
      dsimp only at hfree
      exact (Interval.free_eq_length_iff closed (by omega)).mp hfree t (by omega) (by omega)
  · intro hexact
    have hpiece : ∀ p ∈ parts, ∀ q, clipPiece low high (cutPiece unit closed p) = some q →
        q.duration = free closed q.start q.stop := by
      intro p hp q hq
      have hforward := (h.part p hp).2.1
      by_cases hlength : p.1 < p.2
      · rw [clipPiece_of_exact hlength (hexact p hp hlength)] at hq
        split at hq
        · cases hq
          rfl
        · cases hq
      · obtain ⟨a, b⟩ := p
        obtain rfl : a = b := by
          dsimp only at hforward hlength
          omega
        rw [clipPiece_empty] at hq
        split at hq
        · cases hq
          rw [Interval.free_of_le closed (le_refl _)]
        · cases hq
    have hof : ∀ q ∈ parts.filterMap fun part => clipPiece low high (cutPiece unit closed part),
        ∃ p ∈ parts, clipPiece low high (cutPiece unit closed p) = some q := fun q hq =>
      List.mem_filterMap.mp hq
    apply Interval.Partition.of_tiles closed (tiles_clipPiece h hexact)
    · intro q hq
      obtain ⟨p, hp, hclip⟩ := hof q hq
      obtain ⟨_, hforward, _, hone, _⟩ := h.part p hp
      obtain ⟨hlabel, hstart, _, hbegins⟩ := clipPiece_within hforward hclip
      rw [hlabel]
      rcases hbegins with hbegins | hbegins
      · rw [hbegins]
      · exact hone q.start hstart hbegins
    · intro q hq t hlow hhigh
      obtain ⟨p, hp, hclip⟩ := hof q hq
      obtain ⟨_, hforward, _, hone, _⟩ := h.part p hp
      obtain ⟨hlabel, hstart, hstop, _⟩ := clipPiece_within hforward hclip
      rw [hlabel]
      exact hone t (by omega) (by omega)
    · have hlabels : ∀ p ∈ parts, ∀ q, clipPiece low high (cutPiece unit closed p) = some q →
          q.label = bucket unit p.1 := fun p hp q hclip =>
        (clipPiece_within (h.part p hp).2.1 hclip).1
      unfold List.Nodup
      rw [List.pairwise_map, List.pairwise_filterMap]
      refine h.pairwise.imp_of_mem fun {p p'} hp hp' hne q hq q' hq' => ?_
      rw [hlabels p hp q hq, hlabels p' hp' q' hq']
      exact hne
    · intro q hq
      obtain ⟨p, hp, hclip⟩ := hof q hq
      exact hpiece p hp q hclip

/-- A span that ends before it begins has no part in any window. -/
theorem cutPieces_inverted (h : stop < start) :
    (cuts (nextBoundary unit) stop ((stop - start).toNat + 1) start).filterMap
      (fun part => clipPiece low high (cutPiece unit closed part)) = [] := by
  have hshut : shut closed start stop = 0 := by
    rw [Interval.shut_eq_sum, Finset.Ico_eq_empty (by omega), Finset.sum_empty]
  rw [Interval.cuts_inverted (bucket_boundaries unit).forward h]
  rw [List.filterMap_cons_none, List.filterMap_nil]
  rw [clipPiece_cutPiece]
  dsimp only
  rw [if_neg (by omega), if_pos (by omega)]

/-- **The pieces a window leaves of a span partition the part of it there
exactly where each of its buckets' parts is read as it is.** -/
theorem cutPieces_iff (unit : String) (closed : List (Int × Int)) (window : Option (Int × Int))
    (start stop : Int) :
    Partition (bucket unit) (free closed) (within window start stop).1
        (within window start stop).2 (cutPieces unit closed window
          (cuts (nextBoundary unit) stop ((stop - start).toNat + 1) start)) ↔
      CutsExact unit closed window start stop := by
  cases window with
  | none =>
    unfold cutPieces within CutsExact
    dsimp only
    by_cases h : start ≤ stop
    · rw [map_cutPiece_iff h]
      exact ⟨fun honce => ⟨h, honce⟩, fun hexact => hexact.2⟩
    · constructor
      · intro hpartition
        rw [Interval.cuts_inverted (bucket_boundaries unit).forward (by omega)] at hpartition
        have hforward := hpartition.forward _ List.mem_cons_self
        dsimp only [cutPiece] at hforward
        omega
      · exact fun hexact => absurd hexact.1 h
  | some bounds =>
    obtain ⟨low, high⟩ := bounds
    unfold cutPieces within CutsExact
    dsimp only
    by_cases h : start ≤ stop
    · have hparts : Parts (bucket unit) stop start _ := cuts_bucket h
      rw [filterMap_clipPiece_iff hparts]
      constructor
      · intro hexact a b hpart
        obtain ⟨hmem, hlength⟩ := (bucketPart_iff hparts a b).mp hpart
        exact hexact (a, b) hmem hlength
      · intro hexact p hp hlength
        exact hexact p.1 p.2 ((bucketPart_iff hparts p.1 p.2).mpr ⟨hp, hlength⟩)
    · rw [cutPieces_inverted (by omega)]
      constructor
      · rintro _ a b ⟨hlength, hall⟩
        have hin := (hall a).mp ⟨le_refl _, hlength⟩
        omega
      · intro _
        have htiles : Tiles (min stop high) (max start low) ([] : List (Piece String)) := by
          unfold Tiles
          omega
        apply Interval.Partition.of_tiles closed htiles
        · exact fun p hp => absurd hp List.not_mem_nil
        · exact fun p hp => absurd hp List.not_mem_nil
        · exact List.nodup_nil
        · exact fun p hp => absurd hp List.not_mem_nil

end

/-! ### A split metric's rows -/

theorem windowed_flatten (w : World) (window : Option Int) (found : List (List Value)) :
    windowed w window found.flatten = (found.map (windowed w window)).flatten := by
  cases window with
  | none =>
    have hid : windowed w none = id := rfl
    rw [hid, List.map_id, id]
  | some width => exact List.filterMap_flatten

theorem windowed_flatMap {α : Type} (w : World) (window : Option Int) (f : α → List Value)
    (l : List α) : windowed w window (l.flatMap f) = l.flatMap fun a => windowed w window (f a) := by
  rw [List.flatMap_def, windowed_flatten, List.map_map, List.flatMap_def]
  rfl

/-- A split metric reads each span of each object in its own pieces. -/
theorem objectPieces_windowed {w : World} {member unit : String} (window : Option Int) {o : Object}
    {rows : List Value} (h : objectPieces w member unit o = some rows) :
    ∃ t spans, w.lib.type? o.type = some t ∧ intervalRows w o t member = some spans ∧
      windowed w window rows = ((Spans.of o.spans member).zip spans).flatMap fun span =>
        splitSpan w o t member unit window span.1 span.2 := by
  unfold objectPieces at h
  obtain ⟨t, ht, h⟩ := Option.bind_eq_some_iff.mp h
  obtain ⟨spans, hspans, h⟩ := Option.bind_eq_some_iff.mp h
  obtain rfl := Option.some.inj h
  exact ⟨t, spans, ht, hspans, windowed_flatMap w window _ _⟩

theorem splitRows_windowed {w : World} {owner member unit : String} {window : Option Int}
    {rows : List Value} (h : splitRows w owner member unit window = some rows) :
    ∃ found, (w.ofType owner).mapM (objectPieces w member unit) = some found ∧
      rows = (found.map (windowed w window)).flatten := by
  unfold splitRows at h
  obtain ⟨found, hfound, h⟩ := Option.bind_eq_some_iff.mp h
  obtain rfl := Option.some.inj h
  exact ⟨found, hfound, windowed_flatten w window found⟩

theorem mem_zip_map {α β : Type} {f : α → β} {l : List α} {p : α × β}
    (h : p ∈ l.zip (l.map f)) : p.2 = f p.1 := by
  induction l with
  | nil => cases h
  | cons a rest ih =>
    rw [List.map_cons, List.zip_cons_cons] at h
    rcases List.mem_cons.mp h with rfl | h
    · rfl
    · exact ih h

/-- A span's row holds its duration. -/
theorem intervalRows_duration {w : World} {o : Object} {t : FlowType} {member : String}
    {rows : List Value} (h : intervalRows w o t member = some rows) {span : Span × Value}
    (hspan : span ∈ (Spans.of o.spans member).zip rows) :
    ∃ fields, span.2 = .row fields ∧ Table.get? fields "duration" = some
      (spanDuration t o o.spans member span.1 (closedPeriods o.spans t w.now) w.now) := by
  unfold intervalRows at h
  obtain ⟨spans, hspans, rfl⟩ := Option.map_eq_some_iff.mp h
  have hof : Spans.of o.spans member = spans := by rw [Spans.of, hspans, Option.getD_some]
  rw [hof] at hspan
  rw [mem_zip_map hspan]
  refine ⟨_, rfl, ?_⟩
  by_cases hstate : member = "state" <;> simp [hstate]

/-- The window before now of a length, as its two ends. -/
def windowOf (w : World) (window : Option Int) : Option (Int × Int) :=
  window.map fun width => (w.now - width, w.now)

/-- The pieces a split metric reads of a span partition what of its stretch
lies in the window, each with the time the span counts in it; of a span with
no duration it reads none with an end or a duration. -/
def SplitExact (w : World) (o : Object) (t : FlowType) (member unit : String)
    (window : Option Int) (span : Span × Value) : Prop :=
  match spanDuration t o o.spans member span.1 (closedPeriods o.spans t w.now) w.now with
  | .duration d =>
      let bounds := within (windowOf w window) span.1.enteredAt (cutStop w member span.1 d)
      ∃ found, (splitSpan w o t member unit window span.1 span.2).mapM pieceOf = some found ∧
        Partition (bucket unit) (free (cutClosed w o.spans t member)) bounds.1 bounds.2 found
  | _ => ∀ r ∈ splitSpan w o t member unit window span.1 span.2, ∃ fields, r = .row fields ∧
      Table.get? fields "piece_end" = some .absent ∧ Table.get? fields "duration" = some .absent

/-- When they do: the span has no duration, or no second of it is closed twice
over and no window cuts it, or the window reads each bucket's part as it is. -/
def SplitsAsIs (w : World) (o : Object) (t : FlowType) (member unit : String)
    (window : Option Int) (sp : Span) : Prop :=
  ∀ d, spanDuration t o o.spans member sp (closedPeriods o.spans t w.now) w.now = .duration d →
    CutsExact unit (cutClosed w o.spans t member) (windowOf w window) sp.enteredAt
      (cutStop w member sp d)

/-- The rows of a span with a duration are the pieces a window leaves of its
parts. -/
theorem splitSpan_pieces (w : World) (o : Object) (t : FlowType) (member unit : String)
    (window : Option Int) (sp : Span) {fields : Table String Value} {d : Int}
    (h : Table.get? fields "duration" = some (.duration d)) :
    (splitSpan w o t member unit window sp (.row fields)).mapM pieceOf =
      some (cutPieces unit (cutClosed w o.spans t member) (windowOf w window)
        (cuts (nextBoundary unit) (cutStop w member sp d)
          ((cutStop w member sp d - sp.enteredAt).toNat + 1) sp.enteredAt)) := by
  have hpieces : pieces w o.spans t member sp (.row fields) unit =
      (cuts (nextBoundary unit) (cutStop w member sp d)
        ((cutStop w member sp d - sp.enteredAt).toNat + 1) sp.enteredAt).map fun part =>
          pieceRow fields (bucket unit part.1) (.timestamp part.1) (.timestamp part.2)
            (.duration (part.2 - part.1 - shut (cutClosed w o.spans t member) part.1 part.2)) := by
    unfold pieces
    dsimp only
    rw [h]
  unfold splitSpan windowed cutPieces windowOf
  rw [hpieces]
  cases window with
  | none =>
    dsimp only [Option.map_none]
    rw [← List.filterMap_eq_map, ← List.filterMap_eq_map]
    apply mapM_pieceOf
    intro part
    exact congrArg some (pieceOf_pieceRow fields _ _ _ _)
  | some width =>
    dsimp only [Option.map_some]
    rw [List.filterMap_map]
    apply mapM_pieceOf
    intro part
    exact clipped_pieceRow fields (cutPiece unit (cutClosed w o.spans t member) part) _ _

/-- The one row of a span with no duration has no end and no duration. -/
theorem splitSpan_absent (w : World) (o : Object) (t : FlowType) (member unit : String)
    (window : Option Int) (sp : Span) (fields : Table String Value)
    (h : ∀ d, Table.get? fields "duration" ≠ some (.duration d)) :
    ∀ r ∈ splitSpan w o t member unit window sp (.row fields), ∃ fields, r = .row fields ∧
      Table.get? fields "piece_end" = some .absent ∧
        Table.get? fields "duration" = some .absent := by
  have hpieces : pieces w o.spans t member sp (.row fields) unit =
      [pieceRow fields (bucket unit sp.enteredAt) (.timestamp sp.enteredAt) .absent .absent] := by
    unfold pieces
    dsimp only
    split
    · rename_i d hd
      exact absurd hd (h d)
    · rfl
  have hrow : ∃ row, pieceRow fields (bucket unit sp.enteredAt) (.timestamp sp.enteredAt) .absent
      .absent = .row row ∧ Table.get? row "piece_start" = some (.timestamp sp.enteredAt) ∧
        Table.get? row "piece_end" = some .absent ∧ Table.get? row "duration" = some .absent := by
    refine ⟨_, rfl, ?_, ?_, ?_⟩ <;> simp
  obtain ⟨row, hpiece, hstart, hstop, hduration⟩ := hrow
  intro r hr
  unfold splitSpan windowed at hr
  rw [hpieces, hpiece] at hr
  cases window with
  | none =>
    obtain rfl := List.mem_singleton.mp hr
    exact ⟨row, rfl, hstop, hduration⟩
  | some width =>
    obtain ⟨piece, hmem, hclip⟩ := List.mem_filterMap.mp hr
    obtain rfl := List.mem_singleton.mp hmem
    have hwhole : clipped (.row row) (w.now - width) w.now =
        if w.now - width ≤ sp.enteredAt ∧ sp.enteredAt ≤ w.now then some (.row row) else none := by
      simp only [clipped, hstart, hduration, timeIn]
    rw [hwhole] at hclip
    split at hclip
    · obtain rfl := Option.some.inj hclip
      exact ⟨row, rfl, hstop, hduration⟩
    · cases hclip

/-- **A span's pieces are its parts in the window, each with the time it counts
there, exactly where no bucket's part is clipped over closed time.** -/
theorem splitSpan_exact_iff {w : World} {o : Object} {t : FlowType} {member : String}
    {rows : List Value} (h : intervalRows w o t member = some rows) (unit : String)
    (window : Option Int) {span : Span × Value}
    (hspan : span ∈ (Spans.of o.spans member).zip rows) :
    SplitExact w o t member unit window span ↔ SplitsAsIs w o t member unit window span.1 := by
  obtain ⟨fields, hrow, hduration⟩ := intervalRows_duration h hspan
  unfold SplitExact SplitsAsIs
  rw [hrow]
  generalize spanDuration t o o.spans member span.1 (closedPeriods o.spans t w.now) w.now =
    duration at hduration
  by_cases hhas : ∃ d, duration = .duration d
  · obtain ⟨d, rfl⟩ := hhas
    dsimp only
    rw [splitSpan_pieces w o t member unit window span.1 hduration]
    constructor
    · rintro ⟨found, hfound, hpartition⟩ d' hd'
      obtain rfl := Option.some.inj hfound
      obtain rfl := Value.duration.inj hd'
      exact (cutPieces_iff unit _ _ _ _).mp hpartition
    · intro hexact
      exact ⟨_, rfl, (cutPieces_iff unit _ _ _ _).mpr (hexact d rfl)⟩
  · have hnone : ∀ d, duration ≠ .duration d := fun d hd => hhas ⟨d, hd⟩
    have habsent := splitSpan_absent w o t member unit window span.1 fields
      (by
        intro d hd
        rw [hduration] at hd
        exact hnone d (Option.some.inj hd))
    constructor
    · exact fun _ d hd => absurd hd (hnone d)
    · intro _
      cases duration with
      | duration d => exact absurd rfl (hnone d)
      | _ => exact habsent

/-- A type whose objects are worked on until they are done. -/
def jobType : FlowType where
  name := "Job"
  states := [("OPEN", { category := "live" }), ("DONE", { category := "closed" })]

/-- An assignee's span of an object that was done and opened again. -/
def reopenedSpan : Span where
  value := .text "ann"
  enteredPosition := 1
  enteredAt := 0

def reopened : Object where
  id := "job-1"
  type := "Job"
  state := "OPEN"
  spans := [("state", [
      { value := .state "Job" "OPEN", enteredPosition := 1, leftPosition := some 2, enteredAt := 0,
        leftAt := some 40 },
      { value := .state "Job" "DONE", enteredPosition := 2, leftPosition := some 3, enteredAt := 40,
        leftAt := some 60 },
      { value := .state "Job" "OPEN", enteredPosition := 3, enteredAt := 60 }]),
    ("assignee", [reopenedSpan])]

def reopenedWorld : World where
  lib := { types := [("Job", jobType)] }
  objects := [("job-1", reopened)]
  now := 100

def reopenedRows : List Value :=
  (intervalRows reopenedWorld reopened jobType "assignee").getD []

theorem reopenedRows_eq :
    intervalRows reopenedWorld reopened jobType "assignee" = some reopenedRows := rfl

def reopenedRow : Span × Value :=
  (reopenedSpan, reopenedRows.headD .absent)

theorem reopenedRow_mem :
    reopenedRow ∈ (Spans.of reopened.spans "assignee").zip reopenedRows :=
  List.mem_singleton_self _

/-- An assignee's span of an object closed for a while and open again, read
whole: its piece counts the open time. -/
theorem splitSpan_exact_reopened :
    SplitExact reopenedWorld reopened jobType "assignee" "day" none reopenedRow := by
  refine (splitSpan_exact_iff reopenedRows_eq "day" none reopenedRow_mem).mpr fun d _ => ?_
  refine ⟨show (0 : Int) ≤ 100 by decide, fun t _ _ => ?_⟩
  have hclosed : cutClosed reopenedWorld reopened.spans jobType "assignee" = [(40, 60)] := by
    decide +kernel
  rw [hclosed]
  exact List.countP_le_length

/-- In a window of a hundred seconds the same span's piece counts the time its
object was closed as well. -/
theorem splitSpan_clips_closed :
    ¬ SplitExact reopenedWorld reopened jobType "assignee" "day" (some 100) reopenedRow := by
  have hpieces : (splitSpan reopenedWorld reopened jobType "assignee" "day" (some 100)
      reopenedRow.1 reopenedRow.2).mapM pieceOf = some [⟨"1970-01-01", 0, 100, 100⟩] := by
    decide +kernel
  have hfree : free (cutClosed reopenedWorld reopened.spans jobType "assignee") 0 100 = 80 := by
    decide +kernel
  rintro ⟨found, hfound, hpartition⟩
  rw [hpieces] at hfound
  obtain rfl := Option.some.inj hfound
  have hduration := hpartition.duration _ List.mem_cons_self
  exact absurd (hduration.trans hfree) (by decide)

end ObjectFlow
