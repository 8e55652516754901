import ObjectFlow.Base.Tally
import ObjectFlow.TimeText

/-!
# Pruned attempts

Maintenance replaces the attempts before an instant by daily counts, keyed by
what an attempt is counted by, as text; a read of the counts adds those of the
attempts that remain to those rolled up.  A roll-up holds an absent text as an
empty one, so it keeps an attempt's key where the attempt holds no empty text
and its day is of the calendar.
-/

namespace ObjectFlow

open Base

/-- What a roll-up counts by, each an absent text as an empty one. -/
structure RollupKey where
  day : String
  objectId : String
  verdict : String
  type : String
  transition : String
  clause : String
  remedy : String
  actorKind : String
  enforced : Bool
  flagged : Bool
  declarationVersion : Int
deriving DecidableEq

/-- An attempt's key in the roll-up, its day the first ten characters of its
time. -/
def Attempt.rollupKey (a : Attempt) : RollupKey where
  day := String.ofList ((timestampText a.at').toList.take 10)
  objectId := a.objectId.getD ""
  verdict := a.verdict
  type := a.type.getD ""
  transition := a.transition.getD ""
  clause := a.clause.getD ""
  remedy := a.remedy
  actorKind := a.actorKind
  enforced := a.enforced
  flagged := a.flagged
  declarationVersion := a.declarationVersion

/-- The attempts a store holds, and the daily counts of those pruned. -/
structure AttemptLog where
  attempts : List Attempt := []
  rollup : Table RollupKey Int := []

/-- Whether an attempt was recorded before an instant, as their texts compare. -/
def Attempt.before (instant : Int) (a : Attempt) : Bool :=
  timestampText a.at' < timestampText instant

namespace AttemptLog

/-- The attempts before an instant counted by key and added to the roll-up, and
gone. -/
def prune (instant : Int) (l : AttemptLog) : AttemptLog where
  attempts := l.attempts.filter fun a => !a.before instant
  rollup := Tally.addAll l.rollup
    (Tally.addAll [] ((l.attempts.filter (Attempt.before instant)).map fun a => (a.rollupKey, 1)))

/-- An attempt recorded. -/
def record (a : Attempt) (l : AttemptLog) : AttemptLog := { l with attempts := l.attempts ++ [a] }

end AttemptLog

/-- A roll-up's row as a read takes it: an empty text is absent. -/
def RollupKey.read (k : RollupKey) (count : Int) : RolledUp where
  key := {
    day := (parseTimestamp (k.day ++ "T00:00:00Z")).map (· / 86400)
    object := someText k.objectId
    transition := someText k.transition
    verdict := someText k.verdict
    clause := someText k.clause
    remedy := someText k.remedy
    actorKind := someText k.actorKind
    enforced := k.enforced
    flagged := k.flagged
    declarationVersion := k.declarationVersion }
  type := someText k.type
  count := count

/-- The roll-up as a read takes it. -/
def AttemptLog.readRollup (l : AttemptLog) : List RolledUp :=
  l.rollup.map fun row => row.1.read row.2

/-- What is done to a store's attempts. -/
inductive AttemptAct where
  | prune (instant : Int)
  | record (a : Attempt)

namespace AttemptLog

def act (l : AttemptLog) : AttemptAct → AttemptLog
  | .prune instant => l.prune instant
  | .record a => l.record a

/-- A store's attempts after what was done to them. -/
def run (l : AttemptLog) (acts : List AttemptAct) : AttemptLog := acts.foldl act l

/-- The attempts something done prunes. -/
def gone (l : AttemptLog) : AttemptAct → List Attempt
  | .prune instant => l.attempts.filter (Attempt.before instant)
  | .record _ => []

/-- The attempts pruned over a run. -/
def pruned (l : AttemptLog) : List AttemptAct → List Attempt
  | [] => []
  | a :: rest => l.gone a ++ pruned (l.act a) rest

end AttemptLog

/-- Whether something done records an attempt. -/
def AttemptAct.records : AttemptAct → Bool
  | .prune _ => false
  | .record _ => true

/-- A count of attempts, as a row of a metric. -/
def countRow (count : CountKey × Int) : Value :=
  let text (t : Option String) : Value := (t.map Value.text).getD .absent
  rowOf [("day", (count.1.day.map Value.date).getD .absent),
    ("object", (count.1.object.map Value.object).getD .absent),
    ("transition", text count.1.transition), ("verdict", text count.1.verdict),
    ("clause", text count.1.clause), ("remedy", text count.1.remedy),
    ("actor_kind", text count.1.actorKind), ("enforced", .bool count.1.enforced),
    ("flagged", .bool count.1.flagged),
    ("declaration_version", .int count.1.declarationVersion), ("count", .int count.2)]

/-- Whether an attempt is on an object of a type's family. -/
def Attempt.inFamily (w : World) (owner : String) (a : Attempt) : Bool :=
  a.type.any (w.family owner).contains

/-- Whether a roll-up's row is of a type's family. -/
def RollupKey.inFamily (w : World) (owner : String) (k : RollupKey) : Bool :=
  (someText k.type).any fun t => w.lib.isA t owner

/-- Whether an attempt's row is read: its time's text is its time. -/
def Attempt.readable (a : Attempt) : Bool := parseTimestamp (timestampText a.at') = some a.at'

/-- A type's family's attempt counts over a store's attempts, as the rows a
metric reads; none where an attempt's row cannot be read. -/
def attemptCountRows (x : Exporting) (l : AttemptLog) (owner : String) : Option (List Value) :=
  if (l.attempts.filter (Attempt.inFamily x.world owner)).all Attempt.readable then
    some (({ x with attempts := l.attempts, rollup := l.readRollup }.attemptCounts owner).map countRow)
  else none

/-! ### What a read adds up -/

/-- What a read counts of the roll-up, and of the attempts that remain. -/
def rolledCounts (w : World) (owner : String) (rollup : Table RollupKey Int) :
    List (CountKey × Int) :=
  (rollup.filter fun row => row.1.inFamily w owner).map fun row => ((row.1.read row.2).key, row.2)

def liveCounts (w : World) (owner : String) (attempts : List Attempt) : List (CountKey × Int) :=
  (w.family owner).flatMap fun t =>
    (attempts.filter fun a => a.type = some t).map fun a => (a.countKey, 1)

theorem attemptCounts_eq (x : Exporting) (l : AttemptLog) (owner : String) :
    { x with attempts := l.attempts, rollup := l.readRollup }.attemptCounts owner =
      Tally.addAll [] (rolledCounts x.world owner l.rollup ++ liveCounts x.world owner l.attempts) := by
  have hrolled : ((l.readRollup.filter fun u => u.type.any fun t => x.world.lib.isA t owner).foldl
      (fun counts u => addCount counts u.key u.count) []) =
      Tally.addAll [] (rolledCounts x.world owner l.rollup) := by
    unfold AttemptLog.readRollup rolledCounts Tally.addAll
    rw [List.filter_map, List.foldl_map, List.foldl_map]
    rfl
  have hlive : ∀ (types : List String) (t : Table CountKey Int),
      types.foldl (fun counts t => (l.attempts.filter fun a => a.type = some t).foldl
        (fun counts a => addCount counts a.countKey 1) counts) t =
      Tally.addAll t (types.flatMap fun t =>
        (l.attempts.filter fun a => a.type = some t).map fun a => (a.countKey, 1)) := by
    intro types
    induction types with
    | nil => exact fun _ => rfl
    | cons type rest ih =>
      intro t
      rw [List.foldl_cons, ih, List.flatMap_cons]
      unfold Tally.addAll
      rw [List.foldl_append, List.foldl_map]
      rfl
  have happend : ∀ (first rest : List (CountKey × Int)),
      Tally.addAll [] (first ++ rest) = Tally.addAll (Tally.addAll [] first) rest := by
    intro first rest
    exact List.foldl_append
  rw [happend, ← hrolled]
  exact hlive _ _

/-- What a row of the roll-up weighs in a read. -/
def rolledWeight (w : World) (owner : String) (f : CountKey → Int) (k : RollupKey) : Int :=
  if k.inFamily w owner then f (k.read 0).key else 0

/-- What an attempt weighs in a read. -/
def liveWeight (w : World) (owner : String) (f : CountKey → Int) (a : Attempt) : Int :=
  if a.inFamily w owner then f a.countKey else 0

theorem weigh_rolledCounts (w : World) (owner : String) (f : CountKey → Int)
    (rollup : Table RollupKey Int) :
    Tally.weigh f (rolledCounts w owner rollup) =
      Tally.weigh (rolledWeight w owner f) rollup := by
  induction rollup with
  | nil => rfl
  | cons row rest ih =>
    unfold rolledCounts at ih ⊢
    by_cases h : row.1.inFamily w owner = true
    · rw [List.filter_cons, if_pos h, List.map_cons, Tally.weigh_cons, Tally.weigh_cons, ih,
        rolledWeight, if_pos h]
      rfl
    · rw [List.filter_cons, if_neg h, ih, Tally.weigh_cons, rolledWeight, if_neg h]
      ring

theorem weigh_liveCounts {w : World} {owner : String} (h : (Table.keys w.lib.types).Nodup)
    (f : CountKey → Int) (attempts : List Attempt) :
    Tally.weigh f (liveCounts w owner attempts) = (attempts.map (liveWeight w owner f)).sum := by
  have hgeneral : ∀ types : List String, types.Nodup →
      Tally.weigh f (types.flatMap fun t =>
        (attempts.filter fun a => a.type = some t).map fun a => (a.countKey, 1)) =
      (attempts.map fun a => if a.type.any types.contains then f a.countKey else 0).sum := by
    intro types
    induction types with
    | nil =>
      intro _
      have hzero : ∀ a : Attempt, (if a.type.any ([] : List String).contains then f a.countKey
          else 0) = 0 := by
        intro a
        cases a.type <;> rfl
      simp [hzero]
    | cons t rest ih =>
      intro hnodup
      obtain ⟨hout, hrest⟩ := List.nodup_cons.mp hnodup
      have hone : Tally.weigh f ((attempts.filter fun a => a.type = some t).map fun a =>
          (a.countKey, 1)) = (attempts.map fun a => if a.type = some t then f a.countKey else 0).sum := by
        clear ih
        induction attempts with
        | nil => rfl
        | cons a as ih =>
          by_cases ha : a.type = some t
          · rw [List.filter_cons_of_pos (by simpa using ha), List.map_cons, Tally.weigh_cons, ih,
              List.map_cons, List.sum_cons, if_pos ha]
            ring
          · rw [List.filter_cons_of_neg (by simpa using ha), ih, List.map_cons, List.sum_cons,
              if_neg ha]
            ring
      rw [List.flatMap_cons, Tally.weigh_append, hone, ih hrest, ← List.sum_map_add]
      congr 1
      apply List.map_congr_left
      intro a _
      cases htype : a.type with
      | none => simp
      | some u =>
        by_cases hu : u = t
        · subst hu
          simp [hout]
        · simp [hu]
  exact hgeneral _ (h.filter _)

/-- What a read weighs of a store's attempts. -/
def AttemptLog.weight (w : World) (owner : String) (f : CountKey → Int) (l : AttemptLog) : Int :=
  Tally.weigh (rolledWeight w owner f) l.rollup + (l.attempts.map (liveWeight w owner f)).sum

theorem weigh_attemptCounts {x : Exporting} {owner : String}
    (h : (Table.keys x.world.lib.types).Nodup) (f : CountKey → Int) (l : AttemptLog) :
    Tally.weigh f ({ x with attempts := l.attempts, rollup := l.readRollup }.attemptCounts owner) =
      l.weight x.world owner f := by
  rw [attemptCounts_eq, Tally.weigh_addAll, Tally.weigh_nil, Tally.weigh_append,
    weigh_rolledCounts, weigh_liveCounts h, AttemptLog.weight, zero_add]

/-! ### What pruning changes of it -/

/-- What pruning an attempt adds to a read. -/
def fading (w : World) (owner : String) (f : CountKey → Int) (a : Attempt) : Int :=
  rolledWeight w owner f a.rollupKey - liveWeight w owner f a

theorem sum_filter_split (p : Attempt → Bool) (f : Attempt → Int) (l : List Attempt) :
    (l.map f).sum = ((l.filter p).map f).sum + ((l.filter fun a => !p a).map f).sum := by
  induction l with
  | nil => rfl
  | cons a rest ih =>
    by_cases h : p a = true
    · simp [h, ih, add_assoc]
    · simp [h, ih, add_left_comm]

theorem weigh_ones {κ : Type} (f : κ → Int) (g : Attempt → κ) (l : List Attempt) :
    Tally.weigh f (l.map fun a => (g a, 1)) = (l.map fun a => f (g a)).sum := by
  simp [Tally.weigh, Function.comp_def]

theorem weight_prune (w : World) (owner : String) (f : CountKey → Int) (instant : Int)
    (l : AttemptLog) : (l.prune instant).weight w owner f =
      l.weight w owner f +
        ((l.attempts.filter (Attempt.before instant)).map (fading w owner f)).sum := by
  have hsplit := sum_filter_split (Attempt.before instant) (liveWeight w owner f) l.attempts
  have hfading : ∀ gone : List Attempt, (gone.map (fading w owner f)).sum =
      (gone.map fun a => rolledWeight w owner f a.rollupKey).sum -
        (gone.map (liveWeight w owner f)).sum := by
    intro gone
    induction gone with
    | nil => rfl
    | cons a rest ih =>
      simp only [List.map_cons, List.sum_cons, ih, fading]
      ring
  unfold AttemptLog.weight AttemptLog.prune
  dsimp only
  rw [Tally.weigh_addAll, Tally.weigh_addAll, Tally.weigh_nil, weigh_ones, hfading]
  linarith

theorem weight_record (w : World) (owner : String) (f : CountKey → Int) (a : Attempt)
    (l : AttemptLog) :
    (l.record a).weight w owner f = l.weight w owner f + liveWeight w owner f a := by
  unfold AttemptLog.weight AttemptLog.record
  dsimp only
  rw [List.map_append, List.sum_append, List.map_singleton, List.sum_singleton]
  ring

/-- The attempts recorded over a run. -/
def recorded (acts : List AttemptAct) : List Attempt :=
  acts.filterMap fun
    | .prune _ => none
    | .record a => some a

/-- **A run's weight** is what it began with, what was recorded, and what faded
of what was pruned. -/
theorem weight_run (w : World) (owner : String) (f : CountKey → Int) (acts : List AttemptAct)
    (l : AttemptLog) : (l.run acts).weight w owner f =
      l.weight w owner f + ((recorded acts).map (liveWeight w owner f)).sum +
        ((l.pruned acts).map (fading w owner f)).sum := by
  induction acts generalizing l with
  | nil => simp [AttemptLog.run, AttemptLog.pruned, recorded]
  | cons act rest ih =>
    have hrun : l.run (act :: rest) = (l.act act).run rest := rfl
    have hpruned : l.pruned (act :: rest) = l.gone act ++ (l.act act).pruned rest := rfl
    rw [hrun, ih, hpruned]
    cases act with
    | prune instant =>
      have hrecorded : recorded (.prune instant :: rest) = recorded rest := rfl
      rw [hrecorded, AttemptLog.act, AttemptLog.gone, weight_prune, List.map_append, List.sum_append]
      ring
    | record a =>
      have hrecorded : recorded (.record a :: rest) = a :: recorded rest := rfl
      rw [hrecorded, AttemptLog.act, AttemptLog.gone, weight_record, List.map_cons, List.sum_cons,
        List.nil_append]
      ring

/-! ### What a roll-up keeps -/

/-- The texts a roll-up keys an attempt by, of those an attempt counts as they
are. -/
def Attempt.texts (a : Attempt) : List (Option String) :=
  [a.type, a.objectId, a.transition, some a.verdict, a.clause, some a.actorKind]

/-- Whether an attempt holds no empty text, which a roll-up would not tell from
an absent one. -/
def Attempt.whole (a : Attempt) : Bool := !a.texts.contains (some "")

theorem someText_ne_empty (text : String) : someText text ≠ some "" := by
  unfold someText
  by_cases h : text = ""
  · simp [h]
  · simp [h]

theorem someText_getD {t : Option String} (h : t ≠ some "") : someText (t.getD "") = t := by
  unfold someText
  cases t with
  | none => rfl
  | some text =>
    have hne : text ≠ "" := fun heq => h (heq ▸ rfl)
    rw [Option.getD_some, if_neg hne]

theorem inCalendar_of_readable {a : Attempt} (h : a.readable = true) :
    inCalendar (a.at' / 86400) = true :=
  parseTimestamp_inCalendar (of_decide_eq_true h)

theorem dateText_length {day : Int} (h : inCalendar day = true) : (dateText day).toList.length = 10 := by
  obtain ⟨hy, hy'⟩ := (inCalendar_iff day).mp h
  obtain ⟨hm, hm'⟩ := civil_month day
  obtain ⟨hd, hd'⟩ := civil_day day
  obtain ⟨hyear, _⟩ := padded_digits (w := 4) (n := (civilFromDays day).1)
    (by omega) (by norm_num; omega) (by decide)
  have hmonth := padded_two_length (n := (civilFromDays day).2.1) (by omega) (by omega)
  have hday := padded_two_length (n := (civilFromDays day).2.2) (by omega) (by omega)
  have hdash : "-".toList.length = 1 := rfl
  simp only [dateText, String.toList_append, List.length_append, hyear, hmonth, hday, hdash]

/-- A calendar day's text is the first ten characters of its seconds'. -/
theorem rollupKey_day {a : Attempt} (h : inCalendar (a.at' / 86400) = true) :
    a.rollupKey.day = dateText (a.at' / 86400) := by
  have hlist : (timestampText a.at').toList = (dateText (a.at' / 86400)).toList ++
      ("T" ++ timeText (a.at' % 86400) ++ "Z").toList := by
    rw [timestampText_eq, ← String.toList_append]
    simp only [String.append_assoc]
  have htake : (timestampText a.at').toList.take 10 = (dateText (a.at' / 86400)).toList := by
    rw [hlist, ← dateText_length h, List.take_left]
  unfold Attempt.rollupKey
  rw [htake, String.ofList_toList]

theorem midnightText {day : Int} (h : inCalendar day = true) :
    parseTimestamp (dateText day ++ "T00:00:00Z") = some (day * 86400) := by
  have hday : day * 86400 / 86400 = day := by omega
  have hrest : day * 86400 % 86400 = 0 := by omega
  have htext : timestampText (day * 86400) = dateText day ++ "T00:00:00Z" := by
    have htime : timeText 0 = "00:00:00" := by decide +kernel
    rw [timestampText_eq, hday, hrest, htime]
    simp only [String.append_assoc]
    rfl
  rw [← htext]
  apply parseTimestamp_timestampText
  rw [hday]
  exact h

theorem Attempt.whole_iff (a : Attempt) : a.whole = true ↔ a.type ≠ some "" ∧ a.objectId ≠ some "" ∧
    a.transition ≠ some "" ∧ a.verdict ≠ "" ∧ a.clause ≠ some "" ∧ a.actorKind ≠ "" := by
  unfold Attempt.whole Attempt.texts
  rw [Bool.not_eq_true', ← Bool.not_eq_true, List.contains_iff_mem]
  simp only [List.mem_cons, List.not_mem_nil, or_false, not_or, Option.some.injEq, ne_eq,
    eq_comm (a := some "")]

/-- **A whole attempt's key** is read from the roll-up as the attempt has it. -/
theorem rollupKey_read {a : Attempt} (h : a.whole = true) (hread : a.readable = true) (n : Int) :
    (a.rollupKey.read n).key = a.countKey := by
  obtain ⟨_, hobject, htransition, hverdict, hclause, hactor⟩ := (Attempt.whole_iff a).mp h
  have hcalendar := inCalendar_of_readable hread
  have hday : (parseTimestamp (a.rollupKey.day ++ "T00:00:00Z")).map (· / 86400) =
      some (a.at' / 86400) := by
    rw [rollupKey_day hcalendar, midnightText hcalendar, Option.map_some,
      Int.mul_ediv_cancel _ (by decide)]
  have htext : ∀ text : String, text ≠ "" → someText text = some text := by
    intro text hne
    exact if_neg hne
  unfold RollupKey.read Attempt.countKey
  dsimp only
  rw [hday]
  unfold Attempt.rollupKey
  dsimp only
  rw [someText_getD hobject, someText_getD htransition, htext _ hverdict, someText_getD hclause,
    htext _ hactor]

section family

variable {w : World} {owner : String}

theorem isA_iff_family (howner : owner ∈ Table.keys w.lib.types) (t : String) :
    w.lib.isA t owner = true ↔ t ∈ w.family owner := by
  unfold World.family
  rw [List.mem_filter]
  constructor
  · intro h
    refine ⟨?_, h⟩
    by_cases heq : t = owner
    · rw [heq]
      exact howner
    · by_contra hout
      have hnone : w.lib.type? t = none := by
        rw [Option.eq_none_iff_forall_ne_some]
        intro u hu
        exact hout (List.mem_map.mpr ⟨_, Table.mem_of_get? hu, rfl⟩)
      have hbases : w.lib.bases t = [] := by
        rw [Library.bases, hnone]
        cases w.lib.types.length <;> rfl
      simp [Library.isA, heq, hbases] at h
  · exact fun h => h.2

/-- An attempt rolled up is of the family it was of, but where it was on a type
of no name. -/
theorem rollupKey_inFamily (howner : owner ∈ Table.keys w.lib.types) (a : Attempt) :
    a.rollupKey.inFamily w owner = (decide (a.type ≠ some "") && a.inFamily w owner) := by
  unfold RollupKey.inFamily Attempt.inFamily
  by_cases hempty : a.type = some ""
  · have hkey : a.rollupKey.type = "" := by
      rw [Attempt.rollupKey, hempty]
      rfl
    rw [hkey, hempty]
    rfl
  · have hkey : someText a.rollupKey.type = a.type := someText_getD hempty
    rw [hkey, decide_eq_true hempty, Bool.true_and]
    cases a.type with
    | none => rfl
    | some t =>
      rw [Option.any_some, Option.any_some, Bool.eq_iff_iff, isA_iff_family howner,
        List.contains_iff_mem]

theorem fading_of_whole (howner : owner ∈ Table.keys w.lib.types) (f : CountKey → Int) {a : Attempt}
    (h : a.inFamily w owner = true → a.whole = true ∧ a.readable = true) :
    fading w owner f a = 0 := by
  unfold fading rolledWeight liveWeight
  rw [rollupKey_inFamily howner]
  by_cases hin : a.inFamily w owner = true
  · obtain ⟨hwhole, hread⟩ := h hin
    have htype := ((Attempt.whole_iff a).mp hwhole).1
    rw [hin, decide_eq_true htype, Bool.true_and, if_pos rfl, if_pos rfl, rollupKey_read hwhole hread]
    omega
  · rw [Bool.not_eq_true] at hin
    rw [hin, Bool.and_false, if_neg (by decide), if_neg (by decide)]
    rfl

/-- How many of a key's texts are empty, which a roll-up's key has none of. -/
def CountKey.empties (k : CountKey) : Int :=
  ([k.object, k.transition, k.verdict, k.clause, k.actorKind].count (some "") : Nat)

theorem empties_read (k : RollupKey) (n : Int) : (k.read n).key.empties = 0 := by
  have hnone : ∀ text : String, (someText text == some "") = false := by
    intro text
    exact beq_false_of_ne (someText_ne_empty text)
  simp [CountKey.empties, RollupKey.read, List.count_cons, hnone]

theorem empties_countKey {a : Attempt} (h : a.whole = false) (htype : a.type ≠ some "") :
    0 < a.countKey.empties := by
  have hmem : some "" ∈ [a.objectId, a.transition, some a.verdict, a.clause, some a.actorKind] := by
    unfold Attempt.whole Attempt.texts at h
    rw [Bool.not_eq_false', List.contains_iff_mem] at h
    rcases List.mem_cons.mp h with heq | hrest
    · exact absurd heq.symm htype
    · exact hrest
  unfold CountKey.empties
  have hcount := List.count_pos_iff.mpr hmem
  exact Int.natCast_pos.mpr hcount

/-- What tells a faded attempt: each count, and each empty text of its key. -/
def marked (k : CountKey) : Int := 1 + k.empties

theorem marked_pos (k : CountKey) : 0 < marked k := by
  unfold marked CountKey.empties
  omega

theorem fading_marked (howner : owner ∈ Table.keys w.lib.types) {a : Attempt}
    (hin : a.inFamily w owner = true) (h : a.whole = false) : fading w owner marked a < 0 := by
  unfold fading rolledWeight liveWeight
  rw [rollupKey_inFamily howner, hin, Bool.and_true, if_pos rfl]
  by_cases htype : a.type = some ""
  · have hpos := marked_pos a.countKey
    rw [decide_eq_false (not_not_intro htype), if_neg (by decide)]
    omega
  · have hlive := empties_countKey h htype
    rw [decide_eq_true htype, if_pos rfl, marked, marked, empties_read]
    omega

theorem fading_marked_nonpos (howner : owner ∈ Table.keys w.lib.types) {a : Attempt}
    (hread : a.inFamily w owner = true → a.readable = true) : fading w owner marked a ≤ 0 := by
  by_cases hin : a.inFamily w owner = true
  · by_cases hwhole : a.whole = true
    · exact (fading_of_whole howner marked fun _ => ⟨hwhole, hread hin⟩).le
    · rw [Bool.not_eq_true] at hwhole
      exact (fading_marked howner hin hwhole).le
  · exact (fading_of_whole howner marked fun h => absurd h hin).le

theorem eq_zero_of_sum {l : List Attempt} {f : Attempt → Int} (h : ∀ a ∈ l, f a ≤ 0)
    (hsum : (l.map f).sum = 0) : ∀ a ∈ l, f a = 0 := by
  have hnonpos : ∀ l : List Attempt, (∀ a ∈ l, f a ≤ 0) → (l.map f).sum ≤ 0 := by
    intro l hl
    induction l with
    | nil => exact le_refl _
    | cons a rest ih =>
      have ha := hl a List.mem_cons_self
      have hrest := ih fun b hb => hl b (List.mem_cons_of_mem _ hb)
      rw [List.map_cons, List.sum_cons]
      omega
  induction l with
  | nil => exact fun a ha => absurd ha List.not_mem_nil
  | cons a rest ih =>
    have ha := h a List.mem_cons_self
    have hrest := fun b hb => h b (List.mem_cons_of_mem _ hb)
    have hle := hnonpos rest hrest
    rw [List.map_cons, List.sum_cons] at hsum
    intro b hb
    rcases List.mem_cons.mp hb with rfl | hb
    · omega
    · exact ih hrest (by omega) b hb

end family

/-! ### Runs -/

namespace AttemptLog

variable {l : AttemptLog}

theorem attempts_run_records (l : AttemptLog) (acts : List AttemptAct) :
    (l.run (acts.filter AttemptAct.records)).attempts = l.attempts ++ recorded acts := by
  induction acts generalizing l with
  | nil => simp [AttemptLog.run, recorded]
  | cons act rest ih =>
    cases act with
    | prune instant => exact ih l
    | record a =>
      have hstep : (l.run ((AttemptAct.record a :: rest).filter AttemptAct.records)) =
          (l.record a).run (rest.filter AttemptAct.records) := rfl
      have hrecorded : recorded (.record a :: rest) = a :: recorded rest := rfl
      rw [hstep, ih, hrecorded, AttemptLog.record]
      simp

theorem recorded_records (acts : List AttemptAct) :
    recorded (acts.filter AttemptAct.records) = recorded acts := by
  induction acts with
  | nil => rfl
  | cons act rest ih =>
    cases act with
    | prune instant => exact ih
    | record a => exact congrArg (a :: ·) ih

theorem pruned_records (l : AttemptLog) (acts : List AttemptAct) :
    l.pruned (acts.filter AttemptAct.records) = [] := by
  induction acts generalizing l with
  | nil => rfl
  | cons act rest ih =>
    cases act with
    | prune instant => exact ih l
    | record a => exact ih (l.record a)

/-- What a run leaves or prunes was there or recorded. -/
theorem mem_run_or_pruned {acts : List AttemptAct} {a : Attempt}
    (h : a ∈ (l.run acts).attempts ∨ a ∈ l.pruned acts) : a ∈ l.attempts ++ recorded acts := by
  induction acts generalizing l with
  | nil => simpa [AttemptLog.run, AttemptLog.pruned, recorded] using h
  | cons act rest ih =>
    have hpruned : l.pruned (act :: rest) = l.gone act ++ (l.act act).pruned rest := rfl
    rw [hpruned, List.mem_append] at h
    cases act with
    | prune instant =>
      have hkept : ∀ b ∈ (l.prune instant).attempts, b ∈ l.attempts :=
        fun b hb => (List.mem_filter.mp hb).1
      have hrest : a ∈ (l.prune instant).attempts ++ recorded rest → a ∈ l.attempts ++ recorded rest := by
        intro hmem
        rcases List.mem_append.mp hmem with hmem | hmem
        · exact List.mem_append_left _ (hkept a hmem)
        · exact List.mem_append_right _ hmem
      rcases h with hrun | hgone | hpruned
      · exact hrest (ih (.inl hrun))
      · exact List.mem_append_left _ (List.mem_filter.mp hgone).1
      · exact hrest (ih (.inr hpruned))
    | record b =>
      have hrest : a ∈ (l.record b).attempts ++ recorded rest →
          a ∈ l.attempts ++ recorded (.record b :: rest) := by
        have hrecorded : recorded (.record b :: rest) = b :: recorded rest := rfl
        rw [hrecorded, AttemptLog.record, List.append_assoc]
        exact id
      rcases h with hrun | hgone | hpruned
      · exact hrest (ih (.inl hrun))
      · cases hgone
      · exact hrest (ih (.inr hpruned))

variable {w : World} {owner : String}

/-- Whether a read of a store's attempts holds a key. -/
def Shows (w : World) (owner : String) (l : AttemptLog) (k : CountKey) : Prop :=
  (∃ row ∈ l.rollup, row.1.inFamily w owner = true ∧ (row.1.read row.2).key = k) ∨
    ∃ a ∈ l.attempts, a.inFamily w owner = true ∧ a.countKey = k

theorem mem_keys_attemptCounts (x : Exporting) (l : AttemptLog) (owner : String) (k : CountKey) :
    k ∈ Table.keys ({ x with attempts := l.attempts, rollup := l.readRollup }.attemptCounts owner) ↔
      l.Shows x.world owner k := by
  have hrolled : k ∈ (rolledCounts x.world owner l.rollup).map Prod.fst ↔
      ∃ row ∈ l.rollup, row.1.inFamily x.world owner = true ∧ (row.1.read row.2).key = k := by
    unfold rolledCounts
    rw [List.map_map]
    simp only [List.mem_map, List.mem_filter, Function.comp_apply, and_assoc]
  have hlive : k ∈ (liveCounts x.world owner l.attempts).map Prod.fst ↔
      ∃ a ∈ l.attempts, a.inFamily x.world owner = true ∧ a.countKey = k := by
    unfold liveCounts
    simp only [List.mem_map, List.mem_flatMap, List.mem_filter]
    constructor
    · rintro ⟨_, ⟨t, ht, a, ⟨ha, htype⟩, rfl⟩, rfl⟩
      have htype := of_decide_eq_true htype
      exact ⟨a, ha, by simp [Attempt.inFamily, htype, ht], rfl⟩
    · rintro ⟨a, ha, hin, rfl⟩
      obtain ⟨t, htype, ht⟩ := (Option.any_eq_true _ _).mp hin
      exact ⟨_, ⟨t, List.contains_iff_mem.mp ht, a, ⟨ha, decide_eq_true htype⟩, rfl⟩, rfl⟩
  have hnone : k ∉ Table.keys ([] : Table CountKey Int) := List.not_mem_nil
  rw [attemptCounts_eq, Tally.mem_keys_addAll, List.map_append, List.mem_append, hrolled, hlive,
    or_iff_right hnone]
  rfl

theorem shows_record (a : Attempt) (k : CountKey) : (l.record a).Shows w owner k ↔
    l.Shows w owner k ∨ (a.inFamily w owner = true ∧ a.countKey = k) := by
  unfold Shows AttemptLog.record
  simp only [List.mem_append, List.mem_singleton, or_and_right, exists_or, exists_eq_left, or_assoc]

theorem mem_keys_prune (instant : Int) (r : RollupKey) : r ∈ Table.keys (l.prune instant).rollup ↔
    r ∈ Table.keys l.rollup ∨ ∃ a ∈ l.gone (.prune instant), a.rollupKey = r := by
  have hcounted := Tally.mem_keys_addAll ([] : Table RollupKey Int)
    ((l.attempts.filter (Attempt.before instant)).map fun a => (a.rollupKey, 1)) r
  have hnone : r ∉ Table.keys ([] : Table RollupKey Int) := List.not_mem_nil
  have hgone : r ∈ ((l.attempts.filter (Attempt.before instant)).map fun a =>
      (a.rollupKey, (1 : Int))).map Prod.fst ↔ ∃ a ∈ l.gone (.prune instant), a.rollupKey = r := by
    rw [List.map_map]
    exact List.mem_map
  rw [or_iff_right hnone, hgone] at hcounted
  exact (Tally.mem_keys_addAll _ _ r).trans (or_congr_right hcounted)

/-- What the roll-up shows of a key. -/
def RolledShows (w : World) (owner : String) (l : AttemptLog) (k : CountKey) : Prop :=
  ∃ r ∈ Table.keys l.rollup, r.inFamily w owner = true ∧ (r.read 0).key = k

/-- What attempts show of a key. -/
def LiveShows (w : World) (owner : String) (attempts : List Attempt) (k : CountKey) : Prop :=
  ∃ a ∈ attempts, a.inFamily w owner = true ∧ a.countKey = k

theorem shows_iff (k : CountKey) : l.Shows w owner k ↔
    l.RolledShows w owner k ∨ LiveShows w owner l.attempts k := by
  have hkeys : l.RolledShows w owner k ↔
      ∃ row ∈ l.rollup, row.1.inFamily w owner = true ∧ (row.1.read row.2).key = k := by
    unfold RolledShows Table.keys
    constructor
    · rintro ⟨r, hr, hin, hread⟩
      obtain ⟨row, hrow, rfl⟩ := List.mem_map.mp hr
      exact ⟨row, hrow, hin, hread⟩
    · rintro ⟨row, hrow, hin, hread⟩
      exact ⟨row.1, List.mem_map_of_mem hrow, hin, hread⟩
  rw [hkeys]
  rfl

theorem rolledShows_prune (howner : owner ∈ Table.keys w.lib.types) {instant : Int}
    (h : ∀ a ∈ l.gone (.prune instant), a.inFamily w owner = true →
      a.whole = true ∧ a.readable = true) (k : CountKey) :
    (l.prune instant).RolledShows w owner k ↔
      l.RolledShows w owner k ∨ LiveShows w owner (l.gone (.prune instant)) k := by
  constructor
  · rintro ⟨r, hr, hin, hread⟩
    rcases (mem_keys_prune instant r).mp hr with hr | ⟨a, ha, rfl⟩
    · exact .inl ⟨r, hr, hin, hread⟩
    · rw [rollupKey_inFamily howner, Bool.and_eq_true] at hin
      obtain ⟨hwhole, hreadable⟩ := h a ha hin.2
      rw [rollupKey_read hwhole hreadable] at hread
      exact .inr ⟨a, ha, hin.2, hread⟩
  · rintro (⟨r, hr, hin, hread⟩ | ⟨a, ha, hin, hread⟩)
    · exact ⟨r, (mem_keys_prune instant r).mpr (.inl hr), hin, hread⟩
    · obtain ⟨hwhole, hreadable⟩ := h a ha hin
      have htype := ((Attempt.whole_iff a).mp hwhole).1
      refine ⟨a.rollupKey, (mem_keys_prune instant _).mpr (.inr ⟨a, ha, rfl⟩), ?_, ?_⟩
      · rw [rollupKey_inFamily howner, hin, decide_eq_true htype]
        rfl
      · rw [rollupKey_read hwhole hreadable, hread]

variable (w owner l) in
theorem liveShows_prune (instant : Int) (k : CountKey) : LiveShows w owner l.attempts k ↔
    LiveShows w owner (l.gone (.prune instant)) k ∨
      LiveShows w owner (l.prune instant).attempts k := by
  constructor
  · rintro ⟨a, ha, hcount⟩
    by_cases hbefore : a.before instant = true
    · exact .inl ⟨a, List.mem_filter.mpr ⟨ha, hbefore⟩, hcount⟩
    · exact .inr ⟨a, List.mem_filter.mpr ⟨ha, by simpa using hbefore⟩, hcount⟩
  · rintro (⟨a, ha, hcount⟩ | ⟨a, ha, hcount⟩)
    · exact ⟨a, (List.mem_filter.mp ha).1, hcount⟩
    · exact ⟨a, (List.mem_filter.mp ha).1, hcount⟩

/-- Pruning whole attempts neither adds a key nor loses one. -/
theorem shows_prune (howner : owner ∈ Table.keys w.lib.types) {instant : Int}
    (h : ∀ a ∈ l.gone (.prune instant), a.inFamily w owner = true →
      a.whole = true ∧ a.readable = true) (k : CountKey) :
    (l.prune instant).Shows w owner k ↔ l.Shows w owner k := by
  have hlive := liveShows_prune l w owner instant k
  rw [shows_iff, shows_iff, rolledShows_prune howner h, hlive, or_assoc]

/-- **The keys a run shows** are those shown before it and those recorded, where
what it prunes is whole. -/
theorem shows_run (howner : owner ∈ Table.keys w.lib.types) {acts : List AttemptAct}
    (h : ∀ a ∈ l.pruned acts, a.inFamily w owner = true → a.whole = true ∧ a.readable = true)
    (k : CountKey) : (l.run acts).Shows w owner k ↔
      l.Shows w owner k ∨ ∃ a ∈ recorded acts, a.inFamily w owner = true ∧ a.countKey = k := by
  induction acts generalizing l with
  | nil => simp [AttemptLog.run, recorded]
  | cons act rest ih =>
    have hrun : l.run (act :: rest) = (l.act act).run rest := rfl
    have hpruned : l.pruned (act :: rest) = l.gone act ++ (l.act act).pruned rest := rfl
    rw [hpruned] at h
    have hrest := ih fun a ha => h a (List.mem_append_right _ ha)
    rw [hrun, hrest]
    cases act with
    | prune instant =>
      have hrecorded : recorded (.prune instant :: rest) = recorded rest := rfl
      rw [hrecorded, AttemptLog.act, shows_prune howner fun a ha => h a (List.mem_append_left _ ha)]
    | record a =>
      have hrecorded : recorded (.record a :: rest) = a :: recorded rest := rfl
      rw [hrecorded, AttemptLog.act, shows_record]
      simp only [List.mem_cons, or_and_right, exists_or, exists_eq_left, or_assoc]

end AttemptLog

/-! ### What a read reports -/

/-- The count of a row of attempt counts. -/
def rowCount : Value → Int
  | .row fields =>
      match Table.get? fields "count" with
      | some (.int n) => n
      | _ => 0
  | _ => 0

/-- What a metric adds up: the counts of the rows it keeps, those of a group, in
a window, of its filter. -/
def totalOf (keep : Value → Bool) (rows : List Value) : Int := ((rows.filter keep).map rowCount).sum

/-- Rows that are others in some order, and so add up to the same. -/
def SameCounts (rows rows' : List Value) : Prop :=
  rows.Perm rows' ∧ ∀ keep, totalOf keep rows = totalOf keep rows'

theorem sameCounts_of_perm {rows rows' : List Value} (h : rows.Perm rows') : SameCounts rows rows' := by
  refine ⟨h, fun keep => ?_⟩
  exact ((h.filter keep).map rowCount).sum_eq

/-- A member a row holds where it is known is known of the row. -/
theorem getD_absent_inj {α : Type} {f : α → Value} (hf : Function.Injective f)
    (habsent : ∀ a, f a ≠ .absent) {t u : Option α}
    (h : (t.map f).getD .absent = (u.map f).getD .absent) : t = u := by
  cases t with
  | none =>
    cases u with
    | none => rfl
    | some b => exact absurd h.symm (habsent b)
  | some a =>
    cases u with
    | none => exact absurd h (habsent a)
    | some b => exact congrArg some (hf h)

/-- The members of a row. -/
def rowFields : Value → Table String Value
  | .row fields => fields
  | _ => []

theorem countRow_injective : Function.Injective countRow := by
  have htext : ∀ {t u : Option String},
      (t.map Value.text).getD .absent = (u.map Value.text).getD .absent → t = u :=
    getD_absent_inj (fun _ _ => Value.text.inj) fun _ => Value.noConfusion
  have hobject : ∀ {t u : Option String},
      (t.map Value.object).getD .absent = (u.map Value.object).getD .absent → t = u :=
    getD_absent_inj (fun _ _ => Value.object.inj) fun _ => Value.noConfusion
  have hday : ∀ {t u : Option Int},
      (t.map Value.date).getD .absent = (u.map Value.date).getD .absent → t = u :=
    getD_absent_inj (fun _ _ => Value.date.inj) fun _ => Value.noConfusion
  rintro ⟨k, n⟩ ⟨k', n'⟩ h
  have hread : ∀ key, Table.get? (rowFields (countRow (k, n))) key =
      Table.get? (rowFields (countRow (k', n'))) key := fun key => by rw [h]
  simp only [countRow, rowOf, rowFields, List.foldl_cons, List.foldl_nil, Table.get?_set] at hread
  have hkey : k = k' := by
    cases k
    cases k'
    rw [CountKey.mk.injEq]
    refine ⟨hday ?_, hobject ?_, htext ?_, htext ?_, htext ?_, htext ?_, htext ?_, ?_, ?_, ?_⟩
    · simpa using hread "day"
    · simpa using hread "object"
    · simpa using hread "transition"
    · simpa using hread "verdict"
    · simpa using hread "clause"
    · simpa using hread "remedy"
    · simpa using hread "actor_kind"
    · simpa using hread "enforced"
    · simpa using hread "flagged"
    · simpa using hread "declaration_version"
  have hcount : n = n' := by simpa using hread "count"
  rw [hkey, hcount]

variable {x : Exporting} {owner : String} {l : AttemptLog}

theorem attemptCountRows_some {rows : List Value} (h : attemptCountRows x l owner = some rows) :
    (∀ a ∈ l.attempts, a.inFamily x.world owner = true → a.readable = true) ∧
      rows = ({ x with attempts := l.attempts, rollup := l.readRollup }.attemptCounts owner).map
        countRow := by
  unfold attemptCountRows at h
  split at h
  · rename_i hall
    refine ⟨fun a ha hin => ?_, (Option.some.inj h).symm⟩
    exact List.all_eq_true.mp hall a (List.mem_filter.mpr ⟨ha, hin⟩)
  · cases h

theorem attemptCountRows_eq
    (h : ∀ a ∈ l.attempts, a.inFamily x.world owner = true → a.readable = true) :
    attemptCountRows x l owner =
      some (({ x with attempts := l.attempts, rollup := l.readRollup }.attemptCounts owner).map
        countRow) := by
  unfold attemptCountRows
  rw [if_pos]
  apply List.all_eq_true.mpr
  intro a ha
  obtain ⟨hmem, hin⟩ := List.mem_filter.mp ha
  exact h a hmem hin

theorem nodup_attemptCounts (x : Exporting) (l : AttemptLog) (owner : String) :
    (Table.keys ({ x with attempts := l.attempts, rollup := l.readRollup }.attemptCounts
      owner)).Nodup := by
  rw [attemptCounts_eq]
  have hnil : (Table.keys ([] : Table CountKey Int)).Nodup := List.nodup_nil
  exact Tally.nodup_addAll hnil _

/-- **Prunings are seen in no count** exactly where the attempts they prune of
the family read hold no empty text. -/
theorem prunings_unseen_iff (hnodup : (Table.keys x.world.lib.types).Nodup)
    (howner : owner ∈ Table.keys x.world.lib.types) {acts : List AttemptAct} {rows : List Value}
    (hread : attemptCountRows x (l.run (acts.filter AttemptAct.records)) owner = some rows) :
    (∃ rows', attemptCountRows x (l.run acts) owner = some rows' ∧ SameCounts rows rows') ↔
      ∀ a ∈ l.pruned acts, a.inFamily x.world owner = true → a.whole = true := by
  obtain ⟨hreadable, rfl⟩ := attemptCountRows_some hread
  rw [AttemptLog.attempts_run_records] at hreadable
  have hrun : attemptCountRows x (l.run acts) owner = some _ :=
    attemptCountRows_eq fun a ha => hreadable a (AttemptLog.mem_run_or_pruned (.inl ha))
  have hpruned : ∀ a ∈ l.pruned acts, a.inFamily x.world owner = true → a.readable = true :=
    fun a ha => hreadable a (AttemptLog.mem_run_or_pruned (.inr ha))
  -- what both runs weigh differs by what faded
  have hweigh : ∀ f, (l.run acts).weight x.world owner f =
      (l.run (acts.filter AttemptAct.records)).weight x.world owner f +
        ((l.pruned acts).map (fading x.world owner f)).sum := by
    intro f
    rw [weight_run, weight_run, AttemptLog.recorded_records, AttemptLog.pruned_records,
      List.map_nil, List.sum_nil, add_zero]
  constructor
  · rintro ⟨rows', hrows', hperm, _⟩
    rw [hrun] at hrows'
    obtain rfl := Option.some.inj hrows'
    have hcounts := (List.map_perm_map_iff countRow_injective).mp hperm
    have hsame := Tally.weigh_perm marked hcounts
    rw [weigh_attemptCounts hnodup, weigh_attemptCounts hnodup, hweigh] at hsame
    have hsum : ((l.pruned acts).map (fading x.world owner marked)).sum = 0 := by omega
    have hzero := eq_zero_of_sum
      (fun a ha => fading_marked_nonpos howner (hpruned a ha)) hsum
    intro a ha hin
    by_contra hwhole
    rw [Bool.not_eq_true] at hwhole
    have hlost := fading_marked howner hin hwhole
    have hkept := hzero a ha
    omega
  · intro hwhole
    have hkept : ∀ a ∈ l.pruned acts, a.inFamily x.world owner = true →
        a.whole = true ∧ a.readable = true :=
      fun a ha hin => ⟨hwhole a ha hin, hpruned a ha hin⟩
    refine ⟨_, hrun, sameCounts_of_perm (List.Perm.map _ ?_)⟩
    apply Tally.perm_of_weigh (nodup_attemptCounts x _ owner) (nodup_attemptCounts x _ owner)
    · intro k
      rw [AttemptLog.mem_keys_attemptCounts, AttemptLog.mem_keys_attemptCounts,
        AttemptLog.shows_run howner hkept, AttemptLog.shows_run howner
          (by rw [AttemptLog.pruned_records]; exact fun a ha => absurd ha List.not_mem_nil),
        AttemptLog.recorded_records]
    · intro f
      have hfaded : ((l.pruned acts).map (fading x.world owner f)).sum = 0 := by
        apply List.sum_eq_zero
        intro n hn
        obtain ⟨a, ha, rfl⟩ := List.mem_map.mp hn
        exact fading_of_whole howner f (hkept a ha)
      rw [weigh_attemptCounts hnodup, weigh_attemptCounts hnodup, hweigh, hfaded, add_zero]

/-- A refusal of a transition its type does not have. -/
def refusedAttempt (transition : String) : Attempt where
  at' := 90000
  actorId := "ann"
  actorKind := "human"
  principal := none
  context := none
  type := some "Gate"
  objectId := some "gate-1"
  transition := some transition
  verdict := "unknown_transition"
  clause := none
  remedy := ""
  unknown := false
  enforced := true
  flagged := false
  reads := .null
  appliedPosition := none
  call := .null
  proposal := none
  batchIndex := none
  consulted := .null
  requestValues := .null
  withheld := []
  declarationVersion := 1
  txn := 1
  id := 1

def gateStore : Exporting where
  world := { lib := { types := [("Gate", { name := "Gate", states := [] })] } }

theorem attemptCountRows_of (counts : Table CountKey Int)
    (hread : (l.attempts.filter (Attempt.inFamily x.world owner)).all Attempt.readable = true)
    (hcounts : { x with attempts := l.attempts, rollup := l.readRollup }.attemptCounts owner = counts) :
    attemptCountRows x l owner = some (counts.map countRow) := by
  rw [attemptCountRows, if_pos hread, hcounts]

/-- A refusal pruned and another after it are counted as if nothing was pruned. -/
theorem prunings_unseen_gate :
    ∃ rows', attemptCountRows gateStore (({} : AttemptLog).run
        [.record (refusedAttempt "open"), .prune 172800, .record (refusedAttempt "open")]) "Gate" = some rows' ∧
      SameCounts [countRow ((refusedAttempt "open").countKey, 2)] rows' := by
  have hread : attemptCountRows gateStore (({} : AttemptLog).run
      ([.record (refusedAttempt "open"), .prune 172800, .record (refusedAttempt "open")].filter
        AttemptAct.records)) "Gate" = some [countRow ((refusedAttempt "open").countKey, 2)] :=
    attemptCountRows_of [((refusedAttempt "open").countKey, 2)] (by decide +kernel)
      (by decide +kernel)
  have hpruned : ({} : AttemptLog).pruned
      [.record (refusedAttempt "open"), .prune 172800, .record (refusedAttempt "open")] = [refusedAttempt "open"] := by
    have hbefore : (refusedAttempt "open").before 172800 = true := by decide +kernel
    simp [AttemptLog.pruned, AttemptLog.gone, AttemptLog.act, AttemptLog.record, hbefore]
  apply (prunings_unseen_iff (by decide) (by decide) hread).mpr
  rw [hpruned]
  intro a ha _
  obtain rfl := List.mem_singleton.mp ha
  decide +kernel

/-- A refused transition of no name is counted as none once it is pruned. -/
theorem nameless_pruned_absent :
    attemptCountRows gateStore (({} : AttemptLog).run
        ([.record (refusedAttempt ""), .prune 172800].filter AttemptAct.records)) "Gate" =
      some [countRow ((refusedAttempt "").countKey, 1)] ∧
    ¬ ∃ rows', attemptCountRows gateStore (({} : AttemptLog).run
        [.record (refusedAttempt ""), .prune 172800]) "Gate" = some rows' ∧
      SameCounts [countRow ((refusedAttempt "").countKey, 1)] rows' := by
  have hbefore : attemptCountRows gateStore (({} : AttemptLog).run
      ([.record (refusedAttempt ""), .prune 172800].filter AttemptAct.records)) "Gate" =
      some [countRow ((refusedAttempt "").countKey, 1)] :=
    attemptCountRows_of [((refusedAttempt "").countKey, 1)] (by decide +kernel)
      (by decide +kernel)
  have hafter : attemptCountRows gateStore (({} : AttemptLog).run
      [.record (refusedAttempt ""), .prune 172800]) "Gate" =
      some [countRow ({ (refusedAttempt "").countKey with transition := none }, 1)] :=
    attemptCountRows_of [({ (refusedAttempt "").countKey with transition := none }, 1)]
      (by decide +kernel) (by decide +kernel)
  refine ⟨hbefore, ?_⟩
  rintro ⟨rows', hrows', hperm, _⟩
  rw [hafter] at hrows'
  obtain rfl := Option.some.inj hrows'
  have hrows := List.singleton_inj.mp (List.perm_singleton.mp hperm)
  have hkey := countRow_injective hrows
  exact absurd hkey (by decide +kernel)

end ObjectFlow
