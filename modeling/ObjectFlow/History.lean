import ObjectFlow.Base.Paging
import ObjectFlow.Commit

/-!
# Pages of history

The events of an object, or of the objects one supersession joins, read a page
at a time: each object's positions past the cursor, as many as the limit, are
merged and cut to the limit, and the events at them are read a few at a time
until the page's bytes are reached.  The cursor is the position the page ended
at, where the limit or the bytes ended it.
-/

namespace ObjectFlow

open Base

/-- How many events a page of history reads whole at a time. -/
def CHUNK : Nat := 16

/-- A list cut into runs of `n + 1`. -/
def chunks {α : Type} (n : Nat) : List α → List (List α)
  | [] => []
  | a :: rest => (a :: rest.take n) :: chunks n (rest.drop n)
termination_by l => l.length

/-- Positions in order, or the latest first. -/
def inDirection (newestFirst : Bool) (positions : List Int) : List Int :=
  if newestFirst then positions.mergeSort fun a b => b ≤ a else positions.mergeSort fun a b => a ≤ b

/-- The positions of an object's events past one, or with `newestFirst` before
it, at most so many, in order or the latest first. -/
def historyRead (log : List Event) (newestFirst : Bool) (id : String) (bound : Int) (most : Nat) :
    List Int :=
  let own := log.filter (·.objectId = id)
  let past := own.filter fun e =>
    if newestFirst then e.position < bound else bound < e.position
  (inDirection newestFirst (past.map (·.position))).take most

/-- Where a page without a cursor starts. -/
def historyStart (newestFirst : Bool) : Int := if newestFirst then i64Max else 0

/-- The events at positions, in order or the latest first. -/
def eventsAt (log : List Event) (newestFirst : Bool) (positions : List Int) : List Event :=
  let found := log.filter fun e => positions.contains e.position
  if newestFirst then found.mergeSort fun a b => b.position ≤ a.position
  else found.mergeSort fun a b => a.position ≤ b.position

section

variable (bytes : Event → Nat) (budget : Nat)

/-- The rows a page takes until its bytes are reached: all of them and the bytes
it holds by then, or those up to the one that reached them. -/
def historyRows : List Event → Nat → List Event × Option Nat
  | [], held => ([], some held)
  | e :: rest, held =>
      if budget ≤ held + bytes e then ([e], none)
      else (e :: (historyRows rest (held + bytes e)).1, (historyRows rest (held + bytes e)).2)

/-- The rows a page takes of its chunks, and whether it took them all. -/
def historyChunks (log : List Event) (newestFirst : Bool) : List (List Int) → Nat → List Event × Bool
  | [], _ => ([], true)
  | chunk :: rest, held =>
      match historyRows bytes budget (eventsAt log newestFirst chunk) held with
      | (rows, none) => (rows, false)
      | (rows, some held) =>
          (rows ++ (historyChunks log newestFirst rest held).1,
            (historyChunks log newestFirst rest held).2)

/-- A page of the events of the objects given, past a position or with
`newestFirst` before it, and the position the next page goes on from. -/
def historyPage (log : List Event) (ids : List String) (cursor : Option Int) (limit : Nat)
    (newestFirst : Bool) : List Event × Option Int :=
  let bound := cursor.getD (historyStart newestFirst)
  let heads := (inDirection newestFirst
    (ids.flatMap fun id => historyRead log newestFirst id bound limit)).take limit
  let (rows, whole) := historyChunks bytes budget log newestFirst (chunks (CHUNK - 1) heads) 0
  let last := rows.getLast?.map (·.position)
  (rows, if !whole || heads.length = limit then last else none)

end

/-- The events of objects, in order or the latest first. -/
def historyOf (log : List Event) (ids : List String) (newestFirst : Bool) : List Event :=
  let own := log.filter fun e => ids.contains e.objectId
  if newestFirst then own.reverse else own

/-! ### The order a page reads in -/

/-- Where a position stands in the order a page reads in. -/
def standing (newestFirst : Bool) (p : Int) : Int := if newestFirst then -p else p

section

variable {newestFirst : Bool}

theorem standing_inj {p q : Int} (h : standing newestFirst p = standing newestFirst q) : p = q := by
  unfold standing at h
  split at h <;> omega

variable (newestFirst) in
/-- Entries sorted by where their positions stand ascend, where no two stand at
one. -/
theorem ascending_sorted {α : Type} (position : α → Int) {le : α → α → Bool} {l : List α}
    (hle : ∀ a b, le a b = true ↔
      standing newestFirst (position a) ≤ standing newestFirst (position b))
    (hl : l.Pairwise fun a b => position a ≠ position b) :
    Ascending (fun a => standing newestFirst (position a)) (l.mergeSort le) := by
  have hordered : (l.mergeSort le).Pairwise fun a b => le a b := by
    refine List.pairwise_mergeSort (fun a b c hab hbc => ?_) (fun a b => ?_) l
    · rw [hle] at hab hbc ⊢
      exact hab.trans hbc
    · rw [Bool.or_eq_true, hle, hle]
      exact le_total _ _
  have hapart : (l.mergeSort le).Pairwise fun a b => position a ≠ position b :=
    (List.mergeSort_perm l le).symm.pairwise hl fun h => h.symm
  refine (hordered.and hapart).imp fun {a b} hab => ?_
  exact lt_of_le_of_ne ((hle a b).mp hab.1) fun heq => hab.2 (standing_inj heq)

theorem inDirection_mem {positions : List Int} {p : Int} :
    p ∈ inDirection newestFirst positions ↔ p ∈ positions := by
  unfold inDirection
  split <;> exact List.mem_mergeSort

theorem inDirection_ascending {positions : List Int} (h : positions.Nodup) :
    Ascending (standing newestFirst) (inDirection newestFirst positions) := by
  unfold inDirection
  cases newestFirst with
  | true =>
      exact ascending_sorted true id (fun a b => by simp [standing]) h
  | false =>
      exact ascending_sorted false id (fun a b => by simp [standing]) h

/-- A store's log, in order. -/
def Increasing (log : List Event) : Prop := log.Pairwise fun a b => a.position < b.position

variable {log : List Event} (hlog : Increasing log)

/-- Where an event stands in the order a page reads in. -/
def Event.standing (newestFirst : Bool) (e : Event) : Int :=
  ObjectFlow.standing newestFirst e.position

include hlog

theorem historyOf_ascending (ids : List String) :
    Ascending (Event.standing newestFirst) (historyOf log ids newestFirst) := by
  have hown := hlog.filter fun e => ids.contains e.objectId
  unfold historyOf
  cases newestFirst with
  | true =>
    refine List.pairwise_reverse.mpr (hown.imp fun {a b} hab => ?_)
    simp only [Event.standing, ObjectFlow.standing, if_true]
    omega
  | false => exact hown

theorem eventsAt_ascending (positions : List Int) :
    Ascending (Event.standing newestFirst) (eventsAt log newestFirst positions) := by
  have hown := (hlog.filter fun e => positions.contains e.position).imp fun {a b} hab => hab.ne
  unfold eventsAt
  cases newestFirst with
  | true =>
      exact ascending_sorted true Event.position (fun a b => by simp [ObjectFlow.standing]) hown
  | false =>
      exact ascending_sorted false Event.position (fun a b => by simp [ObjectFlow.standing]) hown

/-- The events at the positions of some of a log's, in the order they stand, are
those events. -/
theorem eventsAt_positions {some : List Event}
    (hsome : Ascending (Event.standing newestFirst) some) (hin : ∀ e ∈ some, e ∈ log) :
    eventsAt log newestFirst (some.map (·.position)) = some := by
  refine hsome.ext (eventsAt_ascending hlog _) fun e => ?_
  have hmem : e ∈ eventsAt log newestFirst (some.map (·.position)) ↔
      e ∈ log ∧ ∃ x ∈ some, x.position = e.position := by
    unfold eventsAt
    split <;> simp [List.mem_mergeSort]
  rw [hmem]
  constructor
  · rintro ⟨he, x, hx, hposition⟩
    have hunique : Ascending (fun e : Event => e.position) log := hlog
    exact hunique.unique (hin x hx) he hposition ▸ hx
  · exact fun he => ⟨hin e he, e, he, rfl⟩

end

/-! ### A page's rows -/

theorem chunks_flatten {α : Type} (n : Nat) (l : List α) : (chunks n l).flatten = l := by
  induction l using chunks.induct n with
  | case1 => simp [chunks]
  | case2 a rest ih =>
      rw [chunks, List.flatten_cons, ih, List.cons_append, List.take_append_drop]

theorem chunks_map {α β : Type} (f : α → β) (n : Nat) (l : List α) :
    chunks n (l.map f) = (chunks n l).map (·.map f) := by
  induction l using chunks.induct n with
  | case1 => simp [chunks]
  | case2 a rest ih =>
      rw [List.map_cons, chunks, chunks, List.map_cons, ← List.map_drop, ih, List.map_cons,
        List.map_take]

section

variable (bytes : Event → Nat) (budget : Nat)

/-- The rows taken are all of them, or some of the first ones. -/
theorem historyRows_spec (rows : List Event) (held : Nat) :
    ((historyRows bytes budget rows held).2.isSome ∧
        (historyRows bytes budget rows held).1 = rows) ∨
      (historyRows bytes budget rows held).2 = none ∧
        ∃ n, (historyRows bytes budget rows held).1 = rows.take (n + 1) ∧ rows ≠ [] := by
  induction rows generalizing held with
  | nil => exact .inl ⟨rfl, rfl⟩
  | cons e rest ih =>
      unfold historyRows
      split
      · exact .inr ⟨rfl, 0, rfl, List.cons_ne_nil _ _⟩
      · rcases ih (held + bytes e) with ⟨hsome, hall⟩ | ⟨hnone, n, htake, -⟩
        · exact .inl ⟨hsome, by rw [hall]⟩
        · exact .inr ⟨hnone, n + 1, by rw [htake, List.take_succ_cons], List.cons_ne_nil _ _⟩

/-- The rows taken of chunks are all of them, or some of the first ones. -/
theorem historyChunks_spec {log : List Event} {newestFirst : Bool} {parts : List (List Event)}
    (hparts : ∀ part ∈ parts, eventsAt log newestFirst (part.map (·.position)) = part)
    (held : Nat) :
    let page := historyChunks bytes budget log newestFirst (parts.map (·.map (·.position))) held
    (page.2 = true ∧ page.1 = parts.flatten) ∨
      page.2 = false ∧ ∃ n, page.1 = parts.flatten.take (n + 1) ∧ parts.flatten ≠ [] := by
  induction parts generalizing held with
  | nil => exact .inl ⟨rfl, rfl⟩
  | cons part rest ih =>
      have hpart := hparts part List.mem_cons_self
      have hrest := fun p hp => hparts p (List.mem_cons_of_mem part hp)
      dsimp only
      rw [List.map_cons, historyChunks, hpart, List.flatten_cons]
      rcases hrows : historyRows bytes budget part held with ⟨rows, _ | held'⟩
      · rcases historyRows_spec bytes budget part held with
          ⟨hsome, -⟩ | ⟨-, n, htake, hne⟩
        · rw [hrows] at hsome
          cases hsome
        · rw [hrows] at htake
          have hprefix : rows = (part ++ rest.flatten).take (min n (part.length - 1) + 1) := by
            have hlength := List.length_pos_iff.mpr hne
            rw [List.take_append_of_le_length (by omega), show rows = part.take (n + 1) from htake]
            by_cases hle : n ≤ part.length - 1
            · rw [Nat.min_eq_left hle]
            · rw [Nat.min_eq_right (by omega), List.take_of_length_le (by omega),
                List.take_of_length_le (by omega)]
          exact .inr ⟨rfl, _, hprefix, by simp [hne]⟩
      · rcases historyRows_spec bytes budget part held with
          ⟨-, hall⟩ | ⟨hnone, -⟩
        · rw [hrows] at hall
          have hall : rows = part := hall
          dsimp only
          rcases ih hrest held' with ⟨hwhole, heq⟩ | ⟨hcut, n, htake, hne⟩
          · exact .inl ⟨hwhole, by rw [hall, heq]⟩
          · refine .inr ⟨hcut, part.length + n, ?_, by simp [hne]⟩
            rw [hall, htake, Nat.add_assoc, List.take_length_add_append]
        · rw [hrows] at hnone
          cases hnone

end

/-! ### One page -/

section

variable {log : List Event} {ids : List String} (newestFirst : Bool) (cursor : Option Int)
  (hlog : Increasing log) (hrange : ∀ e ∈ log, 0 < e.position ∧ e.position < i64Max)

/-- What is left of a history after a cursor. -/
def historyLeft (log : List Event) (ids : List String) (newestFirst : Bool) (cursor : Option Int) :
    List Event :=
  leftAfter (Event.standing newestFirst) (standing newestFirst) (historyOf log ids newestFirst)
    cursor

variable (ids) in
include hlog in
theorem historyLeft_ascending :
    Ascending (Event.standing newestFirst) (historyLeft log ids newestFirst cursor) :=
  (historyOf_ascending hlog ids).past cursor

/-- Whether a position is past another in the order a page reads in. -/
theorem past_iff {bound p : Int} :
    (if newestFirst then decide (p < bound) else decide (bound < p)) = true ↔
      standing newestFirst bound < standing newestFirst p := by
  unfold standing
  cases newestFirst <;> simp

variable {newestFirst cursor} in
include hrange in
theorem mem_historyLeft {e : Event} :
    e ∈ historyLeft log ids newestFirst cursor ↔ e ∈ log ∧ e.objectId ∈ ids ∧
      standing newestFirst (cursor.getD (historyStart newestFirst)) <
        standing newestFirst e.position := by
  have hof : e ∈ historyOf log ids newestFirst ↔ e ∈ log ∧ e.objectId ∈ ids := by
    unfold historyOf
    split <;> simp
  cases cursor with
  | none =>
      have hleft : historyLeft log ids newestFirst none = historyOf log ids newestFirst := rfl
      rw [hleft, hof, Option.getD_none]
      refine ⟨fun ⟨he, hid⟩ => ⟨he, hid, ?_⟩, fun ⟨he, hid, _⟩ => ⟨he, hid⟩⟩
      have := hrange e he
      unfold standing historyStart
      split <;> omega
  | some c =>
      have hleft : historyLeft log ids newestFirst (some c) =
          (historyOf log ids newestFirst).filter fun e =>
            standing newestFirst c < e.standing newestFirst := rfl
      rw [hleft, List.mem_filter, hof, decide_eq_true_eq, Option.getD_some, and_assoc]
      rfl

include hlog hrange

/-- An object's positions past a cursor, at most so many, are those of its first
events left. -/
theorem historyRead_eq {id : String} (hid : id ∈ ids) (most : Nat) :
    historyRead log newestFirst id (cursor.getD (historyStart newestFirst)) most =
      (((historyLeft log ids newestFirst cursor).filter (·.objectId = id)).map
        (·.position)).take most := by
  have hleft := historyLeft_ascending ids newestFirst cursor hlog
  have hown : Ascending (standing newestFirst)
      (((historyLeft log ids newestFirst cursor).filter (·.objectId = id)).map (·.position)) :=
    List.pairwise_map.mpr (hleft.filter _)
  unfold historyRead
  refine congrArg (List.take most) (hown.ext (inDirection_ascending ?_) fun p => ?_)
  · refine List.pairwise_map.mpr (((hlog.filter _).filter _).imp fun {a b} hab => hab.ne)
  · rw [inDirection_mem, List.mem_map, List.mem_map]
    refine exists_congr fun e => and_congr_left fun _ => ?_
    rw [List.mem_filter, List.mem_filter, List.mem_filter, mem_historyLeft hrange, past_iff]
    constructor
    · rintro ⟨⟨he, howned⟩, hpast⟩
      exact ⟨⟨he, of_decide_eq_true howned ▸ hid, hpast⟩, howned⟩
    · rintro ⟨⟨he, -, hpast⟩, howned⟩
      exact ⟨⟨he, howned⟩, hpast⟩

/-- **The positions a page merges** and cuts to its limit are those of the first
events left. -/
theorem heads_eq (hids : ids.Nodup) (limit : Nat) :
    (inDirection newestFirst (ids.flatMap fun id =>
        historyRead log newestFirst id (cursor.getD (historyStart newestFirst)) limit)).take limit =
      ((historyLeft log ids newestFirst cursor).take limit).map (·.position) := by
  have hleft := historyLeft_ascending ids newestFirst cursor hlog
  have hall : Ascending (standing newestFirst)
      ((historyLeft log ids newestFirst cursor).map (·.position)) := List.pairwise_map.mpr hleft
  have hread := fun id (hid : id ∈ ids) =>
    historyRead_eq newestFirst cursor hlog hrange hid limit
  have hmem : ∀ {id p}, id ∈ ids →
      p ∈ historyRead log newestFirst id (cursor.getD (historyStart newestFirst)) limit →
        ∃ e ∈ historyLeft log ids newestFirst cursor, e.objectId = id ∧ e.position = p := by
    intro id p hid hp
    rw [hread id hid] at hp
    obtain ⟨e, he, rfl⟩ := List.mem_map.mp (List.mem_of_mem_take hp)
    obtain ⟨he, howned⟩ := List.mem_filter.mp he
    exact ⟨e, he, of_decide_eq_true howned, rfl⟩
  rw [List.map_take]
  refine hall.take_eq (inDirection_ascending ?_) (fun p hp => ?_) fun p hp => ?_
  · refine List.nodup_flatMap.mpr ⟨fun id hid => ?_, ?_⟩
    · rw [hread id hid]
      refine List.Nodup.sublist (List.take_sublist _ _) ?_
      exact List.pairwise_map.mpr ((hleft.filter _).imp fun {a b} hab heq => by
        rw [Event.standing, Event.standing, heq] at hab
        exact lt_irrefl _ hab)
    · refine hids.imp_of_mem fun {a b} ha hb hab p hpa hpb => ?_
      obtain ⟨e, he, rfl, hp⟩ := hmem ha hpa
      obtain ⟨e', he', rfl, hp'⟩ := hmem hb hpb
      have hone : e = e' := hleft.unique he he' (by rw [Event.standing, Event.standing, hp, hp'])
      exact hab (by rw [hone])
  · rw [inDirection_mem, List.mem_flatMap] at hp
    obtain ⟨id, hid, hp⟩ := hp
    obtain ⟨e, he, -, rfl⟩ := hmem hid hp
    exact List.mem_map_of_mem he
  · rw [← List.map_take] at hp
    obtain ⟨e, he, rfl⟩ := List.mem_map.mp hp
    have hid := ((mem_historyLeft hrange).mp (List.mem_of_mem_take he)).2.1
    rw [inDirection_mem, List.mem_flatMap]
    refine ⟨e.objectId, hid, ?_⟩
    rw [hread _ hid, ← List.map_take]
    exact List.mem_map_of_mem (mem_take_filter he (by simp))

/-- **One page** is of the first events left, at least one where any is, and all
of them where it names no position to go on from. -/
theorem historyPage_reads (hids : ids.Nodup) (bytes : Event → Nat) (budget : Nat) {limit : Nat}
    (hlimit : 0 < limit) :
    PageOf (Event.standing newestFirst) (standing newestFirst)
      (historyLeft log ids newestFirst cursor)
      (historyPage bytes budget log ids cursor limit newestFirst) := by
  have hleft := historyLeft_ascending ids newestFirst cursor hlog
  have hheads := heads_eq newestFirst cursor hlog hrange hids limit
  set left := historyLeft log ids newestFirst cursor with hleftdef
  have hin : ∀ e ∈ left.take limit, e ∈ log := fun e he =>
    ((mem_historyLeft hrange).mp (List.mem_of_mem_take he)).1
  have hparts : ∀ part ∈ chunks (CHUNK - 1) (left.take limit),
      eventsAt log newestFirst (part.map (·.position)) = part := by
    intro part hpart
    have hflat := chunks_flatten (CHUNK - 1) (left.take limit)
    have hsub : part.Sublist (left.take limit) := by
      rw [← hflat]
      exact List.sublist_flatten_of_mem hpart
    exact eventsAt_positions hlog ((hleft.sublist (List.take_sublist _ _)).sublist hsub)
      fun e he => hin e (hsub.subset he)
  have hrows := historyChunks_spec bytes budget hparts 0
  rw [chunks_flatten, ← chunks_map, ← hheads] at hrows
  have hlength := congrArg List.length hheads
  rw [List.length_map, List.length_take (l := left)] at hlength
  dsimp only at hrows
  unfold historyPage
  dsimp only
  generalize (inDirection newestFirst _).take limit = heads at hrows hlength ⊢
  generalize historyChunks bytes budget log newestFirst (chunks (CHUNK - 1) heads) 0 = page
    at hrows ⊢
  exact PageOf.cut (fun _ => rfl) hlimit hlength hrows

/-- **History is read whole**: whatever limits and bytes its pages are asked with,
following their cursor from the first page ends, having given every event of
the objects once, in order of position, or with `newestFirst` the latest
first. -/
theorem history_lossless (hids : ids.Nodup) (bytes : Event → Nat)
    (limit budget : Nat → Nat) (hlimit : ∀ k, 0 < limit k) :
    ∃ fuel, followPages (fun k cursor =>
        historyPage bytes (budget k) log ids cursor (limit k) newestFirst) fuel 0 none =
      some (historyOf log ids newestFirst) :=
  followPages_all (historyOf_ascending hlog ids) fun k _ =>
    historyPage_reads newestFirst _ hlog hrange hids bytes (budget k) (hlimit k)

end

/-- Two orders' events, as they stand in a log. -/
def orderEvents : List Event :=
  [("o1", 3), ("o2", 5), ("o3", 6), ("o2", 9), ("o1", 12)].map fun e =>
    {position := e.2, objectId := e.1, objectSeq := 1, transition := "tweak", fromState := none,
      toState := "open", changesState := false, source := "me", actorId := "me",
      actorKind := "human"}

theorem two_orders_read_whole : ∃ fuel,
    followPages (fun _ cursor => historyPage (fun _ => 10) 25 orderEvents ["o1", "o2"] cursor 3 true)
        fuel 0 none =
      some (historyOf orderEvents ["o1", "o2"] true) :=
  history_lossless true (by unfold Increasing; decide) (by decide) (by decide) (fun _ => 10)
    (fun _ => 3) (fun _ => 25) fun _ => by decide

end ObjectFlow
