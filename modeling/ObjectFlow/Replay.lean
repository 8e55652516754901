import ObjectFlow.Base.Journal
import ObjectFlow.Propose

/-!
# Replaying a log

An event's `wrote` applied to its object's attributes, and what it is for a
request's events to replay the rows it leaves.
-/

namespace ObjectFlow

open Base

/-- Attributes with what an event wrote applied: an absent value clears one. -/
def replayed (attrs wrote : Table String Value) : Table String Value :=
  wrote.foldr (fun (a, v) attrs =>
    if v.isAbsent then Table.erase attrs a else Table.set attrs a v) attrs

theorem replayed_cons (attrs : Table String Value) (k : String) (v : Value)
    (rest : Table String Value) : replayed attrs ((k, v) :: rest) =
      if v.isAbsent then Table.erase (replayed attrs rest) k
      else Table.set (replayed attrs rest) k v := rfl

theorem get?_replayed (attrs wrote : Table String Value) (a : String) :
    Table.get? (replayed attrs wrote) a =
      match Table.get? wrote a with
      | none => Table.get? attrs a
      | some v => if v.isAbsent then none else some v := by
  induction wrote with
  | nil => rfl
  | cons entry rest ih =>
      obtain ⟨k, v⟩ := entry
      rw [replayed_cons, Table.get?_cons]
      by_cases hk : k = a
      · subst hk
        rw [if_pos rfl]
        split
        case isTrue h => simp [h]
        case isFalse h => simp [h]
      · rw [if_neg hk, ← ih]
        split
        case isTrue => simp [hk]
        case isFalse => simp [hk]

/-- Every attribute holds the same value, one with no entry being absent. -/
def SameAttrs (a b : Table String Value) : Prop :=
  ∀ k, ((Table.get? a k).getD .absent).same ((Table.get? b k).getD .absent) = true

theorem sameAttrs_equivalence : Equivalence SameAttrs where
  refl := fun _ _ => Value.same_self _
  symm := fun h k => Value.same_symm (h k)
  trans := fun h h' k => Value.same_trans (h k) (h' k)

theorem SameAttrs.of_eq {a b : Table String Value} (h : a = b) : SameAttrs a b :=
  h ▸ sameAttrs_equivalence.refl a

theorem replayed_congr {a b : Table String Value} (wrote : Table String Value)
    (h : SameAttrs a b) : SameAttrs (replayed a wrote) (replayed b wrote) := by
  intro k
  rw [get?_replayed, get?_replayed]
  cases Table.get? wrote k with
  | none => exact h k
  | some v => exact Value.same_self _

/-- Attributes folded over what their object's events wrote. -/
def attrsFolding : Folding (Table String Value) (Table String Value) where
  apply := replayed
  same := SameAttrs
  equivalence := sameAttrs_equivalence
  congr := replayed_congr

theorem get?_foldl_set (v : Value) (ks : List String) (t : Table String Value) (a : String) :
    Table.get? (ks.foldl (fun out k => Table.set out k v) t) a =
      if a ∈ ks then some v else Table.get? t a := by
  induction ks generalizing t with
  | nil => simp
  | cons k rest ih =>
      rw [List.foldl_cons, ih, Table.get?_set]
      by_cases hk : k = a
      · simp [hk]
      · have hak : a ≠ k := Ne.symm hk
        simp [hk, hak]

theorem get?_wroteBetween (was now : Table String Value) (a : String) :
    Table.get? (wroteBetween was now) a =
      match Table.get? now a, Table.get? was a with
      | some v, u => if u.any (·.same v) then none else some v
      | none, some _ => some .absent
      | none, none => none := by
  rw [wroteBetween, get?_foldl_set, Table.get?_keep]
  have hgone : a ∈ (Table.keys was).filter (fun a => (Table.get? now a).isNone) ↔
      (Table.get? was a).isSome ∧ Table.get? now a = none := by
    rw [List.mem_filter, Option.isNone_iff_eq_none]
    refine and_congr_left fun _ => ⟨fun h => ?_, fun h => ?_⟩
    · obtain ⟨⟨k, v⟩, hmem, rfl⟩ := List.mem_map.mp h
      exact Table.get?_isSome_of_mem hmem
    · obtain ⟨v, hv⟩ := Option.isSome_iff_exists.mp h
      exact List.mem_map.mpr ⟨(a, v), Table.mem_of_get? hv, rfl⟩
  cases hnow : Table.get? now a with
  | some v =>
      rw [if_neg (by rw [hgone, hnow]; simp)]
      cases h : (Table.get? was a).any (·.same v) <;> simp [h]
  | none =>
      cases hwas : Table.get? was a with
      | none =>
          rw [if_neg (by rw [hgone, hwas]; simp)]
          rfl
      | some u =>
          rw [if_pos (hgone.mpr ⟨by rw [hwas]; rfl, hnow⟩)]

/-- **What an event wrote replays it**: applied to the attributes before, it
gives those after. -/
theorem replayed_wroteBetween (was now : Table String Value) :
    SameAttrs (replayed was (wroteBetween was now)) now := by
  intro a
  rw [get?_replayed, get?_wroteBetween]
  cases Table.get? now a with
  | none => cases Table.get? was a <;> simp [Value.isAbsent]
  | some v =>
      cases hwas : Table.get? was a with
      | none =>
          show Value.same (Option.getD (if v.isAbsent then none else some v) .absent) v = true
          split
          case isTrue h => simp [Value.isAbsent_iff.mp h]
          case isFalse => exact Value.same_self v
      | some u =>
          cases hsame : u.same v with
          | true => simp [hsame]
          | false =>
              simp only [Option.any_some, hsame, Bool.false_eq_true, if_false, Option.getD_some]
              split
              case isTrue h => simp [Value.isAbsent_iff.mp h]
              case isFalse => exact Value.same_self v

/-! ### A log that replays -/

/-- Each event taken from where the one before it went, the first from the
state given. -/
def Chained : Option String → List Event → Prop
  | _, [] => True
  | state, e :: rest => e.fromState = state ∧ Chained (some e.toState) rest

/-- An object's events, by position, replay what it was into what it is. -/
structure ReplaysTo (was : Option Object) (events : List Event) (now : Object) : Prop where
  /-- Their order by position is their order among the object's events. -/
  order : events.Pairwise fun a b => a.objectSeq < b.objectSeq
  chain : Chained (was.map (·.state)) events
  attrs : SameAttrs (events.foldl (fun attrs e => replayed attrs e.payload.wrote)
    ((was.map (·.attrs)).getD [])) now.attrs

/-- The events a change records. -/
def Change.events (c : Change) : List Event := c.writes.map fun (_, _, e) => e

/-- The events a change records of one object, by position. -/
def Change.eventsOf (c : Change) (id : String) : List Event :=
  inPositionOrder (c.events.filter fun e => e.objectId = id)

/-- Every object a change touches is replayed by its events: its row before the
request, folded over them, is the row the change leaves. -/
def LogReplays (w : World) (c : Change) : Prop :=
  ∀ o made e, (o, made, e) ∈ c.writes → ReplaysTo (w.get e.objectId) (c.eventsOf e.objectId) o

/-- What the event table takes: no two events of one place among their object's
events. -/
def Change.Storable (c : Change) : Prop :=
  (c.events.map fun e => (e.objectId, e.objectSeq)).Nodup

/-- A store as a request finds it: each object under its id, no id still to be
minted held, and nothing written yet. -/
structure World.Opens (w : World) (alloc : Counters) : Prop where
  named : ∀ id o, w.get id = some o → o.id = id
  fresh : ∀ type n, alloc.object < n → w.get (alloc.mintId type n) = none
  unwritten : w.lastWritten = []

/-- One event that tells where its object was and what changed replays it. -/
theorem replaysTo_single {was : Option Object} {e : Event} {now : Object}
    (hfrom : e.fromState = was.map (·.state))
    (hwrote : e.payload.wrote = wroteBetween ((was.map (·.attrs)).getD []) now.attrs) :
    ReplaysTo was [e] now where
  order := List.pairwise_singleton _ _
  chain := ⟨hfrom, trivial⟩
  attrs := by
    show SameAttrs (replayed _ e.payload.wrote) now.attrs
    rw [hwrote]
    exact replayed_wroteBetween _ _

/-- In position order no event of an object stands before one it follows. -/
theorem LogReplays.ordered {w : World} {c : Change} (h : LogReplays w c) {a b : Event}
    (ha : a ∈ c.events) (hb : b ∈ c.events) (hsame : a.objectId = b.objectId)
    (hposition : a.position < b.position) : a.objectSeq < b.objectSeq := by
  obtain ⟨⟨o, made, e⟩, hmem, rfl⟩ := List.mem_map.mp ha
  have horder := (h o made e hmem).order
  have hsorted : (c.eventsOf e.objectId).Pairwise fun a b => a.position ≤ b.position :=
    List.pairwise_insertionSort _ _
  have hin : ∀ f ∈ c.events, f.objectId = e.objectId → f ∈ c.eventsOf e.objectId := by
    intro f hf hid
    refine (List.mem_insertionSort _).mpr (List.mem_filter.mpr ⟨hf, ?_⟩)
    simpa using hid
  obtain ⟨i, hi, heq⟩ := List.mem_iff_getElem.mp (hin e (List.mem_map.mpr ⟨_, hmem, rfl⟩) rfl)
  obtain ⟨j, hj, rfl⟩ := List.mem_iff_getElem.mp (hin b hb hsame.symm)
  rw [List.pairwise_iff_getElem] at horder hsorted
  rcases lt_trichotomy i j with hij | rfl | hji
  · have hseq := horder i j hi hj hij
    rw [heq] at hseq
    exact hseq
  · rw [heq] at hposition
    exact absurd hposition (lt_irrefl _)
  · have hle := hsorted j i hj hi hji
    rw [heq] at hle
    exact absurd hposition (not_lt.mpr hle)

end ObjectFlow
