import ObjectFlow.Base.Paging
import ObjectFlow.Held
import ObjectFlow.Scope

/-!
# Objects read from a place on

The objects of a type are read from a place in creation order a chunk at a time:
each table of the family is read to the chunk's length, and what they hold up to the
earliest place one of them was cut at is answered.  So a page of a query in creation
order, or of a worklist, reads what it shows and no more, and is the page the whole
type would give.
-/

namespace ObjectFlow

open Base

/-! ### What a table is asked -/

/-- Whether a value compared with a column of the declared type finds every row the
language's equality would: an integer only in an integer column, a decimal only in a
decimal column of its own scale. -/
def Value.comparable (v : Value) : Declared → Bool
  | .scalar s =>
      match v, s with
      | .int _, .named n => n = "int" || n = "counter" || n = "event"
      | .int _, _ => false
      | .decimal d, .decimal _ scale => scale = d.scale
      | .decimal _, _ => false
      | _, _ => true
  | _ =>
      match v with
      | .int _ | .decimal _ => false
      | _ => true

/-- Whether a column holds a value, an absent one, a set, a row and a value of
several fields aside. -/
def Value.inColumn : Value → Bool
  | .absent | .set _ | .row _ | .record .. => false
  | .decimal d | .money _ d => (fits64 d.units).isSome
  | _ => true

/-- Whether a type's column of an attribute is compared with the value given. -/
def FlowType.compares (t : FlowType) (c : String × Value) : Bool :=
  (t.attribute? c.1).any fun a => !a.many && c.2.comparable a.declared && c.2.inColumn

/-- What a read narrows a type's objects to: its states, where it names any, and
the values its columns hold or are absent of. -/
structure Narrowed where
  states : Option (List String) := none
  columns : List (String × Value) := []

/-- Whether an object is in the states and holds the values. -/
def Narrowed.selects (n : Narrowed) (o : Object) : Bool :=
  n.states.all (·.contains o.state) &&
    n.columns.all fun (a, v) => (o.attr a).isAbsent || (o.attr a).equals v

/-- A store's objects, in creation order. -/
structure StoredObjects where
  rows : List HeldObject
  ascending : Ascending (fun o : HeldObject => o.order) rows
  ids : (rows.map fun o => o.id).Nodup
  /-- Each after the place a read begins at. -/
  placed : ∀ o ∈ rows, i64Min < o.order
  /-- No more than an operation holds. -/
  fits : rows.length ≤ SLOTS

namespace StoredObjects

variable (s : StoredObjects) (lib : Library)

/-- The objects of a concrete type the store holds. -/
def readType (type : String) : List HeldObject := s.rows.filter fun o => o.type = type

/-- The objects of a concrete type after a place, the first so many of those a read
narrows to; none where a value has no column to compare in. -/
def readTypeFrom (type : String) (n : Narrowed) (after : Int) (first : Nat) :
    Except String (Option (List HeldObject)) :=
  if n.states = some [] then .ok (some [])
  else
    match lib.type? type with
    | none => .error ("the directory names a type " ++ type ++ " the library lacks")
    | some t =>
        if n.columns.all t.compares then
          .ok <| some <| (s.rows.filter fun o =>
            o.type = type && n.selects o.toObject && after < o.order).take first
        else .ok none

/-- The objects of a type's family a read narrows to. -/
def narrowed (type : String) (n : Narrowed) : List HeldObject :=
  s.rows.filter fun o => lib.isA o.type type && n.selects o.toObject

/-- Those of them after a place. -/
def narrowedFrom (type : String) (n : Narrowed) (after : Int) : List HeldObject :=
  (s.narrowed lib type n).filter fun o => after < o.order

end StoredObjects

namespace Held

variable (s : StoredObjects) (lib : Library) (n : Narrowed) (after : Int) (first : Nat)

/-- Each table of a family read to its limit and held, and the earliest last place
among those read to it. -/
def fromTables : List String → Option Int → Held → Except String (Option Int) × Held
  | [], cut, h => (.ok cut, h)
  | t :: rest, cut, h =>
      if h.whole.contains t then fromTables rest cut h
      else
        match s.readTypeFrom lib t n after first with
        | .error e =>
            (.error ("the store's objects of " ++ t ++
              " from a place, which could not be read: " ++ e), h)
        | .ok (some fetched) =>
            let cut :=
              match fetched.getLast? with
              | some last =>
                  if first ≤ fetched.length then
                    some (match cut with
                      | some c => min c last.order
                      | none => last.order)
                  else cut
              | none => cut
            match h.holdFetched fetched with
            | (.error e, h) => (.error e, h)
            | (.ok (), h) => fromTables rest cut h
        | .ok none =>
            match h.holdType t (.ok (s.readType t)) with
            | (.error e, h) => (.error e, h)
            | (.ok (), h) => fromTables rest cut h

/-- The types of a type's family. -/
def familyOf (type : String) : List String :=
  (Table.keys lib.types).filter fun t => lib.isA t type

/-- The next objects of a type after a place, and whether more may follow. -/
def ofTypeFrom (type : String) (h : Held) : Except String (List HeldObject × Bool) × Held :=
  match fromTables s lib n after first (familyOf lib type) none h with
  | (.error e, h) => (.error e, h)
  | (.ok cut, h) =>
      (.ok (h.heldInOrder fun o =>
        after < o.order && cut.all (o.order ≤ ·) && lib.isA o.type type && n.selects o.toObject,
        cut.isSome), h)

/-- What an operation that only reads holds of a store. -/
structure Mirrors (h : Held) : Prop where
  stored : ∀ o ∈ h.slots, o ∈ s.rows
  once : (h.slots.map fun o => o.id).Nodup
  known : ∀ o ∈ h.slots, ∃ slot, Table.get? h.byId o.id = some (some slot)
  found : ∀ id slot, Table.get? h.byId id = some (some slot) → ∃ o ∈ h.slots, o.id = id
  whole : ∀ t ∈ h.whole, ∀ o ∈ s.rows, o.type = t → o ∈ h.slots

theorem mirrors_empty : Mirrors s {} :=
  ⟨by simp, by simp, by simp, by simp, by simp⟩

end Held

theorem StoredObjects.eq_of_id (s : StoredObjects) {o o' : HeldObject} (ho : o ∈ s.rows)
    (ho' : o' ∈ s.rows) (h : o.id = o'.id) : o = o' :=
  List.inj_on_of_nodup_map s.ids ho ho' h

namespace Held

variable {s : StoredObjects} {lib : Library} {n : Narrowed} {after : Int} {first : Nat} {h : Held}

/-- There is a slot for an object not held. -/
theorem Mirrors.room (hm : h.Mirrors s) {o : HeldObject} (ho : o ∈ s.rows) (hnot : o ∉ h.slots) :
    h.slots.length < SLOTS := by
  have hslots : h.slots.Nodup := hm.once.of_map
  have hless : (o :: h.slots).length ≤ s.rows.length :=
    ((List.nodup_cons.mpr ⟨hnot, hslots⟩).subperm fun x hx => by
      rcases List.mem_cons.mp hx with rfl | hx
      · exact ho
      · exact hm.stored x hx).length_le
  have := s.fits
  simp only [List.length_cons] at hless
  omega

/-- An object of the store held in a new slot. -/
theorem Mirrors.hold (hm : h.Mirrors s) {o : HeldObject} (ho : o ∈ s.rows) (hnot : o ∉ h.slots) :
    Mirrors s { h with
      slots := h.slots ++ [o]
      byId := Table.put h.byId o.id (some h.slots.length) } := by
  constructor
  · intro x hx
    rcases List.mem_append.mp hx with hx | hx
    · exact hm.stored x hx
    · exact List.mem_singleton.mp hx ▸ ho
  · refine (List.map_append ..).symm ▸ List.nodup_append.mpr ⟨hm.once, by simp, ?_⟩
    intro i hi j hj hij
    obtain ⟨x, hx, rfl⟩ := List.mem_map.mp hi
    obtain rfl : j = o.id := by simpa using hj
    exact hnot (s.eq_of_id (hm.stored x hx) ho hij ▸ hx)
  · intro x hx
    rw [Table.get?_put]
    split
    case isTrue => exact ⟨_, rfl⟩
    case isFalse hne =>
      rcases List.mem_append.mp hx with hx | hx
      · exact hm.known x hx
      · exact absurd (List.mem_singleton.mp hx ▸ rfl) hne
  · intro id slot hslot
    rw [Table.get?_put] at hslot
    split at hslot
    case isTrue hid => exact ⟨o, List.mem_append_right _ List.mem_cons_self, hid⟩
    case isFalse =>
      obtain ⟨x, hx, hid⟩ := hm.found id slot hslot
      exact ⟨x, List.mem_append_left _ hx, hid⟩
  · exact fun t ht x hx htype => List.mem_append_left _ (hm.whole t ht x hx htype)

/-- **Objects of the store are held**: each once, beside those held already. -/
theorem Mirrors.holdFetched (hm : h.Mirrors s) {fetched : List HeldObject}
    (hfetched : ∀ o ∈ fetched, o ∈ s.rows) :
    ∃ h', h.holdFetched fetched = (.ok (), h') ∧ h'.Mirrors s ∧ h'.whole = h.whole ∧
      (∀ o ∈ h.slots, o ∈ h'.slots) ∧ ∀ o ∈ fetched, o ∈ h'.slots := by
  induction fetched generalizing h with
  | nil => exact ⟨h, rfl, hm, rfl, fun _ => id, by simp⟩
  | cons o rest ih =>
      obtain ⟨ho, hrest⟩ := List.forall_mem_cons.mp hfetched
      by_cases hheld : ∃ slot, Table.get? h.byId o.id = some (some slot)
      · -- held already: the store has one object of the id
        obtain ⟨slot, hslot⟩ := hheld
        obtain ⟨o', ho', hid⟩ := hm.found o.id slot hslot
        obtain rfl := s.eq_of_id (hm.stored o' ho') ho hid
        obtain ⟨h', hheld', hm', hwhole, hkept, hrest'⟩ := ih hm hrest
        refine ⟨h', by rw [Held.holdFetched, hslot, hheld'], hm', hwhole, hkept, ?_⟩
        exact List.forall_mem_cons.mpr ⟨hkept _ ho', hrest'⟩
      · have hnot : o ∉ h.slots := fun hmem => hheld (hm.known o hmem)
        obtain ⟨h', hheld', hm', hwhole, hkept, hrest'⟩ := ih (hm.hold ho hnot) hrest
        refine ⟨h', ?_, hm', hwhole, fun x hx => hkept x (List.mem_append_left _ hx), ?_⟩
        · rw [Held.holdFetched]
          split
          case h_1 slot hslot => exact absurd ⟨slot, hslot⟩ hheld
          case h_2 =>
            rw [Held.hold, if_pos (hm.room ho hnot)]
            exact hheld'
        · exact List.forall_mem_cons.mpr
            ⟨hkept o (List.mem_append_right _ List.mem_cons_self), hrest'⟩

theorem Mirrors.holdType (hm : h.Mirrors s) (type : String) :
    ∃ h', h.holdType type (.ok (s.readType type)) = (.ok (), h') ∧ h'.Mirrors s ∧
      (∀ o ∈ h.slots, o ∈ h'.slots) ∧ (∀ o ∈ s.rows, o.type = type → o ∈ h'.slots) := by
  unfold Held.holdType
  by_cases hwhole : h.whole.contains type = true
  · rw [if_pos hwhole]
    exact ⟨h, rfl, hm, fun _ => id, hm.whole type (List.contains_iff_mem.mp hwhole)⟩
  · rw [if_neg hwhole]
    obtain ⟨h', hheld, hm', hsame, hkept, hall⟩ := @Mirrors.holdFetched s h hm (s.readType type)
      fun o ho => (List.mem_filter.mp ho).1
    have hof : ∀ o ∈ s.rows, o.type = type → o ∈ h'.slots := fun o ho htype =>
      hall o (List.mem_filter.mpr ⟨ho, decide_eq_true htype⟩)
    refine ⟨{ h' with whole := type :: h'.whole }, by dsimp only; rw [hheld], ?_, hkept, hof⟩
    exact ⟨hm'.stored, hm'.once, hm'.known, hm'.found, fun t ht o ho htype => by
      rcases List.mem_cons.mp ht with rfl | ht
      · exact hof o ho htype
      · exact hm'.whole t ht o ho htype⟩

/-- An object a read asks for: of the type or family, narrowed to, and after the
place. -/
def Asks (n : Narrowed) (after : Int) (o : HeldObject) : Prop :=
  n.selects o.toObject = true ∧ after < o.order

/-- What one table gives: all that is asked of it, or, read to its limit, all of it
up to the last. -/
theorem readTypeFrom_spec (hfirst : 0 < first) {type : String} {fetched : List HeldObject}
    (hread : s.readTypeFrom lib type n after first = .ok (some fetched)) :
    (∀ o ∈ fetched, o ∈ s.rows ∧ o.type = type ∧ Asks n after o) ∧
      ∀ o ∈ s.rows, o.type = type → Asks n after o →
        (first ≤ fetched.length → ∀ last, fetched.getLast? = some last → o.order ≤ last.order) →
          o ∈ fetched := by
  unfold StoredObjects.readTypeFrom at hread
  split at hread
  case isTrue hstates =>
    cases hread
    refine ⟨by simp, fun o _ _ hasks => ?_⟩
    have := hasks.1
    rw [Narrowed.selects, hstates] at this
    simp at this
  case isFalse =>
    split at hread
    · cases hread
    · split at hread
      case isFalse => cases hread
      case isTrue =>
        cases hread
        constructor
        · intro o ho
          have hall := (List.mem_filter.mp (List.mem_of_mem_take ho))
          simp only [Bool.and_eq_true, decide_eq_true_eq] at hall
          exact ⟨hall.1, hall.2.1.1, hall.2.1.2, hall.2.2⟩
        · intro o ho htype hasks hlast
          have hmem : o ∈ s.rows.filter fun o =>
              o.type = type && n.selects o.toObject && after < o.order :=
            List.mem_filter.mpr ⟨ho, by simp [htype, hasks.1, hasks.2]⟩
          have hascending := s.ascending.filter fun o =>
              o.type = type && n.selects o.toObject && decide (after < o.order)
          by_cases hfew : first ≤ (s.rows.filter fun o =>
              o.type = type && n.selects o.toObject && after < o.order).length
          · cases hget : ((s.rows.filter fun o =>
                o.type = type && n.selects o.toObject && after < o.order).take first).getLast? with
            | none =>
                rw [List.getLast?_eq_none_iff, List.take_eq_nil_iff] at hget
                rcases hget with hzero | hnil
                · omega
                · rw [hnil] at hmem
                  cases hmem
            | some last =>
                exact Ascending.mem_take_of_le hascending hget hmem
                  (hlast (by rw [List.length_take]; omega) last hget)
          · rw [List.take_of_length_le (by omega)]
            exact hmem

/-- What reading the tables of some types leaves: it holds all that is asked for of
them up to the place it is cut at, which is the earlier of one it was cut at before
and of some object asked for. -/
structure ReadTo (s : StoredObjects) (n : Narrowed) (after : Int) (types : List String)
    (cut cut' : Option Int) (h h' : Held) : Prop where
  mirrors : h'.Mirrors s
  kept : ∀ o ∈ h.slots, o ∈ h'.slots
  held : ∀ o ∈ s.rows, o.type ∈ types → Asks n after o → (∀ c, cut' = some c → o.order ≤ c) →
    o ∈ h'.slots
  earlier : ∀ c, cut = some c → ∃ c', cut' = some c' ∧ c' ≤ c
  asked : ∀ c', cut' = some c' → cut = some c' ∨
    ∃ o ∈ s.rows, o.type ∈ types ∧ Asks n after o ∧ o.order = c'

/-- A table that is held whole, or was read to no limit. -/
theorem ReadTo.uncut {h' : Held} {type : String} (cut : Option Int) (hm : h'.Mirrors s)
    (hkept : ∀ o ∈ h.slots, o ∈ h'.slots)
    (hheld : ∀ o ∈ s.rows, o.type = type → Asks n after o → o ∈ h'.slots) :
    ReadTo s n after [type] cut cut h h' where
  mirrors := hm
  kept := hkept
  held o ho htype hasks _ := hheld o ho (List.mem_singleton.mp htype) hasks
  earlier c hc := ⟨c, hc, le_rfl⟩
  asked _ := .inl

theorem ReadTo.cons {h₁ h' : Held} {cut cut₁ cut' : Option Int} {type : String}
    {rest : List String} (first : ReadTo s n after [type] cut cut₁ h h₁)
    (others : ReadTo s n after rest cut₁ cut' h₁ h') :
    ReadTo s n after (type :: rest) cut cut' h h' where
  mirrors := others.mirrors
  kept o ho := others.kept o (first.kept o ho)
  held o ho htype hasks hcut := by
    rcases List.mem_cons.mp htype with htype | htype
    · refine others.kept o (first.held o ho (List.mem_singleton.mpr htype) hasks fun c hc => ?_)
      obtain ⟨c', hc', hle⟩ := others.earlier c hc
      exact (hcut c' hc').trans hle
    · exact others.held o ho htype hasks hcut
  earlier c hc := by
    obtain ⟨c₁, hc₁, hle₁⟩ := first.earlier c hc
    obtain ⟨c', hc', hle⟩ := others.earlier c₁ hc₁
    exact ⟨c', hc', hle.trans hle₁⟩
  asked c' hc' := by
    rcases others.asked c' hc' with hc₁ | ⟨o, ho, htype, hasks, horder⟩
    · rcases first.asked c' hc₁ with hc | ⟨o, ho, htype, hasks, horder⟩
      · exact .inl hc
      · exact .inr ⟨o, ho, List.mem_cons.mpr (.inl (List.mem_singleton.mp htype)), hasks, horder⟩
    · exact .inr ⟨o, ho, List.mem_cons_of_mem _ htype, hasks, horder⟩

/-- **The tables of a family**, read to their limits one after another. -/
theorem Mirrors.fromTables (hm : h.Mirrors s) (hfirst : 0 < first) {family : List String}
    (htypes : ∀ t ∈ family, (lib.type? t).isSome) (cut : Option Int) :
    ∃ cut' h', h.fromTables s lib n after first family cut = (.ok cut', h') ∧
      ReadTo s n after family cut cut' h h' := by
  induction family generalizing h cut with
  | nil =>
      exact ⟨cut, h, rfl, hm, fun _ => id, by simp, fun c hc => ⟨c, hc, le_rfl⟩, fun c' => .inl⟩
  | cons t rest ih =>
      obtain ⟨ht, hrest⟩ := List.forall_mem_cons.mp htypes
      have hnext : ∀ {h₁ : Held} {cut₁ : Option Int}, ReadTo s n after [t] cut cut₁ h h₁ →
          ∃ cut' h', h₁.fromTables s lib n after first rest cut₁ = (.ok cut', h') ∧
            ReadTo s n after (t :: rest) cut cut' h h' := by
        intro h₁ cut₁ hone
        obtain ⟨cut', h', hread, hothers⟩ := ih hone.mirrors hrest cut₁
        exact ⟨cut', h', hread, hone.cons hothers⟩
      unfold Held.fromTables
      by_cases hwhole : h.whole.contains t = true
      · rw [if_pos hwhole]
        exact hnext (.uncut cut hm (fun _ => id)
          fun o ho htype _ => hm.whole t (List.contains_iff_mem.mp hwhole) o ho htype)
      · rw [if_neg hwhole]
        cases hread : s.readTypeFrom lib t n after first with
        | error e =>
            unfold StoredObjects.readTypeFrom at hread
            obtain ⟨type, htype⟩ := Option.isSome_iff_exists.mp ht
            rw [htype] at hread
            dsimp only at hread
            split at hread
            · cases hread
            · split at hread
              · cases hread
              · cases hread
        | ok fetched =>
            cases fetched with
            | none =>
                obtain ⟨h₁, hheld, hm₁, hkept, hall⟩ := hm.holdType t
                dsimp only
                rw [hheld]
                exact hnext (.uncut cut hm₁ hkept fun o ho htype _ => hall o ho htype)
            | some fetched =>
                obtain ⟨hgiven, hasked⟩ := readTypeFrom_spec hfirst hread
                obtain ⟨h₁, hheld, hm₁, -, hkept, hall⟩ :=
                  hm.holdFetched fun o ho => (hgiven o ho).1
                dsimp only
                rw [hheld]
                cases hlast : fetched.getLast? with
                | none =>
                    refine hnext (.uncut cut hm₁ hkept fun o ho htype hasks => ?_)
                    exact hall o (hasked o ho htype hasks fun _ last h => by rw [hlast] at h; cases h)
                | some last =>
                    have hmem := List.mem_of_getLast? hlast
                    dsimp only
                    by_cases hfull : first ≤ fetched.length
                    · rw [if_pos hfull]
                      refine hnext ⟨hm₁, hkept, fun o ho htype hasks hcut => ?_, fun c hc => ?_,
                        fun c' hc' => ?_⟩
                      · refine hall o (hasked o ho (List.mem_singleton.mp htype) hasks
                          fun _ last' h => ?_)
                        rw [hlast] at h
                        cases h
                        have := hcut _ rfl
                        cases cut with
                        | none => exact this
                        | some c => exact this.trans (min_le_right _ _)
                      · rw [hc]
                        exact ⟨_, rfl, min_le_left _ _⟩
                      · obtain ⟨hstored, htype, hasks⟩ := hgiven last hmem
                        have hlastAsked : ∃ o ∈ s.rows, o.type ∈ [t] ∧ Asks n after o ∧
                            o.order = last.order :=
                          ⟨last, hstored, List.mem_singleton.mpr htype, hasks, rfl⟩
                        cases cut with
                        | none =>
                            cases hc'
                            exact .inr hlastAsked
                        | some c =>
                            cases hc'
                            rcases min_choice c last.order with hmin | hmin
                            · exact .inl (congrArg some hmin.symm)
                            · dsimp only
                              rw [hmin]
                              exact .inr hlastAsked
                    · rw [if_neg hfull]
                      refine hnext (.uncut cut hm₁ hkept fun o ho htype hasks => ?_)
                      exact hall o (hasked o ho htype hasks fun h => absurd h hfull)

/-- A type whose base another is, is a type of the library. -/
theorem isA_known {type want : String} (hknown : (lib.type? want).isSome)
    (h : lib.isA type want = true) : type ∈ familyOf lib want := by
  refine List.mem_filter.mpr ⟨Table.mem_keys.mpr ?_, h⟩
  rcases Bool.or_eq_true_iff.mp h with hsame | hbase
  · exact of_decide_eq_true hsame ▸ hknown
  · cases htype : lib.type? type with
    | some t => exact Option.isSome_iff_exists.mpr ⟨t, htype⟩
    | none =>
        have hnone : lib.bases type = [] := by
          unfold Library.bases
          rw [htype, Option.bind_none]
          cases lib.types.length <;> rfl
        rw [hnone] at hbase
        cases hbase

theorem familyOf_known {want t : String} (h : t ∈ familyOf lib want) : (lib.type? t).isSome :=
  Table.mem_keys.mp (List.mem_filter.mp h).1

/-- **A chunk is the first of what is left**, up to some place: all of it, or, where
more may follow, some of it. -/
theorem Mirrors.ofTypeFrom (hm : h.Mirrors s) (hfirst : 0 < first) {type : String}
    (hknown : (lib.type? type).isSome) :
    ∃ next more h', h.ofTypeFrom s lib n after first type = (.ok (next, more), h') ∧ h'.Mirrors s ∧
      (∃ upto : Option Int, more = upto.isSome ∧
        next = (s.narrowedFrom lib type n after).filter fun o => upto.all (o.order ≤ ·)) ∧
      (more = true → next ≠ []) := by
  obtain ⟨cut, h', hread, hreads⟩ := @Mirrors.fromTables s lib n after first h hm hfirst
    (familyOf lib type) (fun t ht => familyOf_known ht) none
  have hmem : ∀ o, o ∈ h'.heldInOrder (fun o =>
        after < o.order && cut.all (o.order ≤ ·) && lib.isA o.type type && n.selects o.toObject) ↔
      o ∈ (s.narrowedFrom lib type n after).filter fun o => cut.all (o.order ≤ ·) := by
    intro o
    simp only [heldInOrder, ordered, List.mem_mergeSort, List.mem_filter, Bool.and_eq_true,
      decide_eq_true_eq, StoredObjects.narrowedFrom, StoredObjects.narrowed]
    constructor
    · rintro ⟨ho, ⟨⟨hafter, hcut⟩, hisA⟩, hselects⟩
      exact ⟨⟨⟨hreads.mirrors.stored o ho, hisA, hselects⟩, hafter⟩, hcut⟩
    · rintro ⟨⟨⟨ho, hisA, hselects⟩, hafter⟩, hcut⟩
      refine ⟨hreads.held o ho (isA_known hknown hisA) ⟨hselects, hafter⟩ fun c hc => ?_,
        ⟨⟨hafter, hcut⟩, hisA⟩, hselects⟩
      rw [hc] at hcut
      simpa using hcut
  have hplaced : Placed (h'.slots.filter fun o =>
      after < o.order && cut.all (o.order ≤ ·) && lib.isA o.type type && n.selects o.toObject) := by
    refine List.Nodup.sublist (List.filter_sublist.map _) ?_
    refine (List.nodup_map_iff_inj_on hreads.mirrors.once.of_map).mpr fun x hx y hy hxy => ?_
    exact s.ascending.unique (hreads.mirrors.stored x hx) (hreads.mirrors.stored y hy) hxy
  have hnext : h'.heldInOrder (fun o =>
        after < o.order && cut.all (o.order ≤ ·) && lib.isA o.type type && n.selects o.toObject) =
      (s.narrowedFrom lib type n after).filter fun o => cut.all (o.order ≤ ·) :=
    Ascending.ext (((s.ascending.filter _).filter _).filter _) (ordered_ascending hplaced) hmem
  refine ⟨_, cut.isSome, h', ?_, hreads.mirrors, ⟨cut, rfl, hnext⟩, fun hmore hnil => ?_⟩
  · unfold Held.ofTypeFrom
    rw [hread]
  · -- the place it is cut at is one of what it answers
    obtain ⟨c, hc⟩ := Option.isSome_iff_exists.mp hmore
    rcases hreads.asked c hc with hnone | ⟨o, ho, htype, ⟨hselects, hafter⟩, horder⟩
    · cases hnone
    · have hin := (hmem o).mpr (List.mem_filter.mpr ⟨List.mem_filter.mpr ⟨List.mem_filter.mpr ⟨ho,
        Bool.and_eq_true_iff.mpr ⟨(List.mem_filter.mp htype).2, hselects⟩⟩,
        decide_eq_true hafter⟩, by rw [hc]; simp [horder]⟩)
      rw [hnil] at hin
      cases hin

end Held

/-! ### Judging what is read -/

/-- Why a query answers nothing: the store could not be read, its filter's
evaluation does not run, or an object of the type cannot answer its filter. -/
inductive QueryStop where
  | unreadable (why : String)
  | notRun (e : NotRun)
  | malformed (why : String)

namespace Query

/-- How many objects are read at a time, at least. -/
def CHUNK : Nat := 256

variable (judge : HeldObject → Except QueryStop Bool) (limit : Nat)

/-- Objects judged in turn, beside those chosen before, until more than the limit
are; and whether they are. -/
def judged : List HeldObject → List HeldObject → Except QueryStop (List HeldObject × Bool)
  | [], chosen => .ok (chosen, false)
  | o :: rest, chosen => do
      let chosen := if ← judge o then chosen ++ [o] else chosen
      if limit < chosen.length then return (chosen, true) else judged rest chosen

/-- A type's objects read from a place and judged a chunk at a time, until more than
the limit are chosen or none is left; none where the fuel ran out. -/
def chosenFrom (s : StoredObjects) (lib : Library) (type : String) (n : Narrowed) :
    Nat → Int → List HeldObject → Held → Option (Except QueryStop (List HeldObject)) × Held
  | 0, _, _, h => (none, h)
  | fuel + 1, after, chosen, h =>
      match h.ofTypeFrom s lib n after (max (limit + 1) CHUNK) type with
      | (.error e, h) => (some (.error (.unreadable e)), h)
      | (.ok (next, more), h) =>
          match judged judge limit next chosen with
          | .error e => (some (.error e), h)
          | .ok (chosen, full) =>
              match next.getLast? with
              | some last =>
                  if full || !more then (some (.ok chosen), h)
                  else chosenFrom s lib type n fuel last.order chosen h
              | none => (some (.ok chosen), h)

variable {judge limit} {chosen : List HeldObject} {p : HeldObject → Bool}

/-- What is judged of some objects is the first of those chosen, or all of them. -/
theorem judged_spec {next : List HeldObject} (hjudge : ∀ o ∈ next, judge o = .ok (p o))
    (hfew : chosen.length ≤ limit) :
    ∃ chosen' full, judged judge limit next chosen = .ok (chosen', full) ∧
      chosen' <+: chosen ++ next.filter p ∧
      (full = true → limit < chosen'.length) ∧
      (full = false → chosen' = chosen ++ next.filter p ∧ chosen'.length ≤ limit) := by
  induction next generalizing chosen with
  | nil => exact ⟨chosen, false, rfl, by simp, by simp, by simpa using hfew⟩
  | cons o rest ih =>
      obtain ⟨ho, hrest⟩ := List.forall_mem_cons.mp hjudge
      have hsplit : chosen ++ (o :: rest).filter p =
          (if p o then chosen ++ [o] else chosen) ++ rest.filter p := by
        cases hp : p o <;> simp [hp]
      rw [judged, ho, hsplit]
      change ∃ chosen' full, (if limit < (if p o then chosen ++ [o] else chosen).length then
        .ok ((if p o then chosen ++ [o] else chosen), true)
        else judged judge limit rest (if p o then chosen ++ [o] else chosen)) = _ ∧ _
      by_cases hmany : limit < (if p o then chosen ++ [o] else chosen).length
      · rw [if_pos hmany]
        exact ⟨_, true, rfl, List.prefix_append _ _, fun _ => hmany, by simp⟩
      · rw [if_neg hmany]
        exact ih hrest (not_lt.mp hmany)

/-- **Reading by chunks is reading the whole**: what is chosen from a place on is the
first of what the whole type would give, more than the limit of it, or all of it. -/
theorem chosenFrom_spec {s : StoredObjects} {lib : Library} {type : String} {n : Narrowed}
    (hknown : (lib.type? type).isSome) {fuel : Nat} {after : Int} {h : Held} (hm : h.Mirrors s)
    (hfuel : (s.narrowedFrom lib type n after).length < fuel)
    (hjudge : ∀ o ∈ s.narrowedFrom lib type n after, judge o = .ok (p o))
    (hfew : chosen.length ≤ limit) :
    ∃ chosen' h', chosenFrom judge limit s lib type n fuel after chosen h =
        (some (.ok chosen'), h') ∧ h'.Mirrors s ∧
      chosen' <+: chosen ++ (s.narrowedFrom lib type n after).filter p ∧
      (limit < chosen'.length ∨ chosen' = chosen ++ (s.narrowedFrom lib type n after).filter p) := by
  induction fuel generalizing after chosen h with
  | zero => omega
  | succ fuel ih =>
      obtain ⟨next, more, h', hread, hm', ⟨upto, hmore, hnext⟩, hsome⟩ :=
        @Held.Mirrors.ofTypeFrom s lib n after (max (limit + 1) CHUNK) h hm (by omega) type hknown
      have hascending : Ascending (fun o : HeldObject => o.order)
          (s.narrowedFrom lib type n after) := (s.ascending.filter _).filter _
      have hbegins : next <+: s.narrowedFrom lib type n after := by
        cases upto with
        | none =>
            rw [hnext]
            simp
        | some c =>
            have hparted := hascending.parted c
            rw [hnext]
            exact ⟨_, hparted.symm⟩
      have hin : ∀ o ∈ next, o ∈ s.narrowedFrom lib type n after := fun o ho => hbegins.subset ho
      obtain ⟨chosen₁, full, hjudged, hfirst, hfull, hall⟩ :=
        judged_spec (fun o ho => hjudge o (hin o ho)) hfew
      have hfirst' : chosen₁ <+: chosen ++ (s.narrowedFrom lib type n after).filter p :=
        hfirst.trans ((List.prefix_append_right_inj chosen).mpr (hbegins.filter p))
      -- where nothing more follows, the chunk was all that is left
      have hwhole : upto = none → next = s.narrowedFrom lib type n after := by
        rintro rfl
        rw [hnext]
        simp
      unfold chosenFrom
      rw [hread]
      dsimp only
      rw [hjudged]
      dsimp only
      cases hlast : next.getLast? with
      | none =>
          obtain rfl := List.getLast?_eq_none_iff.mp hlast
          have hnone : upto = none := by
            cases upto with
            | none => rfl
            | some c => exact absurd rfl (hsome (by rw [hmore]; rfl))
          refine ⟨chosen₁, h', rfl, hm', hfirst', ?_⟩
          cases full with
          | true => exact .inl (hfull rfl)
          | false => exact .inr (by rw [(hall rfl).1, hwhole hnone])
      | some last =>
          dsimp only
          by_cases hdone : (full || !more) = true
          · rw [if_pos hdone]
            refine ⟨chosen₁, h', rfl, hm', hfirst', ?_⟩
            cases full with
            | true => exact .inl (hfull rfl)
            | false =>
                refine .inr ?_
                rw [(hall rfl).1, hwhole]
                cases upto with
                | none => rfl
                | some c =>
                    rw [hmore] at hdone
                    cases hdone
          · rw [if_neg hdone]
            simp only [Bool.or_eq_true, Bool.not_eq_true', not_or, Bool.not_eq_true,
              Bool.not_eq_false] at hdone
            obtain ⟨rfl, hmoreTrue⟩ := hdone
            obtain ⟨hchosen, hfew₁⟩ := hall rfl
            rw [hmoreTrue] at hmore
            obtain ⟨c, rfl⟩ := Option.isSome_iff_exists.mp hmore.symm
            have hlastIn : last ∈ s.narrowedFrom lib type n after :=
              hin last (List.mem_of_getLast? hlast)
            have hafter : after < last.order := of_decide_eq_true (List.mem_filter.mp hlastIn).2
            have hlastc : last.order ≤ c := by
              have := List.mem_of_getLast? hlast
              rw [hnext] at this
              simpa using (List.mem_filter.mp this).2
            -- what the chunk held is what stands up to its last
            have hupto : next = (s.narrowedFrom lib type n after).filter
                fun o => o.order ≤ last.order := by
              rw [hnext]
              refine List.filter_congr fun o ho => ?_
              rw [Bool.eq_iff_iff]
              simp only [Option.all_some, decide_eq_true_eq]
              refine ⟨fun hoc => ?_, fun hol => hol.trans hlastc⟩
              refine Ascending.le_last (hascending.sublist hbegins.sublist) hlast ?_
              rw [hnext]
              exact List.mem_filter.mpr ⟨ho, by simpa using hoc⟩
            have hleft : s.narrowedFrom lib type n last.order =
                (s.narrowedFrom lib type n after).filter fun o => last.order < o.order := by
              unfold StoredObjects.narrowedFrom
              rw [List.filter_filter]
              refine List.filter_congr fun o _ => ?_
              rw [Bool.eq_iff_iff]
              simp only [Bool.and_eq_true, decide_eq_true_eq]
              omega
            have hparted := hascending.parted last.order
            rw [← hupto, ← hleft] at hparted
            have hlength := congrArg List.length hparted
            rw [List.length_append] at hlength
            have hpos := List.length_pos_iff.mpr (hsome hmoreTrue)
            have hfuel' : (s.narrowedFrom lib type n last.order).length < fuel := by omega
            obtain ⟨chosen', h'', hrest, hm'', hfirst'', hdone⟩ := ih hm' hfuel'
              (fun o ho => hjudge o (by rw [hparted]; exact List.mem_append_right _ ho)) hfew₁
            have hsame : chosen₁ ++ (s.narrowedFrom lib type n last.order).filter p =
                chosen ++ (s.narrowedFrom lib type n after).filter p := by
              rw [hchosen, List.append_assoc, ← List.filter_append, ← hparted]
            rw [hsame] at hfirst'' hdone
            exact ⟨chosen', h'', hrest, hm'', hfirst'', hdone⟩

end Query

end ObjectFlow
