import ObjectFlow.Export

/-!
# Personal values and what withholds them

A value is personal where the installed version marks its member so, or where
the version that wrote it did: by the name the member had then, carried forward
over the renames of the type it was written under.  Every value so personal is
one an export withholds.
-/

namespace ObjectFlow

open Base List

/-! ### Names carried forward -/

namespace World

variable (w : World)

/-- A version's library, where the store holds it. -/
def heldLibrary (k : Int) : Option Library :=
  if k = w.lib.version then some w.lib else Table.get? w.earlier k

/-- A version renamed an attribute of a type. -/
def Renames (type : String) (k : Int) (old new : String) : Prop :=
  ∃ lib owner, w.heldLibrary k = some lib ∧ (owner, old, new) ∈ lib.renamedAttributes ∧
    lib.isA type owner = true

/-- A member's name over the renames of the versions given, each giving a name
to one member alone. -/
inductive Carried (type : String) : List Int → String → String → Prop
  | now (name : String) : Carried type [] name name
  | renamed {k : Int} {rest : List Int} {old new now : String} (renames : w.Renames type k old new)
      (alone : ∀ other, w.Renames type k other new → other = old)
      (later : Carried type rest new now) : Carried type (k :: rest) old now
  | kept {k : Int} {rest : List Int} {name now : String}
      (stays : ∀ new, ¬ w.Renames type k name new)
      (alone : ∀ other, ¬ w.Renames type k other name)
      (later : Carried type rest name now) : Carried type (k :: rest) name now

end World

theorem nameBack_append (w : World) (type : String) (first rest : List Int) (name : String) :
    w.nameBack type (first ++ rest) name = w.nameBack type rest (w.nameBack type first name) := by
  induction first generalizing name with
  | nil => rfl
  | cons k first ih => exact ih _

/-- The rename a version's library holds onto a name. -/
theorem renames_of_find {w : World} {type : String} {k : Int} {new : String}
    {found : String × String × String}
    (h : ((w.heldLibrary k).bind fun lib => lib.renamedAttributes.find? fun r =>
      lib.isA type r.1 && r.2.2 = new) = some found) :
    w.Renames type k found.2.1 new := by
  obtain ⟨lib, hlib, hfind⟩ := Option.bind_eq_some_iff.mp h
  have hmem := mem_of_find?_eq_some hfind
  have hp := find?_some hfind
  simp only [Bool.and_eq_true, decide_eq_true_eq] at hp
  obtain ⟨owner, old, name⟩ := found
  obtain ⟨howner, rfl⟩ := hp
  exact ⟨lib, owner, hlib, hmem, howner⟩

theorem find_of_renames {w : World} {type : String} {k : Int} {old new : String}
    (h : w.Renames type k old new) :
    ((w.heldLibrary k).bind fun lib => lib.renamedAttributes.find? fun r =>
      lib.isA type r.1 && r.2.2 = new).isSome = true := by
  obtain ⟨lib, owner, hlib, hmem, howner⟩ := h
  rw [hlib, Option.bind_some, find?_isSome]
  exact ⟨(owner, old, new), hmem, by simp [howner]⟩

/-- **Back over one version.**  A name carried over a version is taken back to
what it was. -/
theorem nameBack_renamed {w : World} {type : String} {k : Int} {old new : String}
    (h : w.Renames type k old new) (alone : ∀ other, w.Renames type k other new → other = old) :
    w.nameBack type [k] new = old := by
  obtain ⟨found, hfound⟩ := Option.isSome_iff_exists.mp (find_of_renames h)
  have hold := alone _ (renames_of_find hfound)
  simp only [World.nameBack]
  rw [show ((if k = w.lib.version then some w.lib else Table.get? w.earlier k).bind fun l =>
    l.renamedAttributes.find? fun r => l.isA type r.1 && r.2.2 = new) = some found from hfound]
  exact hold

theorem nameBack_kept {w : World} {type : String} {k : Int} {name : String}
    (alone : ∀ other, ¬ w.Renames type k other name) : w.nameBack type [k] name = name := by
  have hnone : ((w.heldLibrary k).bind fun lib => lib.renamedAttributes.find? fun r =>
      lib.isA type r.1 && r.2.2 = name) = none := by
    rw [Option.eq_none_iff_forall_ne_some]
    intro found hfound
    exact alone _ (renames_of_find hfound)
  simp only [World.nameBack]
  rw [show ((if k = w.lib.version then some w.lib else Table.get? w.earlier k).bind fun l =>
    l.renamedAttributes.find? fun r => l.isA type r.1 && r.2.2 = name) = none from hnone]

theorem nameBack_carried {w : World} {type : String} {versions : List Int} {name now : String}
    (h : w.Carried type versions name now) : w.nameBack type versions.reverse now = name := by
  induction h with
  | now name => rfl
  | renamed renames alone _ ih =>
      rw [reverse_cons, nameBack_append, ih, nameBack_renamed renames alone]
  | kept _ alone _ ih => rw [reverse_cons, nameBack_append, ih, nameBack_kept alone]

theorem namedUnder_eq (w : World) (version : Int) (type name : String) :
    w.namedUnder version type name = w.nameBack type (w.versionsAfter version).reverse name := by
  have hrev : (w.versionsAfter version).reverse =
      (range (w.lib.version - version).toNat).map fun i : Nat => w.lib.version - i := by
    apply ext_getElem (by simp [World.versionsAfter])
    intro i h₁ h₂
    simp only [World.versionsAfter, length_reverse, length_map, length_range] at h₁
    simp only [World.versionsAfter, getElem_reverse, getElem_map, getElem_range, length_map,
      length_range]
    omega
  rw [hrev, World.namedUnder]
  congr 1
  simp [map_map, Function.comp_def, ← map_eq_flatMap]

/-- **Forward and back.**  The name the installed version gives a member is taken
back to the one it was written under. -/
theorem namedUnder_carried {w : World} {type : String} {version : Int} {name now : String}
    (h : w.Carried type (w.versionsAfter version) name now) :
    w.namedUnder version type now = name := by
  rw [namedUnder_eq, nameBack_carried h]

/-! ### What is personal -/

namespace World

variable (w : World)

/-- A member, by the name the installed version gives it, is one the version
that wrote its value marked personal for the type its object was of. -/
def PersonalThen (version : Int) (type member : String) : Prop :=
  ∃ name, w.Carried type (w.versionsAfter version) name member ∧
    (w.typeAt version type).any (·.personal name) = true

/-- What an object holds of an attribute is personal: the installed version
marks it so, or the version that declared what it holds did. -/
def PersonalAttr (o : Object) (attr : String) : Prop :=
  (w.lib.type? o.type).any (·.personal attr) = true ∨
    ∃ version, declaredUnder w (w.eventsOf o.id) (Table.get? o.writes attr) o.type attr
      = some version ∧ w.PersonalThen version (typeThen (w.eventsOf o.id) o.type version) attr

/-- The value of a span of an object of a type is personal: the installed version
marks its member so, or the version it was written under did. -/
def PersonalSpan (id type dimension : String) (s : Span) : Prop :=
  dimension ≠ "state" ∧ ((w.lib.type? type).any (·.personal dimension) = true ∨
    w.PersonalThen s.declarationVersion (w.typesThen id s.declarationVersion) dimension)

/-- The type an event's values were of under a version: its object's then, or
the one its proposal names. -/
def valuesOf (e : Event) (version : Int) : String :=
  if (w.judged e).proposal then (w.judged e).type.getD "" else w.typesThen e.objectId version

/-- A value an event holds, an input's or a written one's, is personal: by the
installed version under the name it was written by or the one a later version
gave it, or by the version it was written under. -/
def PersonalValue (e : Event) (input : Bool) (name : String) : Prop :=
  let j := w.judged e
  personalNow w.lib j.type j.transition name = true ∨
    (∃ now, (j.type.bind w.lib.type?).any (·.personal now) = true ∧
      w.Carried (w.valuesOf e (writtenUnder e)) (w.versionsAfter (writtenUnder e)) name now) ∨
    if input then
      ∃ t x, w.typeAt e.declarationVersion (w.valuesOf e e.declarationVersion) = some t ∧
        t.transition? j.transition = some x ∧
          (t.personal name = true ∨ inputPersonal w.lib t x name = true)
    else (w.typeAt (writtenUnder e) (w.valuesOf e (writtenUnder e))).any (·.personal name) = true

end World

theorem personalUnder_of {w : World} {version : Int} {type member : String}
    (h : w.PersonalThen version type member) : w.personalUnder version type member = true := by
  obtain ⟨name, hcarried, hmarked⟩ := h
  rw [World.personalUnder, namedUnder_carried hcarried]
  cases ht : w.typeAt version type with
  | none => simp [ht] at hmarked
  | some t => simpa [ht, FlowType.personal] using hmarked

/-! ### What is personal is withheld -/

/-- An event is judged by its own transition of its object's type, or by the one
its proposal proposes. -/
theorem judged_cases (w : World) (e : Event) :
    (∃ type, w.judged e =
      { type, transition := e.transition, proposal := false
        was := .of w type e.transition e (w.typesThen e.objectId (writtenUnder e))
          (w.typesThen e.objectId e.declarationVersion) }) ∨
      ∃ target proposed, w.judged e =
        { type := some target, transition := proposed, proposal := true
          was := .of w (some target) proposed e target target } := by
  unfold World.judged
  cases w.get e.objectId with
  | none => exact .inl ⟨none, rfl⟩
  | some o =>
      dsimp only
      split
      · split
        · exact .inr ⟨_, _, rfl⟩
        · exact .inl ⟨some o.type, rfl⟩
      · exact .inl ⟨some o.type, rfl⟩

/-- What an event is judged by was taken from the types its values were of. -/
theorem judged_was (w : World) (e : Event) :
    (w.judged e).was = .of w (w.judged e).type (w.judged e).transition e
      (w.valuesOf e (writtenUnder e)) (w.valuesOf e e.declarationVersion) := by
  unfold World.valuesOf
  obtain ⟨type, hj⟩ | ⟨target, proposed, hj⟩ := judged_cases w e
  · simp [hj]
  · simp [hj]

theorem renamed_personal {u : WrittenUnder} {lib : Library} {input : Bool} {name : String}
    (h : name ∈ u.renamed) : u.personal lib input name = true := by
  simp [WrittenUnder.personal, h]

/-- **Withheld.**  An export withholds each personal value of an event. -/
theorem withholds_of_personal {w : World} {e : Event} {input : Bool} {name : String}
    (h : w.PersonalValue e input name) : (w.judged e).withholds w.lib input name = true := by
  rw [JudgedBy.withholds, Bool.or_eq_true]
  rcases h with hnow | ⟨now, hmarked, hcarried⟩ | hthen
  · exact .inl hnow
  · by_cases hname : name = now
    · -- the member kept its name, or has it again
      subst hname
      left
      rw [personalNow]
      cases ht : (w.judged e).type.bind w.lib.type? with
      | none => simp [ht] at hmarked
      | some t =>
          rw [ht, Option.any_some] at hmarked
          simp [hmarked]
    · right
      apply renamed_personal
      rw [judged_was, WrittenUnder.of]
      cases ht : (w.judged e).type.bind w.lib.type? with
      | none => simp [ht] at hmarked
      | some t =>
          rw [ht, Option.any_some, FlowType.personal, Option.any_eq_true] at hmarked
          obtain ⟨a, ha, hpersonal⟩ := hmarked
          have hback := namedUnder_carried hcarried
          refine mem_filterMap.mpr ⟨now, mem_map.mpr ⟨(now, a), ?_, rfl⟩, ?_⟩
          · exact mem_filter.mpr ⟨Table.mem_of_get? ha, hpersonal⟩
          · rw [hback, if_pos hname]
  · right
    rw [WrittenUnder.personal, judged_was, WrittenUnder.of, Bool.or_eq_true]
    right
    cases input with
    | false => exact hthen
    | true =>
        obtain ⟨t, x, ht, hx, hp⟩ := hthen
        rw [if_pos rfl, ht, Option.bind_some, hx, Option.map_some, Option.any_some]
        simpa using hp

theorem withholdsSpan_of {w : World} {s : CursoredSpan}
    (h : w.PersonalSpan s.objectId s.type s.dimension s.span) :
    w.withholdsSpan s (w.typesThen s.objectId s.span.declarationVersion) = true := by
  obtain ⟨hstate, hnow | hthen⟩ := h
  · simp [World.withholdsSpan, hstate, hnow]
  · simp [World.withholdsSpan, hstate, personalUnder_of hthen]

/-! ### Types moved into a type -/

theorem mem_addNames (names new : List String) (n : String) :
    n ∈ addNames names new ↔ n ∈ names ∨ n ∈ new := by
  induction new generalizing names with
  | nil => simp [addNames]
  | cons a new ih =>
      rw [addNames, foldl_cons, ← addNames, ih]
      split
      · rename_i ha
        constructor
        · rintro (h | h)
          · exact .inl h
          · exact .inr (mem_cons_of_mem _ h)
        · rintro (h | h)
          · exact .inl h
          · rcases mem_cons.mp h with rfl | h
            · exact .inl ha
            · exact .inr h
      · simp only [mem_append, mem_cons, not_mem_nil, or_false, or_assoc]

theorem addNames_nodup {names : List String} (new : List String) (h : names.Nodup) :
    (addNames names new).Nodup := by
  induction new generalizing names with
  | nil => exact h
  | cons a new ih =>
      rw [addNames, foldl_cons, ← addNames]
      apply ih
      split
      · exact h
      · rename_i ha
        exact nodup_append.mpr ⟨h, nodup_singleton a, by grind⟩

/-- Names grown by none are those there were, the new ones among them. -/
theorem of_addNames_length {names new : List String} (hnodup : names.Nodup)
    (h : (addNames names new).length = names.length) : ∀ n ∈ new, n ∈ names := by
  intro n hn
  have hsub : names ⊆ addNames names new := fun a ha => (mem_addNames ..).mpr (.inl ha)
  have hperm := (subperm_of_subset hnodup hsub).perm_of_length_le h.le
  exact hperm.symm.subset ((mem_addNames ..).mpr (.inr hn))

/-- The types a step of the search finds. -/
theorem mem_found {m : Moves} {types : List String} {before now : String}
    (h : m.takes before now = true) (hnow : now ∈ types) :
    before ∈ m.flatMap fun v =>
      (v.2.filter fun e => e.2.any types.contains).map Prod.fst := by
  simp only [Moves.takes, any_eq_true, Bool.and_eq_true, decide_eq_true_eq, contains_iff_mem] at h
  obtain ⟨v, hv, e, he, hbefore, hentered⟩ := h
  refine mem_flatMap.mpr ⟨v, hv, mem_map.mpr ⟨e, mem_filter.mpr ⟨he, ?_⟩, hbefore⟩⟩
  exact any_eq_true.mpr ⟨now, hentered, by simpa using hnow⟩

/-- **The search ends.**  The types moved into one, in any number of moves, are
all found. -/
theorem into_closed (m : Moves) {n : Nat} {t : String} {types : List String}
    (hnodup : types.Nodup) (hsub : types ⊆ t :: (m.flatMap Prod.snd).map Prod.fst)
    (hfuel : (m.flatMap Prod.snd).length + 1 < n + types.length) :
    types ⊆ m.into n types ∧ ∀ before now, m.takes before now = true →
      now ∈ m.into n types → before ∈ m.into n types := by
  induction n generalizing types with
  | zero =>
      have hlen := (subperm_of_subset hnodup hsub).length_le
      simp only [length_cons, length_map] at hlen
      omega
  | succ n ih =>
      set found := m.flatMap fun v =>
        (v.2.filter fun e => e.2.any types.contains).map Prod.fst with hfound
      have hgrown := addNames_nodup found hnodup
      have hgrew : types ⊆ addNames types found := fun a ha => (mem_addNames ..).mpr (.inl ha)
      rw [Moves.into, ← hfound]
      split
      · rename_i hlen
        refine ⟨fun a ha => ha, fun before now htakes hnow => ?_⟩
        exact of_addNames_length hnodup hlen _ (mem_found htakes hnow)
      · rename_i hlen
        have hle := (subperm_of_subset hnodup hgrew).length_le
        have hbound : addNames types found ⊆ t :: (m.flatMap Prod.snd).map Prod.fst := by
          intro a ha
          rcases (mem_addNames ..).mp ha with h | h
          · exact hsub h
          · obtain ⟨v, hv, h⟩ := mem_flatMap.mp h
            obtain ⟨e, he, rfl⟩ := mem_map.mp h
            have hmem := mem_flatMap.mpr ⟨v, hv, (mem_filter.mp he).1⟩
            exact mem_cons_of_mem _ (mem_map.mpr ⟨e, hmem, rfl⟩)
        obtain ⟨hkept, hclosed⟩ := ih hgrown hbound (by omega)
        exact ⟨fun a ha => hkept (hgrew ha), hclosed⟩

/-- The latest event first: a move at or after the version takes the type back. -/
theorem typeThen_concat (own : List Event) (e : Event) (current : String) (version : Int) :
    typeThen (own ++ [e]) current version =
      typeThen own ((e.payload.movedFrom.filter fun _ =>
        decide (version ≤ e.declarationVersion)).getD current) version := by
  rw [typeThen, reverse_append, reverse_singleton, singleton_append, foldl_cons, typeThen]
  congr 1
  cases e.payload.movedFrom with
  | none => rfl
  | some before => by_cases h : version ≤ e.declarationVersion <;> simp [h, Option.filter]

/-- The type an object was of then is one moved into its type. -/
theorem typeThen_mem {m : Moves} {types : List String}
    (hclosed : ∀ before now, m.takes before now = true → now ∈ types → before ∈ types)
    (version : Int) {own : List Event} {was now : String}
    (hlinked : m.linked own.reverse now = true) (hwas : was ∈ types) (hnow : now ∈ types) :
    typeThen own was version ∈ types := by
  induction own using List.reverseRecOn generalizing was now with
  | nil => exact hwas
  | append_singleton own e ih =>
      rw [reverse_append, reverse_singleton, singleton_append, Moves.linked] at hlinked
      rw [typeThen_concat]
      cases hmoved : e.payload.movedFrom with
      | none =>
          rw [hmoved] at hlinked
          exact ih hlinked hwas hnow
      | some before =>
          rw [hmoved, Bool.and_eq_true] at hlinked
          have hbefore := hclosed _ _ hlinked.1 hnow
          apply ih hlinked.2 _ hbefore
          by_cases hv : version ≤ e.declarationVersion
          · simpa [hv, Option.filter] using hbefore
          · simpa [hv, Option.filter] using hwas

/-! ### An object's personal attributes are withheld -/

theorem lastMigrated_mem {wrote : Event → Option Value} {indexed : Option Int} {events : List Event}
    {version : Int} (h : lastMigrated wrote indexed events = some version) :
    ∃ e ∈ events, writtenUnder e = version := by
  induction events with
  | nil => simp [lastMigrated] at h
  | cons e events ih =>
      rw [lastMigrated] at h
      have hearlier : lastMigrated wrote indexed events = some version →
          ∃ e' ∈ e :: events, writtenUnder e' = version := fun h =>
        (ih h).imp fun _ h => ⟨mem_cons_of_mem _ h.1, h.2⟩
      split at h
      · exact hearlier h
      · split at h
        · exact hearlier h
        · split at h
          · exact hearlier h
          · exact ⟨e, mem_cons_self, by simpa using h⟩

/-- What declared a value an object holds is a version the store holds. -/
theorem holds_declaredUnder (x : VersionedStore) {id : String} {indexed : Option Int}
    {current attr : String} {version : Int}
    (h : declaredUnder x.world (x.world.eventsOf id) indexed current attr = some version) :
    x.world.holdsVersion version = true := by
  have hversioned := all_eq_true.mp x.versioned
  simp only [World.versioned, Bool.and_eq_true] at hversioned
  rw [declaredUnder] at h
  dsimp only at h
  split at h
  · rename_i under hlast
    obtain ⟨e, he, hunder⟩ := lastMigrated_mem hlast
    have hmem : e ∈ x.world.log := (mem_filter.mp (mem_reverse.mp he)).1
    have := (hversioned e hmem).1.1
    simp only [Option.some.injEq] at h
    rwa [hunder, h] at this
  · obtain ⟨e, he, hunder⟩ := Option.map_eq_some_iff.mp h
    obtain ⟨position, -, he⟩ := Option.bind_eq_some_iff.mp he
    have hmem : e ∈ x.world.log := mem_of_find?_eq_some he
    have := (hversioned e hmem).1.2
    rwa [hunder] at this

/-- Under the installed version an object is of its own type. -/
theorem typeThen_now {events : List Event} {version : Int}
    (h : ∀ e ∈ events, e.payload.movedFrom.isNone = true ∨ e.declarationVersion < version)
    (current : String) : typeThen events current version = current := by
  induction events using List.reverseRecOn with
  | nil => rfl
  | append_singleton events e ih =>
      have he := h e (mem_append_right _ mem_cons_self)
      have hlater := ih fun e' he' => h e' (mem_append_left _ he')
      rw [typeThen_concat]
      cases hmoved : e.payload.movedFrom with
      | none => exact hlater
      | some before =>
          have hlt : e.declarationVersion < version := by simpa [hmoved] using he
          simpa [not_le.mpr hlt] using hlater

/-- **Withheld.**  An export withholds each personal attribute of an object. -/
theorem withholdsAttr_of {x : VersionedStore} {o : Object} (ho : o ∈ x.world.inOrder) {a : String}
    (h : x.world.PersonalAttr o a) : x.world.withholdsAttr x.moves o a = true := by
  rw [World.withholdsAttr, Bool.or_eq_true]
  rcases h with hnow | ⟨version, hdeclared, hthen⟩
  · exact .inl hnow
  have hversioned := all_eq_true.mp x.versioned
  simp only [World.versioned, Bool.and_eq_true, Bool.or_eq_true, decide_eq_true_eq] at hversioned
  by_cases hv : version = x.world.lib.version
  · left
    have htype : typeThen (x.world.eventsOf o.id) o.type version = o.type := by
      apply typeThen_now
      intro e he
      rw [hv]
      exact (hversioned e (mem_filter.mp he).1).2
    rw [htype] at hthen
    obtain ⟨name, hcarried, hmarked⟩ := hthen
    rw [World.versionsAfter, hv, Int.sub_self] at hcarried
    cases hcarried
    simpa [World.typeAt, World.libraryAt, hv] using hmarked
  · right
    have hunder := personalUnder_of hthen
    obtain ⟨hkept, hclosed⟩ := into_closed x.moves
      (n := (x.moves.flatMap Prod.snd).length + 1) (t := o.type) (nodup_singleton o.type)
      (by simp) (by simp)
    have hlinked := all_eq_true.mp x.linked o ho
    have hmem := typeThen_mem hclosed version hlinked (hkept mem_cons_self) (hkept mem_cons_self)
    have hheld := holds_declaredUnder x hdeclared
    simp only [World.holdsVersion, Bool.or_eq_true, decide_eq_true_eq, hv, false_or,
      contains_iff_mem] at hheld
    rw [Bool.and_eq_true]
    constructor
    · rw [World.oncePersonal]
      refine any_eq_true.mpr ⟨version, hheld, ?_⟩
      simp only [Bool.and_eq_true, ne_eq, hv, not_false_eq_true, decide_true, true_and]
      exact any_eq_true.mpr ⟨_, hmem, hunder⟩
    · dsimp only
      rw [hdeclared, Option.any_some]
      exact hunder

end ObjectFlow
