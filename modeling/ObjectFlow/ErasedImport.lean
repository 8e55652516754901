import ObjectFlow.LogReplays
import ObjectFlow.PortSound

/-!
# Imports of an erased object

An erasure takes an object's personal values out of the store, and a mirror's
refresh may bring them again.  The row of an erased object is built without
them, and so are its legacy entries; its event records what the batch gave as
it gave it, and the values between the one held and the one brought are opened
as they are read.  What is proved is that these two are the only ways back in,
over any run of requests and imports.
-/

namespace ObjectFlow

open Base

/-! ### What counts as personal -/

/-- A value that tells nothing: an absent one, or a set of none. -/
def Value.Blank (v : Value) : Prop := v = .absent ∨ v = .set []

/-- Whether a type's attribute is personal. -/
def Library.personalOf (lib : Library) (type a : String) : Bool :=
  ((lib.type? type).bind (·.attribute? a)).any (·.personal)

/-- No attribute is personal under a name the library gives: an object's state's,
and those of the times of an observation. -/
structure Library.PlainNames (lib : Library) : Prop where
  state : ∀ type, lib.personalOf type "state" = false
  recordedAt : ∀ type, lib.personalOf type "recorded_at" = false
  occurredAt : ∀ type, lib.personalOf type "occurred_at" = false

/-- A value of an object's attribute that tells nothing, or that the object held
already, in its row or in a span. -/
def Object.Held (h : Object) (a : String) (v : Value) : Prop :=
  v.Blank ∨ v = h.attr a ∨ ∃ list, (a, list) ∈ h.spans ∧ ∃ sp ∈ list, v = sp.value

/-- A later row of an object that holds no personal value it did not hold
before. -/
structure Object.Keeps (lib : Library) (h o : Object) : Prop where
  attrs : ∀ a, lib.personalOf h.type a = true → (o.attr a).Blank ∨ o.attr a = h.attr a
  spans : ∀ a, lib.personalOf h.type a = true → ∀ list, (a, list) ∈ o.spans →
    ∀ sp ∈ list, h.Held a sp.value

theorem Object.Keeps.refl (lib : Library) (h : Object) : h.Keeps lib h :=
  ⟨fun _ _ => .inr rfl, fun _ _ list hlist sp hsp => .inr (.inr ⟨list, hlist, sp, hsp, rfl⟩)⟩

/-- A payload that holds no personal value of an object of a type. -/
structure Payload.Plain (lib : Library) (type : String) (p : Payload) : Prop where
  inputs : ∀ a v, (a, v) ∈ p.inputs → lib.personalOf type a = true → v.Blank
  wrote : ∀ a v, Table.get? p.wrote a = some v → lib.personalOf type a = true → v.Blank
  corrected : p.corrected = []
  consulted : p.consulted = []

/-- What a step leaves of an object without a personal value of it that it did
not hold: in its row, in the payload of an event the step appends, in a span or
in a legacy entry, which keeps the fields its kind keeps. -/
structure PortStore.KeepsErased (s s' : PortStore) (id : String) : Prop where
  row : ∀ h o, s.world.get id = some h → s'.world.get id = some o → h.Keeps s.world.lib o
  events : ∀ h, s.world.get id = some h → ∀ e ∈ s'.world.stored, e.objectId = id →
    e ∈ s.world.stored ∨ e.payload.Plain s.world.lib h.type
  legacy : ∀ n ∈ (Table.get? s'.legacy id).getD [],
    n ∈ (Table.get? s.legacy id).getD [] ∨ n.payload = n.redacted

/-! ### What a batch may give of an erased object -/

/-- The object of the store a legacy key names. -/
def World.known (w : World) (external : ExternalIds) (key : LegacyKey) : Option String :=
  (external.object key).filter fun id => (w.get id).isSome

namespace ImportBatch

def keys (lib : Library) (batch : ImportBatch) : List LegacyKey :=
  batch.objects.map fun o => legacy lib o.type o.legacyKey

/-- What keys may name while a batch is placed: the object the store holds under
one, and nothing where neither the store nor the batch has it. -/
structure Resolves (w : World) (external : ExternalIds) (batch : ImportBatch)
    (resolve : LegacyKey → Option String) : Prop where
  known : ∀ key id, w.known external key = some id → resolve key = some id
  unknown : ∀ key, external.object key = none → key ∉ batch.keys w.lib → resolve key = none

/-- A batch gives an erased object no personal value: no attribute that tells
anything, and no earlier value of a personal member but an absent one or one
the store holds at that time. -/
structure GivesNothing (r : Readers) (w : World) (external : ExternalIds) (batch : ImportBatch)
    (o : ImportedObject) (h : Object) : Prop where
  attributes : ∀ a raw, (a, raw) ∈ o.attributes → w.lib.personalOf h.type a = true →
    raw.held.Blank
  intervals : ∀ t, w.lib.type? h.type = some t → ∀ l ∈ o.legacyIntervals,
    w.lib.personalOf h.type l.dimension = true →
      ∀ resolve, batch.Resolves w external resolve →
        ∀ v, earlierValue r w.lib resolve t l.dimension l.value "an intermediate value" = .ok v →
          v.Blank ∨ holdsValue (Spans.of h.spans l.dimension) l v = true

/-- A batch gives nothing personal of the erased objects it refreshes. -/
def Clear (r : Readers) (w : World) (external : ExternalIds) (batch : ImportBatch) : Prop :=
  ∀ o ∈ batch.objects, ∀ h,
    (external.object (legacy w.lib o.type o.legacyKey)).bind w.get = some h → h.erased = true →
      batch.GivesNothing r w external o h

end ImportBatch

/-! ### The values read -/

section

variable {r : Readers} {w : World}

/-- What reading an erased object leaves of what is personal: no value and no
reference of it. -/
structure Valued.Spares (lib : Library) (p : ImportPlaced) (v v' : Valued) : Prop where
  values : ∀ a, lib.personalOf p.given.type a = true →
    Table.get? v'.values a = Table.get? v.values a
  references : ∀ ref ∈ v'.references, ref ∈ v.references ∨
    (ref.index = p.index ∧ lib.personalOf p.given.type ref.name = false)

theorem readAttribute_spares {p : ImportPlaced} {t : FlowType} {a : String} {raw : Json}
    {v v' : Valued} (ht : w.lib.type? p.given.type = some t) (herased : p.erased = true)
    (h : readAttribute r w.lib p t a raw v = .ok v') : v.Spares w.lib p v' := by
  have hsame : v.Spares w.lib p v := ⟨fun _ _ => rfl, fun _ href => .inl href⟩
  unfold readAttribute at h
  cases hspec : t.attribute? a with
  | none =>
      rw [hspec] at h
      cases h
  | some spec =>
      rw [hspec] at h
      dsimp only at h
      have hpersonal : w.lib.personalOf p.given.type a = spec.personal := by
        simp [Library.personalOf, ht, hspec]
      split at h
      · cases h
        exact hsame
      · split at h
        · cases h
          exact hsame
        case isFalse hplain =>
          rw [herased, Bool.and_true, Bool.not_eq_true] at hplain
          split at h
          · cases h
            refine ⟨fun _ _ => rfl, fun ref href => ?_⟩
            rcases List.mem_append.mp href with href | href
            · exact .inl href
            · cases List.mem_singleton.mp href
              exact .inr ⟨rfl, hpersonal.trans hplain⟩
          · cases h
            unfold readScalar
            split
            · refine ⟨fun b hb => ?_, fun _ href => .inl href⟩
              rw [Table.get?_set_of_ne]
              rintro rfl
              rw [hpersonal, hplain] at hb
              cases hb
            · exact ⟨fun _ _ => rfl, fun _ href => .inl href⟩

theorem readAttributes_spares {p : ImportPlaced} {t : FlowType} {given : List (String × Json)}
    {v v' : Valued} (ht : w.lib.type? p.given.type = some t) (herased : p.erased = true)
    (h : readAttributes r w.lib p t given v = .ok v') : v.Spares w.lib p v' := by
  induction given generalizing v with
  | nil =>
      cases h
      exact ⟨fun _ _ => rfl, fun _ href => .inl href⟩
  | cons first rest ih =>
      obtain ⟨a, raw⟩ := first
      unfold readAttributes at h
      obtain ⟨read, hread, h⟩ := ok_of_bind h
      have hone := readAttribute_spares ht herased hread
      have hrest := ih h
      refine ⟨fun b hb => (hrest.values b hb).trans (hone.values b hb), fun ref href => ?_⟩
      rcases hrest.references ref href with href | href
      · exact hone.references ref href
      · exact .inr href

/-- Every reference an object's attributes add is that object's. -/
theorem readAttributes_index {p : ImportPlaced} {t : FlowType} {given : List (String × Json)}
    {v v' : Valued} (h : readAttributes r w.lib p t given v = .ok v') :
    ∀ ref ∈ v'.references, ref ∈ v.references ∨ ref.index = p.index := by
  induction given generalizing v with
  | nil =>
      cases h
      exact fun ref href => .inl href
  | cons first rest ih =>
      obtain ⟨a, raw⟩ := first
      unfold readAttributes at h
      obtain ⟨read, hread, h⟩ := ok_of_bind h
      intro ref href
      rcases ih h ref href with href | href
      · unfold readAttribute at hread
        split at hread
        · cases hread
        · split at hread
          · cases hread
            exact .inl href
          · split at hread
            · cases hread
              exact .inl href
            · split at hread
              · cases hread
                rcases List.mem_append.mp href with href | href
                · exact .inl href
                · cases List.mem_singleton.mp href
                  exact .inr rfl
              · cases hread
                unfold readScalar at href
                split at href <;> exact .inl href
      · exact .inr href

/-- One object read: nothing personal of an erased one, and references of its
own alone. -/
theorem readPlaced_spares {p q : ImportPlaced} {v v' : Valued} (hplain : w.lib.PlainNames)
    (htyped : (w.lib.type? p.given.type).isSome) (h : readPlaced r w p v = .ok (q, v')) :
    (∀ ref ∈ v'.references, ref ∈ v.references ∨ ref.index = p.index) ∧
      (p.erased = true →
        (∀ a, w.lib.personalOf p.given.type a = true → Table.get? q.values a = none) ∧
        ∀ ref ∈ v'.references, ref ∈ v.references ∨
          w.lib.personalOf p.given.type ref.name = false) := by
  obtain ⟨t, ht⟩ := Option.isSome_iff_exists.mp htyped
  unfold readPlaced at h
  rw [ht] at h
  dsimp only at h
  obtain ⟨read, hread, h⟩ := ok_of_bind h
  cases h
  have hindex := readAttributes_index hread
  refine ⟨hindex, fun herased => ?_⟩
  have hspares := readAttributes_spares ht herased hread
  refine ⟨fun a ha => ?_, fun ref href => (hspares.references ref href).imp_right And.right⟩
  rw [hspares.values a ha]
  -- an observation's times are not personal
  show Table.get? (observationTimes w.now t p.given) a = none
  unfold observationTimes
  split
  · rw [Table.get?_set_of_ne, Table.get?_set_of_ne, Table.get?_nil]
    · rintro rfl
      rw [hplain.recordedAt] at ha
      cases ha
    · rintro rfl
      rw [hplain.occurredAt] at ha
      cases ha
  · rfl

/-- Every reference read is an object's of the batch. -/
theorem readAll_index {placed placed' : List ImportPlaced} {v v' : Valued}
    (hplain : w.lib.PlainNames) (htyped : ∀ p ∈ placed, (w.lib.type? p.given.type).isSome)
    (h : readAll r w placed v = .ok (placed', v')) :
    ∀ ref ∈ v'.references, ref ∈ v.references ∨ ref.index ∈ placed.map ImportPlaced.index := by
  induction placed generalizing v placed' with
  | nil =>
      cases h
      exact fun ref href => .inl href
  | cons p rest ih =>
      unfold readAll at h
      obtain ⟨⟨q, read⟩, hone, h⟩ := ok_of_bind h
      obtain ⟨⟨others, last⟩, hrest, h⟩ := ok_of_bind h
      cases h
      have hown := (readPlaced_spares hplain (htyped p List.mem_cons_self) hone).1
      intro ref href
      rcases ih (fun p hp => htyped p (List.mem_cons_of_mem _ hp)) hrest ref href with href | href
      · rcases hown ref href with href | href
        · exact .inl href
        · exact .inr (List.mem_cons.mpr (.inl href))
      · exact .inr (List.mem_cons_of_mem _ href)

/-- **A batch read**: an erased object takes no personal value, and no reference
of its own is personal. -/
theorem readAll_spares {placed placed' : List ImportPlaced} {v v' : Valued}
    (hplain : w.lib.PlainNames) (htyped : ∀ p ∈ placed, (w.lib.type? p.given.type).isSome)
    (hindex : (placed.map ImportPlaced.index).Nodup)
    (h : readAll r w placed v = .ok (placed', v')) :
    ∀ q ∈ placed', q.erased = true →
      (∀ a, w.lib.personalOf q.given.type a = true → Table.get? q.values a = none) ∧
      ∀ ref ∈ v'.references, ref.index = q.index → ref ∈ v.references ∨
        w.lib.personalOf q.given.type ref.name = false := by
  induction placed generalizing v placed' with
  | nil =>
      cases h
      simp
  | cons p rest ih =>
      unfold readAll at h
      obtain ⟨⟨q, read⟩, hone, h⟩ := ok_of_bind h
      obtain ⟨⟨others, last⟩, hrest, h⟩ := ok_of_bind h
      cases h
      have htyped' : ∀ p ∈ rest, (w.lib.type? p.given.type).isSome :=
        fun p hp => htyped p (List.mem_cons_of_mem _ hp)
      obtain ⟨hnew, hnodup⟩ := List.nodup_cons.mp hindex
      obtain ⟨hown, hspares⟩ := readPlaced_spares hplain (htyped p List.mem_cons_self) hone
      have hbare := readPlaced_bare hone
      have hrefs := readAll_index hplain htyped' hrest
      have hlater := ih htyped' hnodup hrest
      intro x hx herased
      rcases List.mem_cons.mp hx with rfl | hx
      · obtain ⟨hgiven, hplace, -, hheld⟩ := ImportPlaced.bare_eq hbare
        have hp : p.erased = true := by
          rw [ImportPlaced.erased, ← hheld]
          exact herased
        obtain ⟨hvalues, hreferences⟩ := hspares hp
        rw [hgiven]
        refine ⟨hvalues, fun ref href hat => ?_⟩
        rcases hrefs ref href with href | href
        · exact hreferences ref href
        · rw [hat, hplace] at href
          exact absurd href hnew
      · obtain ⟨hvalues, hreferences⟩ := hlater x hx herased
        refine ⟨hvalues, fun ref href hat => ?_⟩
        rcases hreferences ref href hat with href | href
        · rcases hown ref href with href | href
          · exact .inl href
          · -- the rest are at other places of the batch
            have hxmem : x.index ∈ rest.map ImportPlaced.index := by
              have hmem : x.bare ∈ others.map ImportPlaced.bare := List.mem_map.mpr ⟨x, hx, rfl⟩
              rw [readAll_bare hrest] at hmem
              obtain ⟨y, hy, hyx⟩ := List.mem_map.mp hmem
              exact List.mem_map.mpr ⟨y, hy, (ImportPlaced.bare_eq hyx).2.1⟩
            rw [← hat, href] at hxmem
            exact absurd hxmem hnew
        · exact .inr href

end

/-- What an erased object of a batch was read without. -/
structure Port.Spares (w : World) (port : Port) : Prop where
  values : ∀ p ∈ port.placed, p.erased = true → ∀ a,
    w.lib.personalOf p.given.type a = true → Table.get? p.values a = none
  references : ∀ p ∈ port.placed, p.erased = true → ∀ ref ∈ port.references,
    ref.index = p.index → w.lib.personalOf p.given.type ref.name = false

theorem readBatch_spares {r : Readers} {w : World} {external : ExternalIds} {batch : ImportBatch}
    {alloc alloc' : Counters} {port : Port} (hplain : w.lib.PlainNames)
    (h : readBatch r w external batch alloc = .ok (port, alloc')) : port.Spares w := by
  unfold readBatch at h
  obtain ⟨placing, hplaced, h⟩ := ok_of_bind h
  obtain ⟨⟨placed, v⟩, hread, h⟩ := ok_of_bind h
  obtain ⟨_, -, h⟩ := ok_of_bind h
  cases h
  have hsound := placeAll_sound (Placing.sound_start w external alloc) hplaced
  rw [List.nil_append] at hsound
  have hindex : (placing.placed.map ImportPlaced.index).Nodup := by
    have hmap := congrArg (List.map Prod.snd) hsound.given
    rw [List.map_map, List.zipIdx_map_snd] at hmap
    rw [show placing.placed.map ImportPlaced.index = _ from hmap]
    exact List.nodup_range'
  have hall := readAll_spares hplain (fun p hp => (hsound.found p hp).typed) hindex hread
  refine ⟨fun p hp herased => (hall p hp herased).1, fun p hp herased ref href hat => ?_⟩
  exact ((hall p hp herased).2 ref href hat).resolve_left (by simp)

/-! ### The row built -/

/-- A row of an erased object built without what is personal, over the one
held. -/
structure Object.Spared (lib : Library) (h o : Object) : Prop where
  type : o.type = h.type
  spans : o.spans = h.spans
  attrs : ∀ a, lib.personalOf h.type a = true → (o.attr a).Blank ∨ o.attr a = h.attr a

theorem withEmptySets_attr (t : FlowType) (attrs : Table String Value) (a : String) :
    ((Table.get? (withEmptySets t attrs) a).getD .absent).Blank ∨
      Table.get? (withEmptySets t attrs) a = Table.get? attrs a := by
  have hfold : ∀ (specs : List (String × Attribute)) (out : Table String Value),
      ((Table.get? out a).getD .absent).Blank ∨ Table.get? out a = Table.get? attrs a →
      ((Table.get? (specs.foldl (fun attrs s =>
          if s.2.storedSet && (Table.get? attrs s.1).isNone then Table.set attrs s.1 (.set [])
          else attrs) out) a).getD .absent).Blank ∨
        Table.get? (specs.foldl (fun attrs s =>
          if s.2.storedSet && (Table.get? attrs s.1).isNone then Table.set attrs s.1 (.set [])
          else attrs) out) a = Table.get? attrs a := by
    intro specs
    induction specs with
    | nil => exact fun _ h => h
    | cons s rest ih =>
        intro out hout
        refine ih _ ?_
        dsimp only
        split
        · rw [Table.get?_set]
          split
          · exact .inl (.inr rfl)
          · exact hout
        · exact hout
  exact hfold t.attributes attrs (.inr rfl)

section

variable {r : Readers} {w : World} {external : ExternalIds} {file : List ViolationClass}
  {port : Port}

theorem placedObject_spared (hspares : port.Spares w) {p : ImportPlaced} (hp : p ∈ port.placed)
    {h : Object} (hheld : p.held = some h) (herased : h.erased = true)
    (htype : h.type = p.given.type) (dropped : List (Nat × String)) :
    h.Spared w.lib (placedObject w external port dropped p) := by
  have hper : p.erased = true := by
    rw [ImportPlaced.erased, hheld]
    exact herased
  unfold placedObject
  rw [hheld]
  split
  · exact ⟨rfl, rfl, fun _ _ => .inr rfl⟩
  case h_2 t ht =>
    refine ⟨rfl, rfl, fun a ha => ?_⟩
    rw [htype] at ha
    -- neither a value nor a reference of the batch sets it
    have hsame : Table.get? (placedAttrs external port t dropped p h.attrs) a =
        Table.get? (withEmptySets t h.attrs) a := by
      unfold placedAttrs
      refine (Table.get?_foldl_set_of_ne Reference.name (referenceValue external port t) ?_ _).trans
        (Table.get?_foldl_set_of_ne Prod.fst Prod.snd ?_ _)
      · intro ref href heq
        obtain ⟨hmem, hat⟩ := List.mem_filter.mp href
        have hindex : ref.index = p.index := by
          simp only [Bool.and_eq_true, decide_eq_true_eq] at hat
          exact hat.1
        have hplain := hspares.references p hp hper ref hmem hindex
        rw [heq, ha] at hplain
        cases hplain
      · intro entry hentry heq
        have hnone := hspares.values p hp hper a ha
        have hsome : (Table.get? p.values entry.1).isSome := Table.get?_isSome_of_mem hentry
        rw [heq, hnone] at hsome
        cases hsome
    show ((Table.get? (placedAttrs external port t dropped p h.attrs) a).getD .absent).Blank ∨
      (Table.get? (placedAttrs external port t dropped p h.attrs) a).getD .absent = h.attr a
    rw [hsame]
    exact (withEmptySets_attr t h.attrs a).imp_right fun heq => by rw [heq]; rfl

/-- An object of a batch that stands under a held object's id refreshes it. -/
theorem held_of_id {alloc alloc' : Counters} (hw : w.Opens alloc) {p : ImportPlaced}
    (hp : p.Found w external alloc alloc') {h : Object} {id : String} (hget : w.get id = some h)
    (hid : p.id = id) : p.held = some h := by
  cases hheld : p.held with
  | none =>
      obtain ⟨-, n, hlt, -, hpid⟩ := hp.drawn hheld
      have hnone := hw.fresh p.given.type n hlt
      rw [← hpid, hid, hget] at hnone
      cases hnone
  | some found =>
      obtain ⟨hbind, -, hpid⟩ := hp.held found hheld
      obtain ⟨id', -, hfound⟩ := Option.bind_eq_some_iff.mp hbind
      have hsame := hw.named id' found hfound
      rw [← hsame, ← hpid, hid, hget] at hfound
      exact hfound.symm

/-- **The rounds** build an erased object's row without what is personal. -/
theorem placeRounds_spared {alloc alloc' : Counters} {batch : ImportBatch} (hw : w.Opens alloc)
    (hport : port.Sound w external alloc alloc' batch) (hspares : port.Spares w) {h : Object}
    {id : String} (hget : w.get id = some h) (herased : h.erased = true) {fuel : Nat}
    {excluded excluded' : List Nat} {round : Round}
    (hrounds : placeRounds r w external file port fuel excluded = .ok (round, excluded')) :
    ∀ o, round.work.get id = some o → h.Spared w.lib o := by
  refine placeRounds_work (P := fun work => ∀ o, work.get id = some o → h.Spared w.lib o)
    ?_ ?_ ?_ hrounds
  · intro o ho
    rw [hget] at ho
    cases ho
    exact ⟨rfl, rfl, fun _ _ => .inr rfl⟩
  · intro work dropped p hp hwork o ho
    rw [World.get_insert] at ho
    split at ho
    case isTrue heq =>
      cases ho
      have hfound := hport.found p hp
      rw [placedObject_id hfound] at heq
      have hheld := held_of_id hw hfound hget heq
      exact placedObject_spared hspares hp hheld herased (hfound.held h hheld).2.1 dropped
    case isFalse => exact hwork o ho
  · intro work p a hp hwork o ho
    rw [World.get_change] at ho
    split at ho
    case isTrue =>
      obtain ⟨q, hq, rfl⟩ := Option.map_eq_some_iff.mp ho
      have hspared := hwork q hq
      refine ⟨hspared.type, hspared.spans, fun b hb => ?_⟩
      show ((Table.get? (Table.erase q.attrs a) b).getD .absent).Blank ∨
        (Table.get? (Table.erase q.attrs a) b).getD .absent = h.attr b
      rw [Table.get?_erase]
      split
      · exact .inl (.inl rfl)
      · exact hspared.attrs b hb
    case isFalse => exact hwork o ho

end

/-! ### The values between -/

/-- The keys of a batch read are resolved as the batch and the store give
them. -/
theorem resolves_port {w : World} {external : ExternalIds} {alloc alloc' : Counters}
    {batch : ImportBatch} {port : Port} (hw : w.Opens alloc)
    (hport : port.Sound w external alloc alloc' batch) :
    batch.Resolves w external (resolveKey port.ids external) where
  known := by
    intro key id hknown
    obtain ⟨hexternal, hheld⟩ := Option.filter_eq_some_iff.mp hknown
    obtain ⟨h, hget⟩ := Option.isSome_iff_exists.mp hheld
    unfold resolveKey
    cases hid : Table.get? port.ids key with
    | none => exact hexternal
    | some given =>
        obtain ⟨p, hp, rfl, rfl⟩ := hport.ids key given hid
        have hfound := hport.found p hp
        have hbind : (external.object (p.key w.lib)).bind w.get = some h := by
          rw [hexternal]
          exact hget
        cases hp : p.held with
        | none =>
            obtain ⟨hnone, -⟩ := hfound.drawn hp
            rw [hbind] at hnone
            cases hnone
        | some found =>
            obtain ⟨hsome, -, hpid⟩ := hfound.held found hp
            rw [hbind] at hsome
            cases hsome
            rw [hpid, hw.named id h hget]
            rfl
  unknown := by
    intro key hnone hkey
    unfold resolveKey
    cases hid : Table.get? port.ids key with
    | none => exact hnone
    | some given =>
        obtain ⟨p, hp, rfl, rfl⟩ := hport.ids key given hid
        have hmem : (p.given, p.index) ∈ batch.objects.zipIdx := by
          rw [← hport.given]
          exact List.mem_map.mpr ⟨p, hp, rfl⟩
        exact absurd (List.mem_map.mpr ⟨p.given, List.fst_mem_of_mem_zipIdx hmem, rfl⟩) hkey

section

variable {r : Readers} {lib : Library} {resolve : LegacyKey → Option String} {t : FlowType}

theorem earlierValues_mem {d what : String} {given : List LegacyInterval}
    {read : List (LegacyInterval × Value)}
    (h : earlierValues r lib resolve t d what given = .ok read) :
    ∀ l v, (l, v) ∈ read → l ∈ given ∧ earlierValue r lib resolve t d l.value what = .ok v := by
  induction given generalizing read with
  | nil =>
      cases h
      simp
  | cons first rest ih =>
      unfold earlierValues at h
      obtain ⟨v, hv, h⟩ := ok_of_bind h
      obtain ⟨others, hrest, h⟩ := ok_of_bind h
      cases h
      intro l u hmem
      rcases List.mem_cons.mp hmem with heq | hmem
      · cases heq
        exact ⟨List.mem_cons_self, hv⟩
      · obtain ⟨hl, hu⟩ := ih hrest l u hmem
        exact ⟨List.mem_cons_of_mem _ hl, hu⟩

theorem intermediateSpansOf_mem {d : String} {latest current : Int}
    {fresh : List (LegacyInterval × Value)} {made : List Span}
    (h : intermediateSpansOf lib d latest current fresh = .ok made) :
    ∀ sp ∈ made, ∃ l, (l, sp.value) ∈ fresh := by
  induction fresh generalizing made with
  | nil =>
      cases h
      simp
  | cons first rest ih =>
      obtain ⟨l, v⟩ := first
      unfold intermediateSpansOf at h
      dsimp only at h
      split at h
      · cases h
      · split at h
        · cases h
        · split at h
          · cases h
          · split at h
            · cases h
            · obtain ⟨others, hrest, h⟩ := ok_of_bind h
              cases h
              intro sp hsp
              rcases List.mem_cons.mp hsp with rfl | hsp
              · exact ⟨l, List.mem_cons_self⟩
              · obtain ⟨k, hk⟩ := ih hrest sp hsp
                exact ⟨k, List.mem_cons_of_mem _ hk⟩

/-- Each intermediate value opened is one the record gives of its dimension, read
as it declares it, that the store does not hold. -/
theorem intermediateEach_mem {spans : Spans} {o : ImportedObject} {port : Int} {ds : List String}
    {between : List (String × List Span)}
    (h : intermediateEach r lib resolve t spans o port ds = .ok between) :
    ∀ d made, (d, made) ∈ between → ∀ sp ∈ made, ∃ l ∈ o.legacyIntervals, l.dimension = d ∧
      earlierValue r lib resolve t d l.value "an intermediate value" = .ok sp.value ∧
      holdsValue (spans.of d) l sp.value = false := by
  induction ds generalizing between with
  | nil =>
      cases h
      simp
  | cons d rest ih =>
      unfold intermediateEach at h
      split at h
      · cases h
      · obtain ⟨given, hgiven, h⟩ := ok_of_bind h
        dsimp only at h
        split at h
        · cases h
        · obtain ⟨made, hmade, h⟩ := ok_of_bind h
          obtain ⟨others, hrest, h⟩ := ok_of_bind h
          cases h
          intro d' made' hmem sp hsp
          rcases List.mem_append.mp hmem with hmem | hmem
          · split at hmem
            · cases hmem
            · cases List.mem_singleton.mp hmem
              obtain ⟨l, hl⟩ := intermediateSpansOf_mem hmade sp hsp
              obtain ⟨hread, hfresh⟩ := List.mem_filter.mp hl
              obtain ⟨hinterval, hvalue⟩ := earlierValues_mem hgiven l sp.value hread
              have hown := List.mem_filter.mp ((List.mem_insertionSort _).mp hinterval)
              refine ⟨l, hown.1, of_decide_eq_true hown.2, hvalue, ?_⟩
              simpa using hfresh
          · exact ih hrest d' made' hmem sp hsp

theorem endCurrent_values (position now : Int) (spans : List Span) :
    ∀ sp ∈ endCurrent position now spans, ∃ old ∈ spans, sp.value = old.value := by
  intro sp hsp
  unfold endCurrent at hsp
  split at hsp
  case h_1 last hlast =>
    split at hsp
    · rcases List.mem_append.mp hsp with hsp | hsp
      · exact ⟨sp, List.mem_of_mem_dropLast hsp, rfl⟩
      · cases List.mem_singleton.mp hsp
        exact ⟨last, List.mem_of_mem_getLast? hlast, rfl⟩
    · exact ⟨sp, hsp, rfl⟩
  case h_2 => exact ⟨sp, hsp, rfl⟩

/-- A dimension's spans are of its table. -/
theorem mem_spansOf {spans : Spans} {d : String} {sp : Span} (h : sp ∈ spans.of d) :
    ∃ list, (d, list) ∈ spans ∧ sp ∈ list := by
  unfold Spans.of at h
  cases hget : Table.get? spans d with
  | none =>
      rw [hget] at h
      cases h
  | some list =>
      rw [hget] at h
      exact ⟨list, Table.mem_of_get? hget, h⟩

/-- The spans an import leaves of a dimension: those it had, the values between,
and the one it holds now. -/
theorem openSpans_values {o : ImportedObject} {held : Option Object}
    {between : Table String (List Span)} {position port : Int} {members : List String}
    {obj obj' : Object} (h : openSpans lib o held between position port obj members = .ok obj')
    (d : String) (list : List Span) (hlist : (d, list) ∈ obj'.spans) : ∀ sp ∈ list,
      (∃ list, (d, list) ∈ obj.spans ∧ ∃ old ∈ list, sp.value = old.value) ∨
      (∃ new ∈ (Table.get? between d).getD [], sp.value = new.value) ∨
      sp.value = obj.trackedValue d := by
  induction members generalizing obj with
  | nil =>
      cases h
      exact fun sp hsp => .inl ⟨list, hlist, sp, hsp, rfl⟩
  | cons m rest ih =>
      unfold openSpans at h
      dsimp only at h
      split at h
      · exact ih h
      · obtain ⟨spans, hspans, h⟩ := ok_of_bind h
        intro sp hsp
        rcases ih h sp hsp with ⟨held, hheld, old, hold, hvalue⟩ | hlater
        · rcases Table.mem_set hheld with hother | hsame
          · exact .inl ⟨held, hother, old, hold, hvalue⟩
          · obtain ⟨rfl, rfl⟩ := Prod.mk.inj hsame
            rw [hvalue]
            unfold importSpan at hspans
            dsimp only at hspans
            split at hspans
            · cases hspans
            · cases hspans
              rcases List.mem_append.mp hold with hold | hnow
              · rcases List.mem_append.mp hold with hended | hbetween
                · obtain ⟨was, hwas, hsame⟩ := endCurrent_values _ _ _ old hended
                  obtain ⟨list', hlist', hmem⟩ := mem_spansOf hwas
                  exact .inl ⟨list', hlist', was, hmem, hsame⟩
                · obtain ⟨new, hnew, rfl⟩ := List.mem_map.mp hbetween
                  exact .inr (.inl ⟨new, hnew, rfl⟩)
              · cases List.mem_singleton.mp hnow
                exact .inr (.inr rfl)
        · exact .inr hlater

end

/-! ### The writes of an erased object -/

/-- A row of an erased object, its event and the spans beside it, that hold
nothing personal it did not hold. -/
structure SparedWrite (lib : Library) (h o : Object) (e : Event) : Prop where
  attrs : ∀ a, lib.personalOf h.type a = true → (o.attr a).Blank ∨ o.attr a = h.attr a
  spans : ∀ a, lib.personalOf h.type a = true → ∀ list, (a, list) ∈ o.spans →
    ∀ sp ∈ list, h.Held a sp.value
  payload : e.payload.Plain lib h.type

section

variable {r : Readers} {d : DecidedImport} {alloc alloc' : Counters} {batch : ImportBatch}

/-- What an erased object's row changed of its personal attributes. -/
theorem wroteBetween_blank {was now : Table String Value} {a : String} {v : Value}
    (hspared : ((Table.get? now a).getD .absent).Blank ∨
      (Table.get? now a).getD .absent = (Table.get? was a).getD .absent)
    (h : Table.get? (wroteBetween was now) a = some v) : v.Blank := by
  rw [get?_wroteBetween] at h
  cases hnow : Table.get? now a with
  | none =>
      rw [hnow] at h
      cases hwas : Table.get? was a with
      | none =>
          rw [hwas] at h
          cases h
      | some u =>
          rw [hwas] at h
          cases h
          exact .inl rfl
  | some u =>
      rw [hnow] at h hspared
      dsimp only [Option.getD_some] at h hspared
      split at h
      · cases h
      case isFalse hchanged =>
        cases h
        rcases hspared with hblank | hsame
        · exact hblank
        · cases hwas : Table.get? was a with
          | none =>
              rw [hwas] at hsame
              exact .inl hsame
          | some x =>
              rw [hwas] at hsame hchanged
              rw [hsame, Option.getD_some, Option.any_some, Value.same_self] at hchanged
              exact absurd rfl hchanged

theorem wrote_spared (hw : d.world.Opens alloc) (hplain : d.world.lib.PlainNames)
    (hport : d.port.Sound d.world d.external alloc alloc' batch)
    (hclear : batch.Clear r d.world d.external) {h : Object} {id : String}
    (hget : d.world.get id = some h) (herased : h.erased = true)
    (hround : ∀ o, d.round.work.get id = some o → h.Spared d.world.lib o) {p : ImportPlaced}
    (hp : p ∈ d.port.placed) {so so' : Writing} {t : FlowType}
    {between : Table String (List Span)} {obj o : Object} {legacy : List (String × Span)}
    {names : List String} (hwrote : d.Wrote r p so so' t between obj o legacy names)
    (hid : p.id = id) (position : Int) (admissions : List String) :
    SparedWrite d.world.lib h { o with admissions, version := o.version + 1 }
      (d.event p position { o with admissions, version := o.version + 1 }) := by
  have hfound := hport.found p hp
  have hheld := held_of_id hw hfound hget hid
  obtain ⟨hexternal, htype, -⟩ := hfound.held h hheld
  have hspared := hround obj (by rw [← hid]; exact hwrote.placed)
  have hgives := hclear p.given ?_ h hexternal herased
  case refine_1 =>
    have hmem : (p.given, p.index) ∈ batch.objects.zipIdx := by
      rw [← hport.given]
      exact List.mem_map.mpr ⟨p, hp, rfl⟩
    exact List.fst_mem_of_mem_zipIdx hmem
  -- a refresh opens spans, and no legacy ones
  have hopened : openSpans d.world.lib p.given p.held between (so.alloc.position + 1) d.world.now
      obj (d.world.lib.tracked t) = .ok o := by
    obtain ⟨opened, hopened, hspanned⟩ := ok_of_bind hwrote.spanned
    rw [hheld] at hspanned
    cases hspanned
    exact hopened
  have hattrs : o.attrs = obj.attrs := (spanned_row hwrote.spanned).2.2.2.2.1
  have hbetween : ∀ a, d.world.lib.personalOf h.type a = true →
      ∀ sp ∈ (Table.get? between a).getD [], sp.value.Blank := by
    intro a ha sp hsp
    have hmade := hwrote.opened
    unfold DecidedImport.between at hmade
    rw [hheld] at hmade
    obtain ⟨_, -, hmade⟩ := ok_of_bind hmade
    cases hvalues : Table.get? between a with
    | none =>
        rw [hvalues] at hsp
        cases hsp
    | some made =>
        rw [hvalues] at hsp
        obtain ⟨l, hl, hdimension, hvalue, hfresh⟩ := intermediateEach_mem hmade a made
          (Table.mem_of_get? hvalues) sp hsp
        subst hdimension
        have ht : d.world.lib.type? h.type = some t := by
          rw [htype]
          exact hwrote.type
        rcases hgives.intervals t ht l hl ha d.resolve (resolves_port hw hport) sp.value hvalue
          with hblank | hholds
        · exact hblank
        · rw [hholds] at hfresh
          cases hfresh
  refine ⟨?_, ?_, ?_⟩
  · intro a ha
    show ((Table.get? o.attrs a).getD .absent).Blank ∨ (Table.get? o.attrs a).getD .absent = h.attr a
    rw [hattrs]
    exact hspared.attrs a ha
  · intro a ha list hlist sp hsp
    rcases openSpans_values hopened a list hlist sp hsp with
      ⟨was, hwas, old, hold, hvalue⟩ | ⟨new, hnew, hvalue⟩ | hvalue
    · rw [hspared.spans] at hwas
      exact .inr (.inr ⟨was, hwas, old, hold, hvalue⟩)
    · rw [hvalue]
      exact .inl (hbetween a ha new hnew)
    · have hnot : a ≠ "state" := by
        rintro rfl
        rw [hplain.state] at ha
        cases ha
      rw [Object.trackedValue, if_neg hnot] at hvalue
      rw [hvalue]
      rcases hspared.attrs a ha with hblank | hsame
      · exact .inl hblank
      · exact .inr (.inl hsame)
  · refine ⟨?_, ?_, rfl, rfl⟩
    · intro a v hmem ha
      obtain ⟨⟨b, raw⟩, hraw, heq⟩ := List.mem_map.mp hmem
      cases heq
      exact hgives.attributes a raw hraw ha
    · intro a v hv ha
      change Table.get? (wroteBetween ((p.held.map Object.attrs).getD []) o.attrs) a = some v at hv
      rw [hheld, hattrs] at hv
      exact wroteBetween_blank (hspared.attrs a ha) hv

/-- **The writes** of an import give an erased object nothing personal. -/
theorem writeAll_spared (hw : d.world.Opens alloc) (hplain : d.world.lib.PlainNames)
    (hport : d.port.Sound d.world d.external alloc alloc' batch) (hnamed : d.round.work.Named)
    (hclear : batch.Clear r d.world d.external) {h : Object} {id : String}
    (hget : d.world.get id = some h) (herased : h.erased = true)
    (hround : ∀ o, d.round.work.get id = some o → h.Spared d.world.lib o)
    {entries : List (String × LegacyEntry)} {so : Writing}
    (hwrites : d.writeAll r d.kept { alloc := alloc', change := { legacy := entries } } = .ok so) :
    (∀ o made e, (o, made, e) ∈ so.change.change.writes → o.id = id →
      SparedWrite d.world.lib h o e) ∧
      ∀ k m sp, (k, m, sp) ∈ so.change.spans → k ≠ id := by
  refine writeAll_induct (P := fun so =>
    (∀ o made e, (o, made, e) ∈ so.change.change.writes → o.id = id →
      SparedWrite d.world.lib h o e) ∧
      ∀ k m sp, (k, m, sp) ∈ so.change.spans → k ≠ id) hwrites ⟨by simp, by simp⟩ ?_
  rintro p hp so so' t between obj o legacy names ⟨hrows, hspans⟩ hwrote
  have hpm : p ∈ d.port.placed := (List.mem_filter.mp hp).1
  have hid : o.id = p.id := (spanned_row hwrote.spanned).1.trans (hnamed _ _ hwrote.placed)
  rw [hwrote.wrote]
  refine ⟨?_, ?_⟩
  · intro o' made e hmem hoid
    rcases List.mem_append.mp hmem with hmem | hmem
    · exact hrows o' made e hmem hoid
    · cases List.mem_singleton.mp hmem
      exact wrote_spared hw hplain hport hclear hget herased hround hpm hwrote
        (hid.symm.trans hoid) _ _
  · intro k m sp hmem
    rcases List.mem_append.mp hmem with hmem | hmem
    · exact hspans k m sp hmem
    · obtain ⟨⟨m', sp'⟩, hlegacy, heq⟩ := List.mem_map.mp hmem
      cases heq
      -- legacy spans are a new object's alone
      intro hsame
      have hheld := held_of_id hw (hport.found p hpm) hget (hid.symm.trans hsame)
      obtain ⟨opened, -, hspanned⟩ := ok_of_bind hwrote.spanned
      rw [hheld] at hspanned
      cases hspanned
      cases hlegacy

end

/-- Every event of an import is of the object of its row. -/
theorem writeAll_events {r : Readers} {d : DecidedImport} {placed : List ImportPlaced}
    {alloc : Counters} {entries : List (String × LegacyEntry)} {so : Writing}
    (h : d.writeAll r placed { alloc, change := { legacy := entries } } = .ok so) :
    ∀ o made e, (o, made, e) ∈ so.change.change.writes → e.objectId = o.id := by
  refine writeAll_induct (P := fun so =>
    ∀ o made e, (o, made, e) ∈ so.change.change.writes → e.objectId = o.id) h (by simp) ?_
  rintro p - so so' t between obj o legacy names hrows hwrote
  rw [hwrote.wrote]
  intro o' made e hmem
  rcases List.mem_append.mp hmem with hmem | hmem
  · exact hrows o' made e hmem
  · cases List.mem_singleton.mp hmem
    rfl

/-! ### The legacy entries -/

theorem LegacyEntry.redacted_redacted (e : LegacyEntry) :
    ({ e with payload := e.redacted } : LegacyEntry).redacted = e.redacted := by
  show (e.redacted.map fun f => (f.1, if e.kept.contains f.1 then f.2 else .null)) = e.redacted
  rw [LegacyEntry.redacted, List.map_map]
  refine List.map_congr_left fun f _ => ?_
  by_cases hkept : f.1 ∈ e.kept <;> simp [hkept]

/-- An entry attached to an erased object keeps the fields its kind keeps. -/
theorem attached_redacted {w : World} {held : Table String (List LegacyEntry)}
    {entries : List (String × LegacyEntry)} {h : Object} {id : String} (hget : w.get id = some h)
    (herased : h.erased = true) : ∀ n, (id, n) ∈ attached w held entries →
      n.payload = n.redacted := by
  intro n hn
  obtain ⟨k, -, hk⟩ := List.mem_flatMap.mp hn
  obtain ⟨m, hm, heq⟩ := List.mem_map.mp hk
  cases heq
  rw [hget, Option.any_some, herased] at hm
  obtain ⟨⟨given, i⟩, -, rfl⟩ := List.mem_map.mp hm
  exact (LegacyEntry.redacted_redacted given).symm

/-- The entries of an object after a change: those it held, those attached, or
either as an erasure leaves it. -/
theorem legacyWritten_mem {held : Table String (List LegacyEntry)}
    {given : List (String × LegacyEntry)} {c : Change} {id : String} :
    ∀ n ∈ (Table.get? (legacyWritten held given c) id).getD [],
      n ∈ (Table.get? held id).getD [] ∨ (id, n) ∈ given ∨ n.payload = n.redacted := by
  have hattached : ∀ (given : List (String × LegacyEntry)) (held : Table String (List LegacyEntry)),
      ∀ n ∈ (Table.get? (given.foldl (fun held (e : String × LegacyEntry) =>
        Table.set held e.1 ((Table.get? held e.1).getD [] ++ [e.2])) held) id).getD [],
        n ∈ (Table.get? held id).getD [] ∨ (id, n) ∈ given := by
    intro given
    induction given with
    | nil => exact fun _ _ hn => .inl hn
    | cons e rest ih =>
        intro held n hn
        rcases ih _ n hn with hn | hn
        · rw [Table.get?_set] at hn
          split at hn
          case isTrue heq =>
            rcases List.mem_append.mp hn with hn | hn
            · exact .inl (heq ▸ hn)
            · cases List.mem_singleton.mp hn
              exact .inr (List.mem_cons.mpr (.inl (Prod.ext heq.symm rfl)))
          case isFalse => exact .inl hn
        · exact .inr (List.mem_cons_of_mem _ hn)
  intro n hn
  unfold legacyWritten at hn
  rw [Table.get?_map_entries (fun id (entries : List LegacyEntry) =>
    if c.writes.any fun w => w.1.id = id && w.1.erased then
      entries.map fun e => ({ e with payload := e.redacted } : LegacyEntry)
    else entries)] at hn
  cases hentries : Table.get? (given.foldl (fun held (e : String × LegacyEntry) =>
    Table.set held e.1 ((Table.get? held e.1).getD [] ++ [e.2])) held) id with
  | none =>
      rw [show Table.get? (given.foldl _ held) id = none from hentries] at hn
      cases hn
  | some entries =>
      rw [show Table.get? (given.foldl _ held) id = some entries from hentries] at hn
      have hin := hattached given held
      rw [hentries] at hin
      change n ∈ if _ then _ else entries at hn
      split at hn
      · obtain ⟨e, he, rfl⟩ := List.mem_map.mp hn
        exact .inr (.inr (LegacyEntry.redacted_redacted e).symm)
      · exact (hin n hn).imp_right Or.inl

/-! ### The import -/

/-- An attribute of a row as it is read back: as it was written, or blank. -/
theorem rowAttrs_attr (t : FlowType) (attrs : Table String Value) (a : String) :
    ((Table.get? (t.rowAttrs attrs) a).getD .absent).Blank ∨
      (Table.get? (t.rowAttrs attrs) a).getD .absent = (Table.get? attrs a).getD .absent := by
  refine List.foldlRecOn (motive := fun out => ((Table.get? out a).getD .absent).Blank ∨
    (Table.get? out a).getD .absent = (Table.get? attrs a).getD .absent) _ _ ?_ ?_
  · exact .inl (.inl rfl)
  intro out hout s _
  obtain ⟨n, spec⟩ := s
  by_cases hname : n = a
  · subst hname
    dsimp only
    split
    · split
      · rw [Table.get?_set_self]
        split
        case h_1 items hitems => exact .inr (by rw [hitems])
        case h_2 => exact .inl (.inr rfl)
      · exact hout
    · split
      case h_1 v hv =>
        split
        · exact hout
        · rw [Table.get?_set_self, hv]
          exact .inr rfl
      case h_2 => exact hout
  · dsimp only
    split
    · split
      · rw [Table.get?_set_of_ne _ _ hname]
        exact hout
      · exact hout
    · split
      · split
        · exact hout
        · rw [Table.get?_set_of_ne _ _ hname]
          exact hout
      · exact hout

/-- The values of a dimension's spans with one written over its row. -/
theorem upsertSpan_values (held : List Span) (sp : Span) :
    ∀ x ∈ upsertSpan held sp, (∃ old ∈ held, x.value = old.value) ∨ x.value = sp.value := by
  intro x hx
  unfold upsertSpan at hx
  split at hx
  · obtain ⟨old, hold, rfl⟩ := List.mem_map.mp hx
    split
    · exact .inr rfl
    · exact .inl ⟨old, hold, rfl⟩
  · have hmem := (List.mem_insertionSort _).mp hx
    rcases List.mem_append.mp hmem with hmem | hmem
    · exact .inl ⟨x, hmem, rfl⟩
    · cases List.mem_singleton.mp hmem
      exact .inr rfl

/-- **One import** that gives nothing personal of the erased objects stores
nothing personal of them. -/
theorem import_keeps_erased {r : Readers} {s : PortStore} (hs : s.Whole)
    (hplain : s.world.lib.PlainNames) {id : String} (herased : s.Erased id) (now : Int)
    (attempts : Table String (List Value)) (actor : String) (batch : ImportBatch)
    (file : List ViolationClass) (dry : Bool)
    (hclear : batch.Clear r (s.opened now attempts) s.external) :
    s.KeepsErased (s.importBatch r now attempts actor batch file dry).2 id := by
  obtain ⟨h, hget, hflag⟩ := herased
  rcases s.importBatch_world (r := r) now attempts actor batch file dry with
    hsame | ⟨report, c, alloc, hdecided, hwrite, hexternal, hlegacy⟩
  · rw [hsame]
    refine ⟨?_, fun _ _ e he _ => .inl he, fun n hn => .inl hn⟩
    intro h' o hh' ho
    rw [hh'] at ho
    cases ho
    exact .refl _ h'
  · obtain ⟨-, who, port, read, round, excluded, so, hd⟩ := decideImport_applied hdecided
    have hopens : (s.opened now attempts).Opens s.drawing :=
      ⟨hs.sound.opens.named, hs.sound.opens.fresh, hs.sound.opens.unwritten⟩
    have hgetOpened : (s.opened now attempts).get id = some h := hget
    have hport := readBatch_sound hd.placed
    have hspares := readBatch_spares (w := s.opened now attempts) hplain hd.placed
    obtain ⟨⟨start, hrounds⟩, -⟩ := settleRounds_ok hd.rounds
    have hnamed : round.work.Named := placeRounds_named hopens.named hrounds
    have hround := placeRounds_spared hopens hport hspares hgetOpened hflag hrounds
    obtain ⟨hwrites, hspans⟩ := writeAll_spared (d := DecidedImport.of (s.opened now attempts)
      s.external s.legacy batch file port who round excluded) hopens hplain hport hnamed hclear
      hgetOpened hflag hround hd.writes
    obtain ⟨hadds, hentries⟩ := writeAll_adds hd.writes
    obtain ⟨mid, hmid, -, hworld⟩ := PortStore.writeImport_alike hwrite
    rw [hd.change] at hmid
    refine ⟨?_, ?_, ?_⟩
    · intro h' o hh' ho
      rw [hget] at hh'
      cases hh'
      rw [hworld] at ho
      -- the row is written of the batch's, its spans over those it had
      have hpresent : ((s.opened now attempts).get id).isSome := by
        rw [hgetOpened]
        rfl
      have hrow := World.write_adds_row (P := fun o => h.Keeps s.world.lib o) hadds hmid
        hpresent ?_ ?_ ?_ ?_
      case refine_1 =>
        intro o ho
        rw [hgetOpened] at ho
        cases ho
        exact .refl _ h
      case refine_2 =>
        intro o made e t held hmem hid hheld
        have hspared := hwrites o made e hmem hid
        refine ⟨fun a ha => ?_, hheld.spans⟩
        rcases rowAttrs_attr t o.attrs a with hblank | hsame
        · exact .inl hblank
        · rw [show ((held.updated o t).attr a) = o.attr a from hsame]
          exact hspared.attrs a ha
      case refine_3 =>
        intro o made e d sp held hmem htouched hheld
        obtain ⟨⟨d', list⟩, hlist, htouched⟩ := List.mem_flatMap.mp htouched
        obtain ⟨sp', hsp, heq⟩ := List.mem_map.mp htouched
        obtain ⟨hid, hd', rfl⟩ : o.id = id ∧ d' = d ∧ sp' = sp := by simpa using heq
        subst hd'
        have hspared := hwrites o made e hmem hid
        refine ⟨hheld.attrs, fun a ha list' hlist' x hx => ?_⟩
        rcases Table.mem_set hlist' with hother | hsame
        · exact hheld.spans a ha list' hother x hx
        · obtain ⟨rfl, rfl⟩ := Prod.mk.inj hsame
          rcases upsertSpan_values _ _ x hx with ⟨old, hold, hvalue⟩ | hvalue
          · obtain ⟨was, hwas, hmem⟩ := mem_spansOf hold
            rw [hvalue]
            exact hheld.spans a ha was hwas old hmem
          · rw [hvalue]
            exact hspared.spans a ha list hlist sp' (List.mem_filter.mp hsp).1
      case refine_4 => exact fun o _ _ _ ho => ⟨ho.attrs, ho.spans⟩
      refine World.upsertSpans_induct hrow ?_ o ho
      intro o d sp hmem ho
      rw [hd.change] at hmem
      exact absurd rfl (hspans id d sp hmem)
    · intro h' hh' e he hid
      rw [hget] at hh'
      cases hh'
      rw [hworld] at he
      change e ∈ (mid.upsertSpans c.spans).stored at he
      rw [World.upsertSpans_stored] at he
      rcases World.write_adds_stored hadds hmid e he with he | ⟨o, made, hmem⟩
      · exact .inl he
      · exact .inr (hwrites o made e hmem ((writeAll_events hd.writes o made e hmem).symm.trans
          hid)).payload
    · intro n hn
      rw [hlegacy] at hn
      rcases legacyWritten_mem n hn with hn | hn | hn
      · exact .inl hn
      · rw [hd.change] at hn
        change (id, n) ∈ so.change.legacy at hn
        rw [hentries] at hn
        exact .inr (attached_redacted hgetOpened hflag n hn)
      · exact .inr hn

/-- **Erased for good**: in every run of requests and imports in which an object
was erased, a later import that gives nothing personal of the erased objects
stores nothing personal of it: not in its row, in its event's payload, in a span
or in a legacy entry. -/
theorem imports_keep_erased {r : Readers} {hex : Json → String} {s : PortStore} (hs : s.Whole)
    (hplain : s.world.lib.PlainNames) (before later : List PortStep) {id : String}
    (herased : (s.run r hex before).Erased id) (now : Int) (attempts : Table String (List Value))
    (actor : String) (batch : ImportBatch) (file : List ViolationClass) (dry : Bool)
    (hclear : batch.Clear r (((s.run r hex before).run r hex later).opened now attempts)
      ((s.run r hex before).run r hex later).external) :
    ((s.run r hex before).run r hex later).KeepsErased
      (((s.run r hex before).run r hex later).importBatch r now attempts actor batch file dry).2
      id := by
  obtain ⟨hbefore, -⟩ := hs.run r hex before
  obtain ⟨hlater, hkept⟩ := hbefore.run r hex later
  refine import_keeps_erased hlater ?_ (hkept id herased) now attempts actor batch file dry hclear
  rw [PortStore.run_lib, PortStore.run_lib]
  exact hplain

namespace Forgetting

/-- A mirror of another system's employees, whose name a person may have
erased. -/
def employee : FlowType where
  name := "Employee"
  mirror := true
  attributes := [("department", { declared := .scalar (.named "string"), optional := true }),
    ("name", { declared := .scalar (.named "string"), optional := true, personal := true })]
  states := [("EMPLOYED", {})]
  transitions := [("forget", { kind := .erasure, requiredInputs := ["reason"]
                               inputs := [("reason", { declared := .scalar (.named "string") })] })]

def readers : Readers :=
  { CallingBack.readers with
    decode := fun _ _ _ raw => (raw.string?.map Value.text).elim (.error .wrongType) .ok }

/-- A store of the one person who imports. -/
def store : PortStore where
  world :=
    { lib := { types := [("Employee", employee), ("Person", CallingBack.person)] }
      objects := [(numberedId "person" 1, { id := numberedId "person" 1, type := "Person"
                                            state := "ACTIVE"
                                            attrs := [("identity", .text "ann")] })] }
  counters := { CallingBack.counters with position := 0, object := 1 }

/-- An employee as the other system gives it. -/
def refresh (attributes : Table String Json) : ImportBatch where
  objects := [{ type := "Employee", legacyKey := "E-1", state := "EMPLOYED", attributes }]

/-- An employee imported, and then erased. -/
def steps : List PortStep :=
  [.imported 100 [] "ann" (refresh [("name", .string "Dana")]) [] false,
    .request 200 [] { transition := "forget", actor := "ann"
                      objectId := some (numberedId "employee" 2)
                      inputs := [("reason", .string "asked")] } []]

/-- The store with the employee erased. -/
def erased : PortStore := store.run readers (fun _ => "") steps

/-- The store an import of the employee leaves after it. -/
def after (attributes : Table String Json) : PortStore :=
  (erased.importBatch readers 300 [] "ann" (refresh attributes) [] false).2

theorem whole : store.Whole where
  sound :=
    { opens := by
        refine ⟨?_, ?_, rfl⟩
        · intro id o h
          simp only [World.get, store, Table.get?] at h
          split at h
          case isTrue hid =>
            cases h
            exact hid
          case isFalse => cases h
        · intro type n hn
          have hpast : 1 < n := hn
          have hnew : numberedId "person" 1 ≠ numberedId type n := by
            intro heq
            have := numberedId_distinct "person" type 1 n heq
            omega
          show (if numberedId "person" 1 = numberedId type n then _ else none) = none
          rw [if_neg hnew]
      appended := rfl
      ordered := by decide +kernel
      positive := by decide +kernel
      bounded := by decide +kernel
      started := by decide
      held := by decide +kernel
      restored := by simp [store]
      acknowledged := by simp [store] }
  flagged := by
    intro id o h
    simp only [World.get, store, Table.get?] at h
    split at h
    · cases h
      rfl
    · cases h

/-- A name alone is personal. -/
theorem personal_name (type : String) {a : String} (ha : a ≠ "name") :
    store.world.lib.personalOf type a = false := by
  simp only [Library.personalOf, Library.type?, store, Table.get?]
  split
  · simp only [Option.bind_some, FlowType.attribute?, named?, employee, Table.get?]
    split
    · rfl
    · rw [if_neg (Ne.symm ha)]
      rfl
  · split
    · simp only [Option.bind_some, FlowType.attribute?, named?, CallingBack.person, Table.get?]
      split <;> rfl
    · rfl

theorem plain : store.world.lib.PlainNames where
  state type := personal_name type (by decide)
  recordedAt type := personal_name type (by decide)
  occurredAt type := personal_name type (by decide)

theorem gone : erased.Erased (numberedId "employee" 2) := by
  have hrun : (erased.world.get (numberedId "employee" 2)).any (·.erased) = true := by
    decide +kernel
  exact (Option.any_eq_true _ _).mp hrun

end Forgetting

/-- An import that brings an erased employee a department, and no name. -/
theorem imports_keep_erased_refreshed :
    Forgetting.erased.KeepsErased (Forgetting.after [("department", .string "Ops")])
      (numberedId "employee" 2) := by
  refine @imports_keep_erased _ (fun _ => "") _ Forgetting.whole Forgetting.plain
    Forgetting.steps [] _ Forgetting.gone 300 [] "ann" (Forgetting.refresh [("department", .string "Ops")]) [] false ?_
  intro o ho h hget _
  cases List.mem_singleton.mp ho
  refine ⟨?_, fun _ _ l hl => by cases hl⟩
  intro a raw hraw hpersonal
  cases List.mem_singleton.mp hraw
  have hlib : Forgetting.erased.world.lib = Forgetting.store.world.lib :=
    Forgetting.store.run_lib Forgetting.readers _ _
  change Forgetting.erased.world.lib.personalOf h.type "department" = true at hpersonal
  rw [hlib, Forgetting.personal_name h.type (by decide)] at hpersonal
  cases hpersonal

/-- An erased employee whose department and name an import brings: its event
holds the name it was given. -/
theorem import_brings_back_a_name :
    Forgetting.erased.Erased (numberedId "employee" 2) ∧
      ¬ Forgetting.erased.KeepsErased
        (Forgetting.after [("department", .string "Ops"), ("name", .string "Dana")])
        (numberedId "employee" 2) := by
  refine ⟨Forgetting.gone, fun hkeeps => ?_⟩
  have hrun : (Forgetting.erased.world.get (numberedId "employee" 2)).any (fun h =>
        Forgetting.erased.world.lib.personalOf h.type "name") &&
      (Forgetting.erased.world.stored.all fun e => e.position ≤ 2) &&
      ((Forgetting.after [("department", .string "Ops"), ("name", .string "Dana")]).world.stored.any
        fun e => e.position = 3 && e.objectId = numberedId "employee" 2 &&
          e.payload.inputs.any fun i => i.1 = "name" && i.2.same (.text "Dana")) = true := by
    decide +kernel
  simp only [Bool.and_eq_true, List.all_eq_true, List.any_eq_true, decide_eq_true_eq] at hrun
  obtain ⟨⟨hheld, hbefore⟩, e, he, ⟨hposition, hid⟩, ⟨a, v⟩, hinput, ha, hv⟩ := hrun
  obtain ⟨h, hget, hpersonal⟩ := (Option.any_eq_true _ _).mp hheld
  rcases hkeeps.events h hget e he hid with hstored | hplain
  · have := hbefore e hstored
    omega
  · subst ha
    rcases hplain.inputs _ v hinput hpersonal with rfl | rfl <;> cases hv

end ObjectFlow
