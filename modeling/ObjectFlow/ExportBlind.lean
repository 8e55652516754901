import ObjectFlow.Carried
import ObjectFlow.Base.TwoRuns

/-!
# An export holds no personal value

Two stores alike but for personal values export the same pages, whatever the
source, the cursor and the limit.
-/

namespace ObjectFlow

open Base List

/-! ### Stores alike but for personal values -/

/-- An event without the values it holds. -/
def Event.bare (e : Event) : Event :=
  { e with payload := { e.payload with inputs := [], corrected := [], wrote := [] } }

/-- A span without its value. -/
def Span.bare (s : Span) : Span := { s with value := .absent }

/-- An object without what its attributes hold, its spans read from the interval
table. -/
def Object.bare (o : Object) : Object := { o with attrs := [], spans := [] }

/-- The inputs two proposals wrote as text are alike but for personal ones. -/
def ProposedAlike (r : Readers) (w : World) (e : Event) (v v' : Value) : Prop :=
  ∃ t t' held held', v = .text t ∧ v' = .text t' ∧ r.inputsOf t = some held ∧
    r.inputsOf t' = some held' ∧ AlikeBut (w.PersonalValue e true) held held'

/-- An event's writes alike but for personal ones. -/
def WroteAlike (r : Readers) (w : World) (e : Event) : Table String Value → Table String Value → Prop :=
  Forall₂ fun a b => a.1 = b.1 ∧ (a.2 = b.2 ∨ w.PersonalValue e false a.1 ∨
    (w.judged e).proposal = true ∧ a.1 = "inputs" ∧ ProposedAlike r w e a.2 b.2)

/-- Two events alike but for personal values. -/
structure EventAlike (r : Readers) (w : World) (e e' : Event) : Prop where
  bare : e'.bare = e.bare
  inputs : AlikeBut (w.PersonalValue e true) e.payload.inputs e'.payload.inputs
  corrected : AlikeBut (w.PersonalValue e false) e.payload.corrected e'.payload.corrected
  wrote : WroteAlike r w e e.payload.wrote e'.payload.wrote

/-- Two interval rows alike but for a personal value of the object's. -/
structure IntervalAlike (w : World) (row row' : IntervalRow) : Prop where
  objectId : row'.objectId = row.objectId
  dimension : row'.dimension = row.dimension
  movedAt : row'.movedAt = row.movedAt
  bare : row'.span.bare = row.span.bare
  value : row.span.value = row'.span.value ∨ ∀ o, w.get row.objectId = some o →
    w.PersonalSpan row.objectId o.type row.dimension row.span

/-- An attribute whose value is personal.  Of a proposal that is the text of its
inputs, and the subject of a label never is. -/
def World.Private (w : World) (o : Object) (attr : String) : Prop :=
  if o.type = PROPOSAL then attr = "inputs"
  else ¬ (o.type = LABEL ∧ attr = "subject") ∧ w.PersonalAttr o attr

/-- Two objects alike but for personal values. -/
structure ObjectAlike (w : World) (o o' : Object) : Prop where
  bare : o'.bare = o.bare
  attrs : AlikeBut (w.Private o) o.attrs o'.attrs

/-- Two stores alike but for personal values: the same version declared what each
object holds of each attribute. -/
structure Exporting.Alike (r : Readers) (x x' : Exporting) : Prop where
  lib : x'.world.lib = x.world.lib
  earlier : x'.world.earlier = x.world.earlier
  now : x'.world.now = x.world.now
  objects : Forall₂ (fun a b => a.1 = b.1 ∧ ObjectAlike x.world a.2 b.2)
    x.world.objects x'.world.objects
  log : Forall₂ (EventAlike r x.world) x.world.log x'.world.log
  committed : x.world.appended = [] ∧ x'.world.appended = []
  declared : ∀ o ∈ x.world.inOrder, ∀ attr,
    declaredUnder x'.world (x'.world.eventsOf o.id) (Table.get? o.writes attr) o.type attr =
      declaredUnder x.world (x.world.eventsOf o.id) (Table.get? o.writes attr) o.type attr
  moves : x'.moves = x.moves
  intervals : Forall₂ (IntervalAlike x.world) x.intervals x'.intervals
  retractions : x'.retractions = x.retractions
  attempts : x'.attempts = x.attempts
  rollup : x'.rollup = x.rollup
  lastTxn : x'.lastTxn = x.lastTxn
  restores : x'.restores = x.restores

/-! ### What two stores alike share -/

section Shared

variable {r : Readers} {x x' : Exporting}

theorem EventAlike.objectId {w : World} {e e' : Event} (h : EventAlike r w e e') :
    e'.objectId = e.objectId := congrArg (·.objectId) h.bare

theorem EventAlike.position {w : World} {e e' : Event} (h : EventAlike r w e e') :
    e'.position = e.position := congrArg (·.position) h.bare

theorem EventAlike.declarationVersion {w : World} {e e' : Event} (h : EventAlike r w e e') :
    e'.declarationVersion = e.declarationVersion := congrArg (·.declarationVersion) h.bare

theorem EventAlike.source {w : World} {e e' : Event} (h : EventAlike r w e e') :
    e'.source = e.source := congrArg (·.source) h.bare

theorem EventAlike.transition {w : World} {e e' : Event} (h : EventAlike r w e e') :
    e'.transition = e.transition := congrArg (·.transition) h.bare

theorem EventAlike.imported {w : World} {e e' : Event} (h : EventAlike r w e e') :
    e'.imported = e.imported := congrArg (·.imported) h.bare

theorem EventAlike.movedFrom {w : World} {e e' : Event} (h : EventAlike r w e e') :
    e'.payload.movedFrom = e.payload.movedFrom := congrArg (·.payload.movedFrom) h.bare

theorem EventAlike.writtenUnder {w : World} {e e' : Event} (h : EventAlike r w e e') :
    writtenUnder e' = writtenUnder e := by
  rw [ObjectFlow.writtenUnder, h.source, h.declarationVersion, ObjectFlow.writtenUnder]

theorem ObjectAlike.id {w : World} {o o' : Object} (h : ObjectAlike w o o') : o'.id = o.id :=
  congrArg (·.id) h.bare

theorem ObjectAlike.type {w : World} {o o' : Object} (h : ObjectAlike w o o') : o'.type = o.type :=
  congrArg (·.type) h.bare

theorem ObjectAlike.writes {w : World} {o o' : Object} (h : ObjectAlike w o o') :
    o'.writes = o.writes := congrArg (·.writes) h.bare

/-- An attribute that is not private is the same. -/
theorem ObjectAlike.attr {w : World} {o o' : Object} (h : ObjectAlike w o o') {a : String}
    (ha : ¬ w.Private o a) : o'.attr a = o.attr a := by
  have hrel := get?_alike (R := fun k v v' => v = v' ∨ w.Private o k) h.attrs a
  rw [Object.attr, Object.attr]
  generalize Table.get? o.attrs a = v, Table.get? o'.attrs a = v' at hrel
  cases hrel with
  | none => rfl
  | some hv =>
      rcases hv with rfl | hp
      · rfl
      · exact absurd hp ha

theorem Alike.get (h : x.Alike r x') (id : String) :
    Option.Rel (ObjectAlike x.world) (x.world.get id) (x'.world.get id) :=
  get?_alike (R := fun _ => ObjectAlike x.world) h.objects id

theorem Alike.inOrder (h : x.Alike r x') :
    Forall₂ (ObjectAlike x.world) x.world.inOrder x'.world.inOrder := by
  rw [World.inOrder, World.inOrder, forall₂_map_left_iff, forall₂_map_right_iff]
  exact h.objects.imp fun _ _ hab => hab.2

theorem Alike.eventsOf (h : x.Alike r x') (id : String) :
    Forall₂ (EventAlike r x.world) (x.world.eventsOf id) (x'.world.eventsOf id) :=
  filter_alike h.log fun _ _ hab => by rw [hab.objectId]

theorem Alike.typeAt (h : x.Alike r x') (version : Int) (type : String) :
    x'.world.typeAt version type = x.world.typeAt version type := by
  simp only [World.typeAt, World.libraryAt, h.lib, h.earlier]

theorem Alike.libraryAt (h : x.Alike r x') (version : Int) :
    x'.world.libraryAt version = x.world.libraryAt version := by
  simp only [World.libraryAt, h.lib, h.earlier]

theorem Alike.nameBack (h : x.Alike r x') (type : String) (versions : List Int) (name : String) :
    x'.world.nameBack type versions name = x.world.nameBack type versions name := by
  induction versions generalizing name with
  | nil => rfl
  | cons k versions ih => simp only [World.nameBack, h.lib, h.earlier, ih]

theorem Alike.namedUnder (h : x.Alike r x') (version : Int) (type name : String) :
    x'.world.namedUnder version type name = x.world.namedUnder version type name := by
  rw [World.namedUnder, World.namedUnder, nameBack h, h.lib]

theorem Alike.personalUnder (h : x.Alike r x') (version : Int) (type name : String) :
    x'.world.personalUnder version type name = x.world.personalUnder version type name := by
  rw [World.personalUnder, World.personalUnder, typeAt h, namedUnder h]

theorem Alike.movedInto (h : x.Alike r x') (type : String) :
    x'.world.movedInto type = x.world.movedInto type := by
  rw [World.movedInto, World.movedInto, h.lib, h.earlier]

theorem Alike.family (h : x.Alike r x') (type : String) :
    x'.world.family type = x.world.family type := by
  rw [World.family, World.family, h.lib]

theorem typeThen_alike {w : World} {own own' : List Event} (h : Forall₂ (EventAlike r w) own own')
    (current : String) (version : Int) :
    typeThen own' current version = typeThen own current version := by
  have hrev := forall₂_reverse_iff.mpr h
  rw [typeThen, typeThen]
  generalize own.reverse = later, own'.reverse = later' at hrev
  induction hrev generalizing current with
  | nil => rfl
  | cons hab _ ih => rw [foldl_cons, foldl_cons, hab.movedFrom, hab.declarationVersion, ih]

theorem Alike.typesThen (h : x.Alike r x') (id : String) (version : Int) :
    x'.world.typesThen id version = x.world.typesThen id version := by
  rw [World.typesThen, World.typesThen]
  congr 1
  refine (optionMap_alike (get h id) fun o o' ho => ?_).symm
  have hmoves : Forall₂ (EventAlike r x.world) (x.world.movesOf o.id) (x'.world.movesOf o.id) :=
    filter_alike (eventsOf h o.id) fun _ _ hab => by rw [hab.source, hab.movedFrom]
  rw [World.objectTypeThen, World.objectTypeThen, ho.id, ho.type, movedInto h,
    typeThen_alike hmoves]

/-! ### Rows alike -/

theorem not_private {w : World} {o : Object} (htype : o.type = PROPOSAL) {a : String}
    (ha : a ≠ "inputs") : ¬ w.Private o a := by
  rw [World.Private, if_pos htype]
  exact ha

theorem Alike.judged (h : x.Alike r x') {e e' : Event} (he : EventAlike r x.world e e') :
    x'.world.judged e' = x.world.judged e := by
  have hwas : ∀ now transition type type', WrittenUnder.of x'.world now transition e' type type' =
      WrittenUnder.of x.world now transition e type type' := by
    intro now transition type type'
    simp only [WrittenUnder.of, h.lib, typeAt h, namedUnder h, he.declarationVersion,
      he.writtenUnder]
  have hget := get h e.objectId
  rw [World.judged, World.judged]
  simp only [hwas, he.objectId, he.transition, typesThen h, he.writtenUnder, he.declarationVersion]
  generalize x.world.get e.objectId = o, x'.world.get e.objectId = o' at hget
  cases hget with
  | none => rfl
  | @some o o' ho =>
      dsimp only
      rw [ho.type]
      by_cases hp : o.type = PROPOSAL
      · rw [if_pos hp, if_pos hp, ho.attr (not_private hp (by decide)),
          ho.attr (not_private hp (by decide))]
      · rw [if_neg hp, if_neg hp]

/-- Without what an export withholds, what two events alike wrote is the same,
and so is a proposal's text of its inputs. -/
theorem heldInputs_alike {w : World} {e : Event} {wrote wrote' : Table String Value}
    (h : WroteAlike r w e wrote wrote') :
    (w.judged e).heldInputs r w.lib
        (wrote.filter fun v => !(w.judged e).withholds w.lib false v.1) =
      (w.judged e).heldInputs r w.lib
        (wrote'.filter fun v => !(w.judged e).withholds w.lib false v.1) := by
  set j := w.judged e with hj
  have hkeep : ∀ a b : String × Value, a.1 = b.1 →
      (!j.withholds w.lib false a.1) = !j.withholds w.lib false b.1 := fun a b hab => by rw [hab]
  by_cases hp : j.proposal = true
  · rw [JudgedBy.heldInputs, JudgedBy.heldInputs, if_pos hp, if_pos hp]
    refine filter_map_alike h (fun a b hab => hkeep a b hab.1) fun a b hab hkept => ?_
    obtain ⟨k, v⟩ := a
    obtain ⟨k', v'⟩ := b
    obtain ⟨hk, hv⟩ := hab
    obtain rfl : k = k' := hk
    rcases hv with hv | hpersonal | ⟨-, hinputs, t, t', held, held', hvt, hvt', ht, ht', hheld⟩
    · obtain rfl : v = v' := hv
      rfl
    · simp [hj, withholds_of_personal hpersonal] at hkept
    · obtain rfl : k = "inputs" := hinputs
      obtain rfl : v = .text t := hvt
      obtain rfl : v' = .text t' := hvt'
      have hsame := hheld.filter_eq (q := fun k => !j.withholds w.lib true k) fun k hk => by
        rw [hj, withholds_of_personal hk]
        rfl
      simp only [if_pos, ht, ht', hsame]
  · rw [JudgedBy.heldInputs, JudgedBy.heldInputs, if_neg hp, if_neg hp]
    have hsame := filter_map_alike (f := fun v => v) (g := fun v => v) h
      (fun a b hab => hkeep a b hab.1) fun a b hab hkept => ?_
    · simpa using hsame
    · obtain ⟨k, v⟩ := a
      obtain ⟨k', v'⟩ := b
      obtain ⟨hk, hv⟩ := hab
      obtain rfl : k = k' := hk
      rcases hv with hv | hpersonal | ⟨hproposal, -⟩
      · obtain rfl : v = v' := hv
        rfl
      · simp [hj, withholds_of_personal hpersonal] at hkept
      · exact absurd hproposal hp

/-- An event with a payload in place of its own reads no value of its own. -/
theorem bare_payload {e e' : Event} (h : e'.bare = e.bare)
    (inputs wrote : Table String Value) (corrected : Table String (Value × Value × Option Int)) :
    { e' with payload := { e'.payload with inputs, wrote, corrected } } =
      { e with payload := { e.payload with inputs, wrote, corrected } } := by
  have hset := congrArg (fun e : Event =>
    { e with payload := { e.payload with inputs, wrote, corrected } }) h
  exact hset

theorem Alike.nameNow (h : x.Alike r x') (id : String) (versions : List Int) (name : String) :
    x'.world.nameNow id versions name = x.world.nameNow id versions name := by
  induction versions generalizing name with
  | nil => rfl
  | cons k versions ih => simp only [World.nameNow, typesThen h, libraryAt h, ih]

theorem Alike.renamed (h : x.Alike r x') (id : String) (version : Int) (p : Payload) :
    x'.world.renamed id version p = x.world.renamed id version p := by
  have hname : x'.world.nameNow id = x.world.nameNow id := by
    funext versions name
    exact nameNow h id versions name
  have hlater : x'.world.versionsAfter version = x.world.versionsAfter version := by
    rw [World.versionsAfter, World.versionsAfter, h.lib]
  unfold World.renamed
  rw [hname, hlater]
  simp only [libraryAt h]

/-- An event as its row shows it. -/
def World.shown (w : World) (r : Readers) (e : Event) : Event :=
  (w.eventRow r e).event

theorem eventRow_eq (w : World) (r : Readers) (e : Event) :
    w.eventRow r e =
      { event := w.shown r e
        declarationType := w.typesThen e.objectId e.declarationVersion
        renamed := w.renamed e.objectId e.declarationVersion (w.shown r e).payload } :=
  rfl

/-- **Events.**  Two events alike are shown as one. -/
theorem Alike.shown (h : x.Alike r x') {e e' : Event} (he : EventAlike r x.world e e') :
    x'.world.shown r e' = x.world.shown r e := by
  have hinputs := he.inputs.filter_eq (q := fun k =>
    !(x.world.judged e).withholds x.world.lib true k) fun k hk => by
      rw [withholds_of_personal hk]
      rfl
  have hcorrected := he.corrected.filter_eq (q := fun k =>
    !(x.world.judged e).withholds x.world.lib false k) fun k hk => by
      rw [withholds_of_personal hk]
      rfl
  rw [World.shown, World.shown, World.eventRow, World.eventRow, judged h he, h.lib]
  dsimp only
  rw [← hinputs, ← hcorrected, ← heldInputs_alike he.wrote]
  exact bare_payload he.bare _ _ _

theorem Alike.eventRow (h : x.Alike r x') {e e' : Event} (he : EventAlike r x.world e e') :
    x'.world.eventRow r e' = x.world.eventRow r e := by
  rw [eventRow_eq, eventRow_eq, shown h he, typesThen h, renamed h, he.objectId,
    he.declarationVersion]

/-- **Objects.**  Two objects alike, no proposals, are exported as one row. -/
theorem Alike.objectRow {y : VersionedStore} (h : y.toExporting.Alike r x') {o o' : Object} (hin : o ∈ y.world.inOrder)
    (htype : o.type ≠ PROPOSAL) (ho : ObjectAlike y.world o o') :
    x'.world.objectRow x'.moves o' = y.world.objectRow y.moves o := by
  have hversion : x'.world.versionOf o.id = y.world.versionOf o.id := by
    have hlast := getLast?_alike (eventsOf h o.id)
    rw [World.versionOf, World.versionOf]
    generalize (y.world.eventsOf o.id).getLast? = e, (x'.world.eventsOf o.id).getLast? = e' at hlast
    cases hlast with
    | none => rw [h.lib]
    | some he => exact he.declarationVersion
  have hwithholds : ∀ a, x'.world.withholdsAttr x'.moves o' a = y.world.withholdsAttr y.moves o a := by
    intro a
    have honce : x'.world.oncePersonal y.moves o.type a = y.world.oncePersonal y.moves o.type a := by
      simp only [World.oncePersonal, h.earlier, h.lib, personalUnder h]
    rw [World.withholdsAttr, World.withholdsAttr, h.moves, ho.id, ho.type, ho.writes]
    simp only [h.declared o hin a, honce, h.lib, typeThen_alike (eventsOf h o.id), personalUnder h]
  have hattrs := ho.attrs.filter_eq (q := fun a => !y.world.withholdsAttr y.moves o a)
    fun a ha => by
      rw [World.Private, if_neg htype] at ha
      rw [withholdsAttr_of hin ha.2]
      rfl
  have hbare := ho.bare
  simp only [Object.bare, Object.mk.injEq] at hbare
  simp only [World.objectRow, hwithholds, ho.id, ho.type, hversion, typesThen h, hbare, hattrs]

theorem Alike.eventAt (h : x.Alike r x') (position : Int) :
    Option.Rel (EventAlike r x.world) (x.world.eventAt position) (x'.world.eventAt position) :=
  find?_alike h.log fun _ _ hab => by rw [hab.position]

theorem Alike.rank (h : x.Alike r x') (id : String) : x'.world.rank id = x.world.rank id := by
  rw [World.rank, World.rank, Table.keys, Table.keys, map_alike h.objects fun _ _ hab => hab.1]

theorem Alike.cursorOf (h : x.Alike r x') {row row' : IntervalRow}
    (hrow : IntervalAlike x.world row row') : x'.world.cursorOf row' = x.world.cursorOf row := by
  have himported : x'.world.firstImported row.objectId = x.world.firstImported row.objectId :=
    (optionMap_alike (find?_alike h.log fun _ _ hab => by rw [hab.objectId, hab.imported])
      fun _ _ hab => hab.position.symm).symm
  have hbare := hrow.bare
  simp only [Span.bare, Span.mk.injEq] at hbare
  simp only [World.cursorOf, hrow.objectId, himported, hrow.movedAt, hbare]

/-- A span's place and its row. -/
def World.placed (w : World) (s : CursoredSpan) : Placed × ExportRow :=
  ((s.cursor, s.order, s.key), .span (w.spanRow s))

/-- **Spans.**  Two spans alike are placed alike and exported as one row. -/
theorem Alike.placed (h : x.Alike r x') {row row' : IntervalRow} {o : Object}
    (hrow : IntervalAlike x.world row row') (hget : x.world.get row.objectId = some o)
    (cursor : Int) (order : Nat) :
    x'.world.placed ⟨cursor, row.objectId, o.type, row.dimension, row'.span, order⟩ =
      x.world.placed ⟨cursor, row.objectId, o.type, row.dimension, row.span, order⟩ := by
  obtain ⟨-, -, -, hbare, hvalue⟩ := hrow
  have htransition := optionMap_alike (eventAt h row.span.enteredPosition)
    (f := Event.transition) (g := Event.transition) fun _ _ hab => hab.transition.symm
  have hwithholds : ∀ declared : String,
      x'.world.withholdsSpan ⟨cursor, row.objectId, o.type, row.dimension, row'.span, order⟩
          declared =
        x.world.withholdsSpan ⟨cursor, row.objectId, o.type, row.dimension, row.span, order⟩
          declared := by
    intro declared
    rw [World.withholdsSpan, World.withholdsSpan, h.lib, personalUnder h,
      show row'.span.declarationVersion = row.span.declarationVersion from
        congrArg (·.declarationVersion) hbare]
  have hheld : (if x.world.withholdsSpan
        ⟨cursor, row.objectId, o.type, row.dimension, row.span, order⟩
        (x.world.typesThen row.objectId row.span.declarationVersion) then none
        else some row'.span.value) =
      if x.world.withholdsSpan ⟨cursor, row.objectId, o.type, row.dimension, row.span, order⟩
        (x.world.typesThen row.objectId row.span.declarationVersion) then none
        else some row.span.value := by
    rcases hvalue with hvalue | hpersonal
    · rw [hvalue]
    · rw [withholdsSpan_of (s := ⟨cursor, row.objectId, o.type, row.dimension, row.span, order⟩)
        (hpersonal o hget)]
      rfl
  simp only [Span.bare, Span.mk.injEq] at hbare
  simp only [World.placed, World.spanRow, CursoredSpan.key, typesThen h, hwithholds, hbare,
    htransition, hheld]

/-- A window's spans, in their order, are exported as the same rows. -/
theorem Alike.intervalsBetween (h : x.Alike r x') (types : List String) (after upto : Int) :
    (x.intervalsBetween types after upto).map x.world.placed =
      (x'.intervalsBetween types after upto).map x'.world.placed := by
  have hall : (x.intervals.filterMap (x.world.cursored types)).map x.world.placed =
      (x'.intervals.filterMap (x'.world.cursored types)).map x'.world.placed := by
    rw [map_filterMap, map_filterMap]
    refine filterMap_alike h.intervals fun row row' hrow => ?_
    have hget := get h row.objectId
    rw [World.cursored, World.cursored, hrow.objectId, hrow.dimension, cursorOf h hrow, rank h,
      h.lib]
    generalize ho : x.world.get row.objectId = o, x'.world.get row.objectId = o' at hget
    cases hget with
    | none => rfl
    | @some o o' hoo =>
        rw [Option.bind_some, Option.bind_some, hoo.type]
        split
        · cases x.world.cursorOf row with
          | none => rfl
          | some cursor => exact congrArg some (placed h hrow ho _ _).symm
        · rfl
  have hwithin := congrArg (filter fun s : Placed × ExportRow =>
    decide (after < s.1.1) && decide (s.1.1 ≤ upto)) hall
  rw [filter_map, filter_map] at hwithin
  exact sorted_alike (r := fun a b : Placed × ExportRow => a.1.le b.1 = true) hwithin

theorem Alike.retractionsBetween (h : x.Alike r x') (types : List String) (after upto : Int) :
    x'.retractionsBetween types after upto = x.retractionsBetween types after upto := by
  have hof : ∀ id, ((x'.world.get id).any fun o => types.contains o.type) =
      (x.world.get id).any fun o => types.contains o.type := fun id =>
    (optionAny_alike (get h id) fun _ _ ho => by rw [ho.type]).symm
  simp only [Exporting.retractionsBetween, h.retractions, hof, rank h]

theorem Alike.window (h : x.Alike r x') (types : List String) (after upto : Int) :
    x'.window types after upto = x.window types after upto := by
  have hwritten := congrArg (map fun s : Placed × ExportRow => (s.1.1, true, s.2))
    (intervalsBetween h types after upto)
  simp only [map_map] at hwritten
  rw [Exporting.window, Exporting.window, retractionsBetween h]
  congr 2
  exact congrArg _ hwritten.symm

theorem Alike.lastPosition (h : x.Alike r x') : x'.world.lastPosition = x.world.lastPosition := by
  have hpositions := map_alike h.log (f := (·.position)) (g := (·.position)) fun _ _ hab =>
    hab.position.symm
  simp only [World.log, h.committed.1, h.committed.2, append_nil] at hpositions
  simp only [World.lastPosition, h.committed.1, h.committed.2, hpositions]

theorem Alike.intervalRows (h : x.Alike r x') (line : ExportRow → String) (type : String)
    (after : Int) (limit : Nat) :
    x'.intervalRows line type after limit = x.intervalRows line type after limit := by
  have hfrom : ∀ fuel types at' window used rows,
      x'.intervalRowsFrom line types limit fuel at' window used rows =
        x.intervalRowsFrom line types limit fuel at' window used rows := by
    intro fuel types
    induction fuel with
    | zero => intros; rfl
    | succ fuel ih =>
        intros
        simp only [Exporting.intervalRowsFrom, lastPosition h, Alike.window h, ih]
  rw [Exporting.intervalRows, Exporting.intervalRows, hfrom, family h, lastPosition h]

theorem Alike.attemptsAfter (h : x.Alike r x') (types : List String) (past : Place) (upto : Int) :
    x'.attemptsAfter types past upto = x.attemptsAfter types past upto := by
  rw [Exporting.attemptsAfter, Exporting.attemptsAfter, h.attempts]

theorem Alike.attemptChunks (h : x.Alike r x') (line : ExportRow → String) (types : List String)
    (limit : Nat) (upto : Int) (fuel : Nat) (past : Place) (used : Nat) (rows : Cursored) :
    x'.attemptChunks line types limit upto fuel past used rows =
      x.attemptChunks line types limit upto fuel past used rows := by
  induction fuel generalizing past used rows with
  | zero => rfl
  | succ fuel ih => simp only [Exporting.attemptChunks, attemptsAfter h, ih]

theorem Alike.attemptRows (h : x.Alike r x') (line : ExportRow → String) (type : String)
    (after : Int) (limit : Nat) :
    x'.attemptRows line type after limit = x.attemptRows line type after limit := by
  have hfrom : ∀ fuel types past window used rows,
      x'.attemptRowsFrom line types limit fuel past window used rows =
        x.attemptRowsFrom line types limit fuel past window used rows := by
    intro fuel types
    induction fuel with
    | zero => intros; rfl
    | succ fuel ih =>
        intros
        simp only [Exporting.attemptRowsFrom, h.lastTxn, h.attempts, attemptChunks h,
          attemptsAfter h, ih]
  rw [Exporting.attemptRows, Exporting.attemptRows, hfrom, family h, h.lastTxn]

/-! ### Pages alike -/

theorem upToBytes_alike {R : Event → Event → Prop} {bytes bytes' : Event → Nat} (pageBytes : Nat)
    (hbytes : ∀ e e', R e e' → bytes e = bytes' e') {events events' : List Event}
    (h : Forall₂ R events events') (used : Nat) :
    Forall₂ R (upToBytes bytes pageBytes used events).1 (upToBytes bytes' pageBytes used events').1 ∧
      (upToBytes bytes pageBytes used events).2 = (upToBytes bytes' pageBytes used events').2 := by
  induction h generalizing used with
  | nil => exact ⟨.nil, rfl⟩
  | @cons e e' _ _ hab hrest ih =>
      simp only [upToBytes, ← hbytes e e' hab]
      split
      · exact ⟨.cons hab .nil, rfl⟩
      · exact ⟨.cons hab (ih _).1, (ih _).2⟩

theorem Alike.logAfter (h : x.Alike r x') (after : Int) (types : Option (List String))
    (limit : Nat) :
    Forall₂ (EventAlike r x.world) (x.world.logAfter after types limit)
      (x'.world.logAfter after types limit) := by
  apply forall₂_take
  refine filter_alike h.log fun e e' he => ?_
  rw [he.position, he.objectId]
  cases types with
  | none => rfl
  | some ts =>
      have hof := optionAny_alike (get h e.objectId) (p := fun o => ts.contains o.type)
        (q := fun o => ts.contains o.type) fun _ _ ho => by rw [ho.type]
      rw [Option.all_some, Option.all_some, hof]

theorem Alike.logRows (h : x.Alike r x') {b c : Event → Nat} (pageBytes : Nat)
    (hbytes : ∀ e e', EventAlike r x.world e e' → b e = c e')
    (types : Option (List String)) (after : Int) (limit : Nat) :
    Forall₂ (EventAlike r x.world) (logRows x.world b pageBytes types after limit)
      (logRows x'.world c pageBytes types after limit) := by
  have hfrom : ∀ fuel at' used rows rows', Forall₂ (EventAlike r x.world) rows rows' →
      Forall₂ (EventAlike r x.world)
        (logRowsFrom x.world b pageBytes types limit fuel at' used rows)
        (logRowsFrom x'.world c pageBytes types limit fuel at' used rows') := by
    intro fuel
    induction fuel with
    | zero => exact fun _ _ _ _ hrows => hrows
    | succ fuel ih =>
        intro at' used rows rows' hrows
        have hlen := hrows.length_eq
        simp only [logRowsFrom, ← hlen]
        split
        · have hpage := logAfter h at' types (min ROWS_CHUNK (limit - rows.length))
          have hread := upToBytes_alike pageBytes hbytes hpage used
          have hboth := rel_append hrows hread.1
          rw [← hpage.length_eq, ← hread.2]
          split
          · exact hboth
          · have hlast := optionMap_alike (getLast?_alike hread.1) (f := (·.position))
              (g := (·.position)) fun _ _ hab => hab.position.symm
            rw [← hlast]
            exact ih _ _ _ _ hboth
        · exact hrows
  rw [ObjectFlow.logRows, ObjectFlow.logRows, ← h.log.length_eq]
  exact hfrom _ _ _ _ _ .nil

theorem Alike.logPage (h : x.Alike r x') (line : ExportRow → String) (types : Option (List String))
    (after : Int) (limit : Nat) :
    x'.logPage r line types after limit = x.logPage r line types after limit := by
  have hrows := logRows h (b := fun e => lineBytes line (.event (x.world.eventRow r e)))
    (c := fun e => lineBytes line (.event (x'.world.eventRow r e))) PAGE_BYTES
    (fun e e' he => by rw [eventRow h he]) types after limit
  refine (map_alike hrows fun e e' he => ?_).symm
  dsimp only
  rw [eventRow h he, he.position]

theorem Alike.lastEvent (h : x.Alike r x') (id : String) :
    x'.world.lastEvent id = x.world.lastEvent id :=
  (optionMap_alike (getLast?_alike (eventsOf h id)) fun _ _ hab => hab.position.symm).symm

/-- Records read by their last events are exported as the same rows. -/
theorem Alike.pagedRows {y : VersionedStore} (h : y.toExporting.Alike r x') {keep keep' : Object → Bool}
    (hkeep : ∀ o o', ObjectAlike y.world o o' → keep o = keep' o')
    (hkept : ∀ o, keep o = true → o.type ≠ PROPOSAL) (after : Int) (limit : Nat) :
    x'.pagedRows (x'.world.idsAfter keep' after limit) =
      y.pagedRows (y.world.idsAfter keep after limit) := by
  have hheld : Forall₂ (fun o o' => (o ∈ y.world.inOrder ∧ keep o = true) ∧
      ObjectAlike y.world o o') (y.world.inOrder.filter keep) (x'.world.inOrder.filter keep') :=
    (forall₂_and_left _ _).mpr ⟨fun o ho => mem_filter.mp ho, filter_alike (inOrder h) hkeep⟩
  have hwritten := filterMap_alike hheld
    (f := fun o => (((y.world.lastEvent o.id).filter fun at' => decide (after < at')).map
      fun at' => (at', o)).map fun v => (v.1, ExportRow.object (y.world.objectRow y.moves v.2)))
    (g := fun o => (((x'.world.lastEvent o.id).filter fun at' => decide (after < at')).map
      fun at' => (at', o)).map fun v => (v.1, ExportRow.object (x'.world.objectRow x'.moves v.2)))
    fun o o' ho => by
      rw [ho.2.id, lastEvent h, Option.map_map, Option.map_map]
      congr 1
      funext at'
      simp only [Function.comp_apply, objectRow h ho.1.1 (hkept o ho.1.2) ho.2]
  rw [← map_filterMap, ← map_filterMap] at hwritten
  have hsorted := sorted_alike (r := fun a b : Int × ExportRow => a.1 ≤ b.1) hwritten
  rw [Exporting.pagedRows, Exporting.pagedRows, World.idsAfter, World.idsAfter, map_take, map_take]
  exact congrArg (List.take limit) hsorted.symm

theorem Alike.labels (h : x.Alike r x') (types : List String) {o o' : Object}
    (ho : ObjectAlike x.world o o') :
    x.world.labels types o = x'.world.labels types o' := by
  rw [World.labels, World.labels, ho.type]
  by_cases htype : o.type = LABEL
  · have hsubject : ¬ x.world.Private o "subject" := by
      rw [World.Private, if_neg (by rw [htype]; decide)]
      exact fun hp => hp.1 ⟨htype, rfl⟩
    rw [ho.attr hsubject]
    congr 1
    cases o.attr "subject" <;> try rfl
    exact optionAny_alike (get h _) fun _ _ hs => by rw [hs.type]
  · simp [htype]

theorem Alike.rowsOf {y : VersionedStore} (h : y.toExporting.Alike r x') (line : ExportRow → String) (source : String)
    (after : Int) (limit : Nat) :
    x'.rowsOf r line source after limit = y.rowsOf r line source after limit := by
  have hlabels := fun types => pagedRows h (fun o o' ho => labels h types ho)
    (fun o ho => by
      simp only [World.labels, Bool.and_eq_true, decide_eq_true_eq] at ho
      rw [ho.1]
      decide) after (limit + 1)
  rw [Exporting.rowsOf, Exporting.rowsOf]
  simp only [h.lib, logPage h, intervalRows h, attemptRows h, family h, hlabels]
  by_cases hlog : source = "log"
  · rw [if_pos hlog, if_pos hlog]
  · rw [if_neg hlog, if_neg hlog]
    by_cases hkind : ((y.world.lib.type? source).any fun t => t.observationOn.isSome) = true
    · rw [if_pos hkind, if_pos hkind]
      refine congrArg some (pagedRows h (fun o o' ho => by rw [ho.type]) (fun o ho hp => ?_) after
        (limit + 1))
      obtain rfl : o.type = source := by simpa using ho
      rw [hp, y.proposals] at hkind
      exact Bool.false_ne_true hkind
    · rw [if_neg hkind, if_neg hkind]

theorem Alike.countsPage (h : x.Alike r x') (line : ExportRow → String) (type : String)
    (cursor : Option String) (limit : Nat) :
    x'.countsPage line type cursor limit = x.countsPage line type cursor limit := by
  have hcounts : x'.attemptCounts type = x.attemptCounts type := by
    rw [Exporting.attemptCounts, Exporting.attemptCounts, h.rollup, h.lib, family h, h.attempts]
  have hlines : ∀ after, x'.countLines line type after = x.countLines line type after := by
    intro after
    rw [Exporting.countLines, Exporting.countLines, hcounts, h.now]
  have hrecounted : ∀ day, x'.recounted day = x.recounted day := by
    intro day
    rw [Exporting.recounted, Exporting.recounted, h.restores]
  simp only [Exporting.countsPage, hlines, hrecounted, h.now]

end Shared

namespace Remarks

/-- The first version of a library, whose items hold a personal remark. -/
def first : Library where
  types := [("Item", {
    name := "Item"
    attributes := [("remark", { declared := .scalar (.named "string"), personal := true })]
    states := [("OPEN", {})]
    transitions := [("open", { kind := .initial, toStates := ["OPEN"], optionalInputs := ["remark"] }),
      ("ask", { kind := .internal, optionalInputs := ["whisper"]
                inputs := [("whisper", { declared := .scalar (.named "string") })] })] })]

/-- The second, which renames it, personal no more, and makes what is whispered
personal. -/
def second : Library where
  types := [("Item", {
    name := "Item"
    attributes := [("note", { declared := .scalar (.named "string") })]
    states := [("OPEN", {})]
    transitions := [("open", { kind := .initial, toStates := ["OPEN"], optionalInputs := ["note"] }),
      ("ask", { kind := .internal, optionalInputs := ["whisper"]
                inputs := [("whisper", { declared := .scalar (.named "string")
                                         personal := true })] })] })]
  version := 2
  renamedAttributes := [("Item", "remark", "note")]

/-- An item whose remark the first version wrote. -/
def item (remark : String) : Object where
  id := "i1"
  type := "Item"
  state := "OPEN"
  attrs := [("note", .text remark)]
  writes := [("note", 1)]

/-- The event that wrote it. -/
def opened (remark : String) : Event where
  position := 1
  objectId := "i1"
  objectSeq := 1
  transition := "open"
  fromState := none
  toState := "OPEN"
  changesState := true
  source := "request"
  actorId := "op"
  actorKind := "operator"
  payload := { inputs := [("remark", .text remark)], wrote := [("remark", .text remark)] }

/-- A store of one item. -/
def world (remark : String) : World where
  lib := second
  earlier := [(1, first)]
  objects := [("i1", item remark)]
  stored := [opened remark]

/-- An attempt under the first version, which withheld nothing of it. -/
def refused (whisper : String) : Attempt where
  at' := 0
  actorId := "op"
  actorKind := "operator"
  principal := none
  context := none
  type := some "Item"
  objectId := some "i1"
  transition := some "ask"
  verdict := "unsatisfied"
  clause := none
  remedy := ""
  unknown := false
  enforced := true
  flagged := false
  reads := .null
  appliedPosition := none
  call := .null
  proposal := none
  batchIndex := none
  consulted := .null
  requestValues := .object [("whisper", .string whisper)]
  withheld := []
  declarationVersion := 1
  txn := 1
  id := 1

def store (remark whisper : String) : VersionedStore where
  world := world remark
  versioned := by rfl
  linked := by rfl
  proposals := by rfl
  attempts := [refused whisper]
  lastTxn := 1

/-- A reader of no proposals and no metrics. -/
def readers : Readers where
  metrics := { find := fun _ _ _ _ => .error (.unsupported "a metric"), typedDerived := fun _ _ _ v => v }
  decode := fun _ _ _ _ => .error .wrongType
  inputsText := fun _ => ""
  inputsOf := fun _ => none
  inputNames := fun _ => none
  withoutInputs := fun held _ => held
  changed := fun _ _ o => .ok o.attrs

/-- The values of a row of an event or of an attempt. -/
def line : ExportRow → String
  | .event row => String.join (row.event.payload.inputs.map fun v =>
      match v.2 with
      | .text t => v.1 ++ "=" ++ t
      | _ => v.1)
  | .attempt row => match row.requestValues with
      | .object [(k, .string t)] => k ++ "=" ++ t
      | _ => ""
  | _ => ""

/-- The remark the first version wrote is personal under its later name. -/
theorem personal_note (remark whisper : String) (type : String) (htype : type = "Item") :
    (store remark whisper).world.PersonalThen 1 type "note" := by
  subst htype
  refine ⟨"remark", ?_, rfl⟩
  have hrenames : (store remark whisper).world.Renames "Item" 2 "remark" "note" :=
    ⟨second, "Item", rfl, by decide, rfl⟩
  refine .renamed hrenames ?_ (.now "note")
  rintro other ⟨lib, owner, hlib, hmem, -⟩
  obtain rfl : second = lib := by simpa [World.heldLibrary, store, world, second] using hlib
  exact (show owner = "Item" ∧ other = "remark" by simpa [second] using hmem).2

/-- Two stores of the item are alike whatever its remark. -/
theorem alike (remark other whisper : String) :
    (store remark whisper).toExporting.Alike readers (store other whisper).toExporting where
  lib := rfl
  earlier := rfl
  now := rfl
  objects := by
    refine .cons ⟨rfl, rfl, .cons ⟨rfl, .inr ?_⟩ .nil⟩ .nil
    show if "Item" = PROPOSAL then _ else _
    rw [if_neg (by decide)]
    have hsubject : "note" ≠ "subject" := by decide
    exact ⟨fun hlabel => hsubject hlabel.2, .inr ⟨1, rfl, personal_note remark whisper _ rfl⟩⟩
  log := by
    refine .cons ⟨rfl, .cons ⟨rfl, .inr ?_⟩ .nil, .nil, .cons ⟨rfl, .inr (.inl ?_)⟩ .nil⟩ .nil
    · exact .inr (.inr ⟨_, _, rfl, rfl, .inl rfl⟩)
    · exact .inr (.inr rfl)
  committed := ⟨rfl, rfl⟩
  declared := by
    intro o ho attr
    obtain rfl : o = item remark := by simpa [World.inOrder, store, world] using ho
    by_cases hattr : attr = "note"
    · subst hattr
      rfl
    · simp [declaredUnder, lastMigrated, World.eventsOf, World.log, store, world, item, opened,
        Table.get?, Ne.symm hattr]
  moves := rfl
  intervals := .nil
  retractions := rfl
  attempts := rfl
  rollup := rfl
  lastTxn := rfl
  restores := rfl

end Remarks

end ObjectFlow
