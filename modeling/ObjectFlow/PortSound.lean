import ObjectFlow.Commit
import ObjectFlow.Ported

/-!
# What an import leaves sound

Each object a batch names is the one the store holds under its legacy key, or
takes an id no object has; its event stands past the log.  So an import leaves a
sound store sound, as a request does, and its log grown at its end.
-/

namespace ObjectFlow

open Base

/-! ### What placing leaves -/

/-- An object of a batch as it is placed: of a type the library holds, found by
its legacy key, or given an id drawn from the counters. -/
structure ImportPlaced.Found (w : World) (external : ExternalIds) (alloc alloc' : Counters)
    (p : ImportPlaced) : Prop where
  typed : (w.lib.type? p.given.type).isSome
  held : ∀ h, p.held = some h →
    (external.object (p.key w.lib)).bind w.get = some h ∧ h.type = p.given.type ∧ p.id = h.id
  drawn : p.held = none → (external.object (p.key w.lib)).bind w.get = none ∧
    ∃ n, alloc.object < n ∧ n ≤ alloc'.object ∧ p.id = alloc.mintId p.given.type n

theorem ImportPlaced.Found.later {w : World} {external : ExternalIds}
    {alloc alloc' alloc'' : Counters} {p : ImportPlaced} (h : p.Found w external alloc alloc')
    (hle : alloc'.object ≤ alloc''.object) : p.Found w external alloc alloc'' where
  typed := h.typed
  held := h.held
  drawn := by
    intro hnone
    obtain ⟨hexternal, n, hlt, hn, hid⟩ := h.drawn hnone
    exact ⟨hexternal, n, hlt, hn.trans hle, hid⟩

/-- What placing part of a batch leaves: its objects in its order, each found,
each key with its object's id, and nothing of the counters moved but the object
number. -/
structure Placing.Sound (w : World) (external : ExternalIds) (alloc : Counters)
    (given : List (ImportedObject × Nat)) (p : Placing) : Prop where
  given : p.placed.map (fun q => (q.given, q.index)) = given
  found : ∀ q ∈ p.placed, q.Found w external alloc p.alloc
  ids : ∀ key id, Table.get? p.ids key = some id → ∃ q ∈ p.placed, q.key w.lib = key ∧ q.id = id
  position : p.alloc.position = alloc.position
  mintId : p.alloc.mintId = alloc.mintId
  object : alloc.object ≤ p.alloc.object

/-- Where an object is held under its key, it is of the type given. -/
theorem heldUnder_ok {w : World} {external : ExternalIds} {o : ImportedObject} {key : LegacyKey}
    {held : Option Object} (h : heldUnder w external o key = .ok held) :
    (external.object key).bind w.get = held ∧ ∀ found, held = some found → found.type = o.type := by
  unfold heldUnder at h
  cases hget : (external.object key).bind w.get with
  | none =>
      rw [hget] at h
      cases h
      exact ⟨rfl, by simp⟩
  | some found =>
      rw [hget] at h
      dsimp only at h
      split at h
      case isTrue htype =>
        cases h
        exact ⟨rfl, fun _ heq => Option.some.inj heq ▸ htype⟩
      case isFalse => cases h

/-- **One object placed** among those before it. -/
theorem placeOne_sound {w : World} {external : ExternalIds} {alloc : Counters}
    {before : List (ImportedObject × Nat)} {o : ImportedObject} {index : Nat} {p q : Placing}
    (hp : p.Sound w external alloc before) (h : placeOne w external o index p = .ok q) :
    q.Sound w external alloc (before ++ [(o, index)]) := by
  unfold placeOne at h
  cases ht : w.lib.type? o.type with
  | none =>
      rw [ht] at h
      cases h
  | some t =>
      rw [ht] at h
      dsimp only at h
      cases hfault : o.fault w.lib w.now t with
      | some why =>
          rw [hfault] at h
          cases h
      | none =>
          rw [hfault] at h
          dsimp only at h
          split at h
          · cases h
          · cases hheld : heldUnder w external o (legacy w.lib o.type o.legacyKey) with
            | error why =>
                rw [hheld] at h
                cases h
            | ok held =>
                obtain ⟨hexternal, htype⟩ := heldUnder_ok hheld
                rw [hheld] at h
                cases h
                cases held with
                | some found =>
                    refine ⟨?_, ?_, ?_, hp.position, hp.mintId, hp.object⟩
                    · rw [List.map_append, hp.given]
                      rfl
                    · intro q hq
                      rcases List.mem_append.mp hq with hq | hq
                      · exact hp.found q hq
                      · cases List.mem_singleton.mp hq
                        refine ⟨by rw [ht]; rfl, ?_, by simp⟩
                        rintro h ⟨⟩
                        exact ⟨hexternal, htype found rfl, rfl⟩
                    · intro key id hid
                      rw [Table.get?_put] at hid
                      split at hid
                      case isTrue heq =>
                        cases hid
                        exact ⟨_, List.mem_append_right _ (List.mem_singleton_self _), heq, rfl⟩
                      case isFalse =>
                        obtain ⟨q, hq, hkey⟩ := hp.ids key id hid
                        exact ⟨q, List.mem_append_left _ hq, hkey⟩
                | none =>
                    have hstep : p.alloc.object ≤ (p.alloc.objectId o.type).2.object :=
                      Nat.le_succ _
                    refine ⟨?_, ?_, ?_, hp.position, hp.mintId, hp.object.trans hstep⟩
                    · rw [List.map_append, hp.given]
                      rfl
                    · intro q hq
                      rcases List.mem_append.mp hq with hq | hq
                      · exact (hp.found q hq).later hstep
                      · cases List.mem_singleton.mp hq
                        refine ⟨by rw [ht]; rfl, by simp, fun _ => ⟨hexternal, ?_⟩⟩
                        refine ⟨p.alloc.object + 1, Nat.lt_succ_of_le hp.object, le_refl _, ?_⟩
                        show p.alloc.mintId o.type (p.alloc.object + 1) = _
                        rw [hp.mintId]
                    · intro key id hid
                      rw [Table.get?_put] at hid
                      split at hid
                      case isTrue heq =>
                        cases hid
                        exact ⟨_, List.mem_append_right _ (List.mem_singleton_self _), heq, rfl⟩
                      case isFalse =>
                        obtain ⟨q, hq, hkey⟩ := hp.ids key id hid
                        exact ⟨q, List.mem_append_left _ hq, hkey⟩

theorem placeAll_sound {w : World} {external : ExternalIds} {alloc : Counters}
    {before rest : List (ImportedObject × Nat)} {p q : Placing}
    (hp : p.Sound w external alloc before) (h : placeAll w external rest p = .ok q) :
    q.Sound w external alloc (before ++ rest) := by
  induction rest generalizing before p with
  | nil =>
      cases h
      rw [List.append_nil]
      exact hp
  | cons first rest ih =>
      obtain ⟨o, index⟩ := first
      unfold placeAll at h
      cases hone : placeOne w external o index p with
      | error why =>
          rw [hone] at h
          cases h
      | ok p' =>
          rw [hone] at h
          have := ih (placeOne_sound hp hone) h
          rwa [List.append_assoc, List.singleton_append] at this

/-- Nothing placed yet. -/
theorem Placing.sound_start (w : World) (external : ExternalIds) (alloc : Counters) :
    ({ alloc } : Placing).Sound w external alloc [] :=
  ⟨rfl, by simp, by simp, rfl, rfl, le_refl _⟩

/-! ### What reading leaves -/

/-- An object placed, its values aside. -/
def ImportPlaced.bare (p : ImportPlaced) : ImportPlaced := { p with values := [] }

theorem ImportPlaced.bare_eq {p q : ImportPlaced} (h : p.bare = q.bare) :
    p.given = q.given ∧ p.index = q.index ∧ p.id = q.id ∧ p.held = q.held := by
  cases p
  cases q
  cases h
  exact ⟨rfl, rfl, rfl, rfl⟩

theorem readPlaced_bare {r : Readers} {w : World} {p q : ImportPlaced} {v v' : Valued}
    (h : readPlaced r w p v = .ok (q, v')) : q.bare = p.bare := by
  unfold readPlaced at h
  split at h
  · cases h
    rfl
  · obtain ⟨read, hread, h⟩ := ok_of_bind h
    cases h
    rfl

/-- Reading a batch's values leaves where its objects are placed. -/
theorem readAll_bare {r : Readers} {w : World} {placed placed' : List ImportPlaced} {v v' : Valued}
    (h : readAll r w placed v = .ok (placed', v')) :
    placed'.map ImportPlaced.bare = placed.map ImportPlaced.bare := by
  induction placed generalizing v placed' with
  | nil =>
      cases h
      rfl
  | cons p rest ih =>
      unfold readAll at h
      obtain ⟨⟨q, read⟩, hone, h⟩ := ok_of_bind h
      obtain ⟨⟨others, last⟩, hrest, h⟩ := ok_of_bind h
      cases h
      rw [List.map_cons, List.map_cons, readPlaced_bare hone, ih hrest]

/-- A batch read: every object found, and each key with its object's id. -/
structure Port.Sound (w : World) (external : ExternalIds) (alloc alloc' : Counters)
    (batch : ImportBatch) (port : Port) : Prop where
  given : port.placed.map (fun p => (p.given, p.index)) = batch.objects.zipIdx
  found : ∀ p ∈ port.placed, p.Found w external alloc alloc'
  ids : ∀ key id, Table.get? port.ids key = some id →
    ∃ p ∈ port.placed, p.key w.lib = key ∧ p.id = id
  position : alloc'.position = alloc.position
  mintId : alloc'.mintId = alloc.mintId
  object : alloc.object ≤ alloc'.object

/-- **A batch read** is placed soundly. -/
theorem readBatch_sound {r : Readers} {w : World} {external : ExternalIds} {batch : ImportBatch}
    {alloc alloc' : Counters} {port : Port}
    (h : readBatch r w external batch alloc = .ok (port, alloc')) :
    port.Sound w external alloc alloc' batch := by
  unfold readBatch at h
  obtain ⟨placing, hplaced, h⟩ := ok_of_bind h
  obtain ⟨⟨placed, v⟩, hread, h⟩ := ok_of_bind h
  obtain ⟨_, -, h⟩ := ok_of_bind h
  cases h
  have hsound := placeAll_sound (Placing.sound_start w external alloc) hplaced
  rw [List.nil_append] at hsound
  have hbare := readAll_bare hread
  -- each object read is one placed, but for its values
  have hback : ∀ q ∈ placed, ∃ p ∈ placing.placed, p.bare = q.bare := by
    intro q hq
    have hmem : q.bare ∈ placed.map ImportPlaced.bare := List.mem_map.mpr ⟨q, hq, rfl⟩
    rw [hbare] at hmem
    exact List.mem_map.mp hmem
  refine ⟨?_, ?_, ?_, hsound.position, hsound.mintId, hsound.object⟩
  · have hmap := congrArg (List.map fun p : ImportPlaced => (p.given, p.index)) hbare
    rw [List.map_map, List.map_map] at hmap
    exact hmap.trans hsound.given
  · intro q hq
    obtain ⟨p, hp, heq⟩ := hback q hq
    have hfound := hsound.found p hp
    cases p
    cases q
    cases heq
    exact ⟨hfound.typed, hfound.held, hfound.drawn⟩
  · intro key id hid
    obtain ⟨p, hp, hkey, hpid⟩ := hsound.ids key id hid
    have hmem : p.bare ∈ placing.placed.map ImportPlaced.bare := List.mem_map.mpr ⟨p, hp, rfl⟩
    rw [← hbare] at hmem
    obtain ⟨q, hq, heq⟩ := List.mem_map.mp hmem
    cases p
    cases q
    cases heq
    exact ⟨_, hq, hkey, hpid⟩

/-! ### What the rounds leave -/

section

variable {r : Readers} {w : World} {external : ExternalIds} {file : List ViolationClass}
  {port : Port}

/-- What holds of the store, and is kept by each object placed, holds of what a
round places. -/
theorem oneRound_work {P : World → Prop} (hw : P w)
    (hplaced : ∀ work dropped p, p ∈ port.placed → P work →
      P (work.insert (placedObject w external port dropped p)))
    {excluded : List Nat} {round : Round} (h : oneRound r w external port excluded = .ok round) :
    P round.work := by
  obtain ⟨classes, -, h⟩ := ok_of_bind h
  cases h
  have hfold : ∀ (dropped : List (Nat × String)) (placed : List ImportPlaced) (work : World),
      (∀ p ∈ placed, p ∈ port.placed) → P work →
      P (placed.foldl (fun work p => work.insert (placedObject w external port dropped p)) work) := by
    intro dropped placed
    induction placed with
    | nil => exact fun _ _ h => h
    | cons p rest ih =>
        intro work hmem hwork
        exact ih _ (fun q hq => hmem q (List.mem_cons_of_mem _ hq))
          (hplaced work dropped p (hmem p List.mem_cons_self) hwork)
  exact hfold _ _ w (fun p hp => (List.mem_filter.mp hp).1) hw

/-- **The rounds end** in one of them, its references left out cleared on the
objects placed. -/
theorem placeRounds_ends {fuel : Nat} {excluded excluded' : List Nat} {round : Round}
    (h : placeRounds r w external file port fuel excluded = .ok (round, excluded')) :
    ∃ last, oneRound r w external port excluded' = .ok last ∧ round = last.applyDrops port := by
  induction fuel generalizing excluded with
  | zero =>
      unfold placeRounds at h
      obtain ⟨last, hlast, h⟩ := ok_of_bind h
      cases h
      exact ⟨last, hlast, rfl⟩
  | succ fuel ih =>
      unfold placeRounds at h
      obtain ⟨last, hlast, h⟩ := ok_of_bind h
      dsimp only at h
      split at h
      · cases h
        exact ⟨last, hlast, rfl⟩
      · exact ih h

/-- What is kept, besides, by a reference cleared on an object placed, holds of
what the rounds leave. -/
theorem applyDrops_work {P : World → Prop} {round : Round} (hround : P round.work)
    (hdrop : ∀ (work : World) (p : ImportPlaced) a, p ∈ port.placed → P work →
      P (work.change p.id fun o => { o with attrs := Table.erase o.attrs a })) :
    P (round.applyDrops port).work := by
  have hone : ∀ (work : World) d, P work → P (clearDropped port work d) := by
    intro work d hwork
    unfold clearDropped
    split
    case h_1 => exact hwork
    case h_2 p hfind => exact hdrop work p d.2 (List.mem_of_find?_eq_some hfind) hwork
  have hfold : ∀ (dropped : List (Nat × String)) (work : World), P work →
      P (dropped.foldl (clearDropped port) work) := by
    intro dropped
    induction dropped with
    | nil => exact fun _ h => h
    | cons d rest ih => exact fun work hwork => ih _ (hone work d hwork)
  exact hfold _ _ hround

theorem placeRounds_work {P : World → Prop} (hw : P w)
    (hplaced : ∀ work dropped p, p ∈ port.placed → P work →
      P (work.insert (placedObject w external port dropped p)))
    (hdrop : ∀ (work : World) (p : ImportPlaced) a, p ∈ port.placed → P work →
      P (work.change p.id fun o => { o with attrs := Table.erase o.attrs a }))
    {fuel : Nat} {excluded excluded' : List Nat} {round : Round}
    (h : placeRounds r w external file port fuel excluded = .ok (round, excluded')) :
    P round.work := by
  obtain ⟨last, hlast, rfl⟩ := placeRounds_ends h
  exact applyDrops_work (oneRound_work hw hplaced hlast) hdrop

/-- The object placed stands under its id. -/
theorem placedObject_id {alloc alloc' : Counters} {p : ImportPlaced}
    (hp : p.Found w external alloc alloc') (dropped : List (Nat × String)) :
    (placedObject w external port dropped p).id = p.id := by
  have hid : (p.held.getD (p.fresh w)).id = p.id := by
    cases hheld : p.held with
    | none => rfl
    | some h => exact (hp.held h hheld).2.2.symm
  unfold placedObject
  split <;> exact hid

end

/-- Each object of a world under its id. -/
def World.Named (w : World) : Prop := ∀ id o, w.get id = some o → o.id = id

theorem World.Named.insert {w : World} (hw : w.Named) (o : Object) : (w.insert o).Named := by
  intro id x hx
  rw [World.get_insert] at hx
  split at hx
  case isTrue heq =>
    cases hx
    exact heq
  case isFalse => exact hw id x hx

theorem World.Named.change {w : World} (hw : w.Named) (k : String) {f : Object → Object}
    (hf : ∀ o, (f o).id = o.id) : (w.change k f).Named := by
  intro id x hx
  rw [World.get_change] at hx
  split at hx
  case isTrue =>
    obtain ⟨o, ho, rfl⟩ := Option.map_eq_some_iff.mp hx
    exact (hf o).trans (hw id o ho)
  case isFalse => exact hw id x hx

/-- The objects the rounds leave stand under their ids. -/
theorem placeRounds_named {r : Readers} {w : World} {external : ExternalIds}
    {file : List ViolationClass} {port : Port} (hw : w.Named) {fuel : Nat}
    {excluded excluded' : List Nat} {round : Round}
    (h : placeRounds r w external file port fuel excluded = .ok (round, excluded')) :
    round.work.Named :=
  placeRounds_work (P := World.Named) hw (fun _ _ _ _ hwork => hwork.insert _)
    (fun _ p _ _ hwork => hwork.change p.id fun _ => rfl) h

/-! ### What the writes are -/

/-- The interval index an import opens changes nothing of a row but its
spans. -/
theorem openSpans_row {lib : Library} {o : ImportedObject} {held : Option Object}
    {between : Table String (List Span)} {position port : Int} {members : List String}
    {obj obj' : Object} (h : openSpans lib o held between position port obj members = .ok obj') :
    ∃ spans, obj' = { obj with spans } := by
  induction members generalizing obj with
  | nil =>
      cases h
      exact ⟨obj'.spans, rfl⟩
  | cons m rest ih =>
      unfold openSpans at h
      dsimp only at h
      split at h
      · exact ih h
      · obtain ⟨spans, -, h⟩ := ok_of_bind h
        obtain ⟨spans', rfl⟩ := ih h
        exact ⟨spans', rfl⟩

theorem withLegacy_row (obj : Object) (legacy : List (String × Span)) :
    ∃ spans, obj.withAllLegacy legacy = { obj with spans } := by
  induction legacy generalizing obj with
  | nil => exact ⟨obj.spans, rfl⟩
  | cons s rest ih =>
      obtain ⟨spans, hspans⟩ := ih (obj.withLegacy s.1 s.2)
      exact ⟨spans, hspans⟩

section

variable {r : Readers} {d : DecidedImport}

/-- What of an object its spans and its creation leave. -/
theorem spanned_row {t : FlowType} {p : ImportPlaced} {between : Table String (List Span)}
    {position : Int} {obj obj' : Object} {legacy : List (String × Span)}
    (h : d.spanned r t p between position obj = .ok (obj', legacy)) :
    obj'.id = obj.id ∧ obj'.type = obj.type ∧ obj'.state = obj.state ∧
      obj'.version = obj.version ∧ obj'.attrs = obj.attrs ∧ obj'.erased = obj.erased ∧
      obj'.admissions = obj.admissions := by
  obtain ⟨opened, hopened, h⟩ := ok_of_bind h
  obtain ⟨spans, rfl⟩ := openSpans_row hopened
  split at h
  · cases h
    exact ⟨rfl, rfl, rfl, rfl, rfl, rfl, rfl⟩
  · obtain ⟨given, -, h⟩ := ok_of_bind h
    cases h
    obtain ⟨spans', hspans⟩ := withLegacy_row { obj with spans } legacy
    rw [hspans]
    exact ⟨rfl, rfl, rfl, rfl, rfl, rfl, rfl⟩

/-- An object placed and written: its row with its spans, its event and what
stands beside them. -/
structure DecidedImport.Wrote (r : Readers) (d : DecidedImport) (p : ImportPlaced)
    (so so' : Writing) (t : FlowType) (between : Table String (List Span)) (obj o : Object)
    (legacy : List (String × Span)) (names : List String) : Prop where
  type : d.world.lib.type? p.given.type = some t
  placed : d.round.work.get p.id = some obj
  opened : d.between r t p = .ok between
  spanned : d.spanned r t p between (so.alloc.position + 1) obj = .ok (o, legacy)
  failing : failing r d.round.work o = .ok names
  wrote : so' =
    { alloc := { so.alloc with position := so.alloc.position + 1 }
      written := so.written + 1
      change := { so.change with
        spans := so.change.spans ++ legacy.map fun (m, sp) => (o.id, m, sp)
        change := { so.change.change with
          writes := so.change.change.writes ++
            [({ (d.admissions p names (so.alloc.position + 1) o).1 with version := o.version + 1 },
              p.held.isNone, d.event p (so.alloc.position + 1)
                { (d.admissions p names (so.alloc.position + 1) o).1 with version := o.version + 1 })]
          index := so.change.change.index ++ p.indexRows (so.alloc.position + 1)
            { (d.admissions p names (so.alloc.position + 1) o).1 with version := o.version + 1 }
          admitted := so.change.change.admitted ++
            (d.admissions p names (so.alloc.position + 1) o).2.1
          discharged := so.change.change.discharged ++
            (d.admissions p names (so.alloc.position + 1) o).2.2
          external := so.change.change.external ++ d.externalOf t p
            { (d.admissions p names (so.alloc.position + 1) o).1 with version := o.version + 1 } } } }

/-- **One object of a batch**: written, or left as it is. -/
theorem writeOne_ok {p : ImportPlaced} {so so' : Writing} (h : d.writeOne r p so = .ok so') :
    so' = so ∨ ∃ t between obj o legacy names, d.Wrote r p so so' t between obj o legacy names := by
  unfold DecidedImport.writeOne at h
  split at h
  case h_2 =>
    cases h
    exact .inl rfl
  case h_1 t obj ht hobj =>
    cases hbetween : d.between r t p with
    | error why =>
        rw [hbetween] at h
        cases h
    | ok between =>
        rw [hbetween] at h
        dsimp only at h
        split at h
        case isFalse =>
          cases h
          exact .inl rfl
        case isTrue =>
          unfold DecidedImport.writeObject at h
          dsimp only at h
          cases hspanned : d.spanned r t p between (so.alloc.position + 1) obj with
          | error why =>
              rw [hspanned] at h
              cases h
          | ok told =>
              obtain ⟨o, legacy⟩ := told
              rw [hspanned] at h
              dsimp only at h
              cases hfailing : failing r d.round.work o with
              | error e =>
                  rw [hfailing] at h
                  cases h
              | ok names =>
                  rw [hfailing] at h
                  cases h
                  exact .inr ⟨t, between, obj, o, legacy, names, ht, hobj, hbetween, hspanned,
                    hfailing, rfl⟩

/-- What every object written keeps holds of all the writes. -/
theorem writeAll_induct {P : Writing → Prop} {placed : List ImportPlaced} {so so' : Writing}
    (h : d.writeAll r placed so = .ok so') (hstart : P so)
    (hstep : ∀ p ∈ placed, ∀ so so' t between obj o legacy names, P so →
      d.Wrote r p so so' t between obj o legacy names → P so') : P so' := by
  induction placed generalizing so with
  | nil =>
      cases h
      exact hstart
  | cons p rest ih =>
      unfold DecidedImport.writeAll at h
      cases hone : d.writeOne r p so with
      | error why =>
          rw [hone] at h
          cases h
      | ok next =>
          rw [hone] at h
          refine ih h ?_ fun q hq => hstep q (List.mem_cons_of_mem _ hq)
          rcases writeOne_ok hone with rfl | ⟨t, between, obj, o, legacy, names, hwrote⟩
          · exact hstart
          · exact hstep p List.mem_cons_self _ _ _ _ _ _ _ _ hstart hwrote

end

/-! ### An import decided -/

/-- The objects of a batch left in by the rounds. -/
def DecidedImport.kept (d : DecidedImport) : List ImportPlaced :=
  d.port.placed.filter fun p => !d.excluded.contains p.index

/-- What an applied import was decided by: its actor, its batch read, its rounds,
and its writes. -/
structure ImportDecided (r : Readers) (w : World) (external : ExternalIds)
    (held : Table String (List LegacyEntry)) (alloc : Counters) (actor : String)
    (batch : ImportBatch) (file : List ViolationClass) (c : ImportChange) (alloc' : Counters)
    (who : Who) (port : Port) (read : Counters) (round : Round) (excluded : List Nat)
    (so : Writing) : Prop where
  checked : checkImport w actor batch = .ok who
  placed : readBatch r w external batch alloc = .ok (port, read)
  rounds : settleRounds r w external file port = .ok (round, excluded)
  decisions : checkDecisions file port false round.classes = .ok ()
  writes : (DecidedImport.of w external held batch file port who round excluded).writeAll r
    (DecidedImport.of w external held batch file port who round excluded).kept
    { alloc := read
      change := { legacy := (DecidedImport.of w external held batch file port who round
        excluded).entries } } = .ok so
  change : c = { so.change with raised := batch.sequences }
  counters : alloc' = so.alloc

theorem stoppedImport_none {α : Type} {report report' : ImportReport} {why : Unplaced}
    {x : Option α} (h : stoppedImport report why = .ok (report', x)) : x = none := by
  cases why with
  | refused refusal =>
      cases h
      rfl
  | notRun e => cases h

/-- **An import applied** was decided by each of its steps in turn. -/
theorem decideImport_applied {r : Readers} {w : World} {external : ExternalIds}
    {held : Table String (List LegacyEntry)} {alloc alloc' : Counters} {actor : String}
    {batch : ImportBatch} {file : List ViolationClass} {dry : Bool} {report : ImportReport}
    {c : ImportChange}
    (h : decideImport r w external held alloc actor batch file dry =
      .ok (report, some (c, alloc'))) :
    dry = false ∧ ∃ who port read round excluded so,
      ImportDecided r w external held alloc actor batch file c alloc' who port read round excluded
        so := by
  unfold decideImport at h
  cases hwho : checkImport w actor batch with
  | error why =>
      rw [hwho] at h
      cases stoppedImport_none h
  | ok who =>
      rw [hwho] at h
      dsimp only at h
      cases hread : readBatch r w external batch alloc with
      | error why =>
          rw [hread] at h
          cases stoppedImport_none h
      | ok told =>
          obtain ⟨port, read⟩ := told
          rw [hread] at h
          dsimp only at h
          cases hrounds : settleRounds r w external file port with
          | error why =>
              rw [hrounds] at h
              cases stoppedImport_none h
          | ok told =>
              obtain ⟨round, excluded⟩ := told
              rw [hrounds] at h
              unfold decideWrites at h
              dsimp only at h
              cases hdecisions : checkDecisions file port dry round.classes with
              | error why =>
                  rw [show checkDecisions (DecidedImport.of w external held batch file port who
                    round excluded).file (DecidedImport.of w external held batch file port who
                    round excluded).port dry (DecidedImport.of w external held batch file port who
                    round excluded).round.classes = _ from hdecisions] at h
                  cases stoppedImport_none h
              | ok done =>
                  rw [show checkDecisions (DecidedImport.of w external held batch file port who
                    round excluded).file (DecidedImport.of w external held batch file port who
                    round excluded).port dry (DecidedImport.of w external held batch file port who
                    round excluded).round.classes = _ from hdecisions] at h
                  dsimp only at h
                  split at h
                  case h_1 => cases stoppedImport_none h
                  case h_2 so hso =>
                    cases dry with
                    | true => cases h
                    | false =>
                        cases h
                        exact ⟨rfl, who, port, read, round, excluded, so, hwho, hread, hrounds,
                          hdecisions, hso, rfl, rfl⟩

/-- Rounds settled ran to their end, and broke nothing of an object the batch
does not place. -/
theorem settleRounds_ok {r : Readers} {w : World} {external : ExternalIds}
    {file : List ViolationClass} {port : Port} {round : Round} {excluded : List Nat}
    (h : settleRounds r w external file port = .ok (round, excluded)) :
    (∃ start, placeRounds r w external file port port.placed.length start =
      .ok (round, excluded)) ∧
      checkUnplaced r w port round.work (affectedByWrites round.work w) = .ok () := by
  unfold settleRounds at h
  split at h
  case h_1 => cases h
  case h_2 settled excluded' hrounds =>
    obtain ⟨done, hchecked, h⟩ := ok_of_bind h
    cases h
    exact ⟨⟨_, hrounds⟩, hchecked⟩

/-- What the writes of an import are written after. -/
theorem writeAll_follows {r : Readers} {d : DecidedImport} {w : World} {external : ExternalIds}
    {alloc read : Counters} {batch : ImportBatch} {so : Writing}
    {entries : List (String × LegacyEntry)} (hw : w.Opens alloc)
    (hport : d.port.Sound w external alloc read batch) (hnamed : d.round.work.Named)
    (h : d.writeAll r d.kept { alloc := read, change := { legacy := entries } } = .ok so) :
    so.change.change.Follows w alloc so.alloc := by
  have hmint : alloc.mintId = read.mintId := hport.mintId.symm
  -- each row is an object placed, its event past the counters
  have hall : so.alloc.mintId = read.mintId ∧ so.alloc.object = read.object ∧
      alloc.position ≤ so.alloc.position ∧
      ∀ o made e, (o, made, e) ∈ so.change.change.writes →
        (alloc.position < e.position ∧ e.position ≤ so.alloc.position) ∧ e.objectId = o.id ∧
          ∃ p ∈ d.port.placed, o.id = p.id := by
    refine writeAll_induct (P := fun so => so.alloc.mintId = read.mintId ∧
      so.alloc.object = read.object ∧ alloc.position ≤ so.alloc.position ∧
      ∀ o made e, (o, made, e) ∈ so.change.change.writes →
        (alloc.position < e.position ∧ e.position ≤ so.alloc.position) ∧ e.objectId = o.id ∧
          ∃ p ∈ d.port.placed, o.id = p.id) h
      ⟨rfl, rfl, hport.position.ge, by simp⟩ ?_
    rintro p hp so so' t between obj o legacy names ⟨hmint, hobject, hadvanced, hwrites⟩ hwrote
    have hid : o.id = p.id := (spanned_row hwrote.spanned).1.trans (hnamed _ _ hwrote.placed)
    rw [hwrote.wrote]
    refine ⟨hmint, hobject, by dsimp only; omega, ?_⟩
    intro o' made e hmem
    rcases List.mem_append.mp hmem with hmem | hmem
    · obtain ⟨⟨hpast, hle⟩, hname, hplaced⟩ := hwrites o' made e hmem
      exact ⟨⟨hpast, by dsimp only; omega⟩, hname, hplaced⟩
    · cases List.mem_singleton.mp hmem
      exact ⟨⟨Int.lt_add_one_of_le hadvanced, le_refl _⟩, rfl, p, (List.mem_filter.mp hp).1, hid⟩
  obtain ⟨hmintId, hobject, hadvanced, hwrites⟩ := hall
  refine ⟨hadvanced, ?_, ?_, ?_⟩
  · intro e he
    obtain ⟨⟨o, made, e'⟩, hmem, rfl⟩ := List.mem_map.mp he
    exact (hwrites o made e' hmem).1
  · exact fun o made e hmem => (hwrites o made e hmem).2.1
  · intro type n hn
    have hpast : alloc.object < n := by
      have := hport.object
      omega
    rw [hmintId, hport.mintId]
    refine ⟨hw.fresh type n hpast, ?_⟩
    intro o made e hmem heq
    obtain ⟨p, hp, hid⟩ := (hwrites o made e hmem).2.2
    have hfound := hport.found p hp
    cases hheld : p.held with
    | some found =>
        -- a refreshed object is held, and no id still to be minted is
        obtain ⟨hget, -, hpid⟩ := hfound.held found hheld
        obtain ⟨id, -, hfound⟩ := Option.bind_eq_some_iff.mp hget
        have hsame := hw.named id found hfound
        have hnone := hw.fresh type n hpast
        rw [← heq, hid, hpid, hsame, hfound] at hnone
        cases hnone
    | none =>
        obtain ⟨-, k, -, hle, hpid⟩ := hfound.drawn hheld
        have := alloc.distinct _ _ _ _ (hpid.symm.trans (hid.symm.trans heq))
        omega

/-! ### Any run of requests and imports -/

/-- A sound store's world told again in what no commit changes. -/
theorem Store.Sound.alike {s : Store} (hs : s.Sound) {w : World} (h : s.world.Alike w) :
    Store.Sound { s with world := w } := by
  have hevent : ∀ e ∈ w.stored, ∃ f ∈ s.world.stored, f.tag = e.tag := by
    intro e he
    have hmem : e.tag ∈ w.stored.map Event.tag := List.mem_map.mpr ⟨e, he, rfl⟩
    rw [h.events] at hmem
    exact List.mem_map.mp hmem
  have hposition : ∀ {e f : Event}, f.tag = e.tag → e.position = f.position :=
    fun htag => congrArg (fun tag : String × Int × Head => tag.2.2.position) htag.symm
  refine
    { opens := ⟨?_, ?_, h.lastWritten.trans hs.opens.unwritten⟩
      appended := h.appended.trans hs.appended
      ordered := ?_
      positive := ?_
      bounded := ?_
      started := hs.started
      held := ?_
      restored := ?_
      acknowledged := ?_ }
  · intro id o ho
    have htag := h.row id
    rw [show w.get id = some o from ho] at htag
    obtain ⟨p, hp, hpo⟩ := Option.map_eq_some_iff.mp htag.symm
    exact (congrArg Prod.fst hpo).symm.trans (hs.opens.named id p hp)
  · intro type n hn
    have hsome := h.isSome (s.counters.mintId type n)
    rw [hs.opens.fresh type n hn] at hsome
    exact Option.isNone_iff_eq_none.mp (by simpa using hsome)
  · show w.marks.Pairwise _
    rw [h.marks]
    exact hs.ordered
  · intro e he
    obtain ⟨f, hf, htag⟩ := hevent e he
    rw [hposition htag]
    exact hs.positive f hf
  · intro e he
    obtain ⟨f, hf, htag⟩ := hevent e he
    rw [hposition htag]
    exact hs.bounded f hf
  · intro e he
    obtain ⟨f, hf, htag⟩ := hevent e he
    have hobject : e.objectId = f.objectId :=
      congrArg (fun tag : String × Int × Head => tag.1) htag.symm
    show (w.get e.objectId).isSome
    rw [h.isSome, hobject]
    exact hs.held f hf
  · intro gap hgap
    obtain ⟨hcopied, hreached, houtside⟩ := hs.restored gap hgap
    refine ⟨hcopied, hreached, fun e he => ?_⟩
    obtain ⟨f, hf, htag⟩ := hevent e he
    rw [hposition htag]
    exact houtside f hf
  · intro id p hp
    obtain ⟨hzero, hreached, hskipped⟩ := hs.acknowledged id p hp
    refine ⟨hzero, ?_, hskipped⟩
    rw [show ({ s with world := w } : Store).world.marks = s.world.marks from h.marks]
    exact hreached

namespace PortStore

variable {r : Readers}

/-- An import's change written is a change written, told again. -/
theorem writeImport_alike {w w' : World} {c : ImportChange} (h : w.writeImport r c = some w') :
    ∃ mid, w.write r c.change = some mid ∧ mid.Alike w' ∧
      w' = { mid.upsertSpans c.spans with
        imported := mid.imported ++ c.change.writes.map fun (_, _, e) => e.position } := by
  obtain ⟨mid, hmid, h⟩ := Option.bind_eq_some_iff.mp h
  cases h
  refine ⟨mid, hmid, ?_, rfl⟩
  have hspans := World.upsertSpans_alike mid c.spans
  exact ⟨hspans.lib, hspans.appended, hspans.lastWritten, hspans.row, hspans.events⟩

/-- **One import** leaves a sound store sound. -/
theorem sound_import {s : PortStore} (hs : s.Sound) (r : Readers) (now : Int)
    (attempts : Table String (List Value)) (actor : String) (batch : ImportBatch)
    (file : List ViolationClass) (dry : Bool) :
    (s.importBatch r now attempts actor batch file dry).2.Sound := by
  have hopens : (s.opened now attempts).Opens s.drawing :=
    ⟨hs.opens.named, hs.opens.fresh, hs.opens.unwritten⟩
  unfold importBatch
  dsimp only
  split
  case h_1 => exact hs
  case h_2 => exact hs
  case h_3 report c alloc hdecided =>
    obtain ⟨-, who, port, read, round, excluded, so, hd⟩ := decideImport_applied hdecided
    unfold commitImport
    split
    case h_2 => exact hs
    case h_1 world numbers hwrite hnumbers =>
      have hport := readBatch_sound hd.placed
      obtain ⟨⟨start, hrounds⟩, -⟩ := settleRounds_ok hd.rounds
      have hnamed : round.work.Named := placeRounds_named hopens.named hrounds
      have hfollows := writeAll_follows (d := DecidedImport.of (s.opened now attempts) s.external
        s.legacy batch file port who round excluded) hopens hport hnamed hd.writes
      obtain ⟨mid, hmid, halike, -⟩ := writeImport_alike hwrite
      rw [hd.change] at hmid
      rw [hd.counters]
      have hcommitted := (Store.Sound.committed hs hfollows hmid numbers).1
      exact hcommitted.alike halike

end PortStore

/-! ### Requests beside imports -/

namespace KeyedStore

variable {r : Readers} {hex : Json → String}

theorem loaded_sound {s : KeyedStore} (hs : s.Sound) : s.loaded.Sound :=
  hs.alike (w := s.world.loadEarlier s.versions) ⟨rfl, rfl, rfl, fun _ => rfl, rfl⟩

/-- What a request leaves of the world: as it was, or with the change it was
decided to make. -/
theorem settled_world (s : KeyedStore) (now : Int) (attempts : Table String (List Value))
    (req : Request) (answers : Table String String) :
    let w := s.opened now attempts
    let after := (s.settled r w (s.outcome r hex w req answers)).2
    (after.world = s.world ∧ PortStore.applied r w (s.outcome r hex w req answers).1 = none) ∨
      ∃ c, w.write r c = some after.world ∧
        PortStore.applied r w (s.outcome r hex w req answers).1 = some c := by
  dsimp only
  generalize s.opened now attempts = w
  rcases hout : s.outcome r hex w req answers with ⟨out, alloc⟩
  cases out with
  | replayed answered =>
      cases answered with
      | request v => exact .inl ⟨rfl, rfl⟩
      | batch vs => exact .inl ⟨rfl, rfl⟩
  | keyReused key => exact .inl ⟨rfl, rfl⟩
  | decided keyed answer =>
      rcases answer with (⟨v, refusal⟩ | e) | ⟨v, c⟩
      · exact .inl ⟨rfl, rfl⟩
      · exact .inl ⟨rfl, rfl⟩
      · unfold settled PortStore.applied Store.settle
        dsimp only
        cases hwrite : w.write r c with
        | none => exact .inl ⟨rfl, rfl⟩
        | some world => exact .inr ⟨c, hwrite, rfl⟩

/-- **One request** leaves a sound store sound. -/
theorem settled_sound {s : KeyedStore} (hs : s.Sound) (now : Int)
    (attempts : Table String (List Value)) (req : Request) (answers : Table String String) :
    (s.settled r (s.opened now attempts)
      (s.outcome r hex (s.opened now attempts) req answers)).2.Sound := by
  have hrequest := (Store.Sound.request hs r now attempts req answers).1
  unfold Store.request at hrequest
  dsimp only at hrequest
  unfold outcome
  dsimp only
  split
  case h_1 k held hk =>
    split
    · cases held.answered with
      | request v => exact hs
      | batch vs => exact hs
    · exact hs
  case h_2 =>
    rcases hdecided : decide' r (s.opened now attempts) s.drawing req answers false with
      ⟨(⟨v, refusal⟩ | e) | ⟨v, c⟩, alloc⟩
    · rw [hdecided] at hrequest
      exact hrequest
    · exact hs
    · rw [hdecided] at hrequest
      unfold settled
      dsimp only
      split
      · exact hs
      · exact hrequest

end KeyedStore

/-! ### Erasures are remembered -/

/-- Where an event's object is erased by it: an erasure's own, neither a
redaction nor an invalidation. -/
def Event.origin (e : Event) : String × String × String := (e.objectId, e.source, e.transition)

namespace World

/-- Whether the log holds an object's own erasure. -/
def erasureOf (w : World) (id : String) : Bool :=
  w.stored.any fun e => e.objectId = id && e.source = "erased" && e.transition ≠ "redact" &&
    e.transition ≠ "invalidate"

/-- Each object's flag tells whether the log holds its erasure. -/
def Flagged (w : World) : Prop := ∀ id o, w.get id = some o → o.erased = w.erasureOf id

theorem erasureOf_iff {w : World} {id : String} : w.erasureOf id = true ↔
    ∃ origin ∈ w.stored.map Event.origin, origin.1 = id ∧ origin.2.1 = "erased" ∧
      origin.2.2 ≠ "redact" ∧ origin.2.2 ≠ "invalidate" := by
  simp [erasureOf, Event.origin, and_assoc]

/-- Events rewritten one by one, each of its own object and kind still. -/
theorem erasureOf_congr {w w' : World}
    (h : w'.stored.map Event.origin = w.stored.map Event.origin) (id : String) :
    w'.erasureOf id = w.erasureOf id := by
  rw [Bool.eq_iff_iff, erasureOf_iff, erasureOf_iff, h]

theorem erasureOf_rows {w w' : World} {writes : List (Object × Bool × Event)}
    (h : w.writeRows writes = some w') {id : String} (herased : w.erasureOf id = true) :
    w'.erasureOf id = true := by
  induction writes generalizing w with
  | nil =>
      cases h
      exact herased
  | cons write rest ih =>
      obtain ⟨o, made, e⟩ := write
      obtain ⟨w₁, hrow, hrest⟩ := Option.bind_eq_some_iff.mp h
      obtain ⟨-, -, -, hlogged, -⟩ := writeRow_spec hrow
      refine ih hrest ?_
      rw [erasureOf, hlogged, logged]
      obtain ⟨f, hf, herases⟩ := List.any_eq_true.mp herased
      exact List.any_eq_true.mpr ⟨f, (List.mem_orderedInsert _).mpr (.inr hf), herases⟩

/-- What of each event a world's change keeps. -/
theorem foldl_origins {α : Type} {f : World → α → World}
    (hf : ∀ w a, (f w a).stored.map Event.origin = w.stored.map Event.origin) (as : List α)
    (w : World) : (as.foldl f w).stored.map Event.origin = w.stored.map Event.origin := by
  induction as generalizing w with
  | nil => rfl
  | cons a rest ih => exact (ih (f w a)).trans (hf w a)

/-- Rows rewritten leave the log. -/
theorem foldl_stored {α : Type} {f : World → α → World} (hf : ∀ w a, (f w a).stored = w.stored)
    (as : List α) (w : World) : (as.foldl f w).stored = w.stored := by
  induction as generalizing w with
  | nil => rfl
  | cons a rest ih => exact (ih (f w a)).trans (hf w a)

theorem rewriteRow_stored (w : World) (id : String) (f : Object → Object) :
    (w.rewriteRow id f).stored = w.stored := rfl

theorem upsertSpans_stored (w : World) (spans : List (String × String × Span)) :
    (w.upsertSpans spans).stored = w.stored :=
  foldl_stored (fun w _ => rewriteRow_stored w _ _) _ w

theorem deleteMerged_stored (w : World) (merged : List (String × String × Int × Int × Int)) :
    (w.deleteMerged merged).stored = w.stored :=
  foldl_stored (fun w _ => rewriteRow_stored w _ _) _ w

theorem writeIndex_stored (w : World) (index : List (String × String × Int)) :
    (w.writeIndex index).stored = w.stored :=
  foldl_stored (fun w _ => rewriteRow_stored w _ _) _ w

theorem renameActor_origins (r : Readers) (w : World) (rn : Renaming) :
    (w.renameActor r rn).stored.map Event.origin = w.stored.map Event.origin := by
  show (w.stored.map (rn.event r w.lib w.lib.identityHeld w)).map Event.origin = _
  rw [List.map_map]
  rfl

theorem get_noteErasures (w : World) (id : String) :
    w.noteErasures.get id = (w.get id).map fun o => { o with erased := w.erasureOf o.id } :=
  Table.get?_map_entries
    (fun _ (o : Object) => ({ o with erased := w.erasureOf o.id } : Object)) w.objects id

theorem noteErasures_erasureOf (w : World) (id : String) :
    w.noteErasures.erasureOf id = w.erasureOf id := rfl

theorem get_rewriteRow (w : World) (k id : String) (f : Object → Object) :
    (w.rewriteRow k f).get id =
      (w.get id).map fun o => if id = k then { f o with id := o.id, type := o.type } else o :=
  Table.get?_map_entries
    (fun id (o : Object) => if id = k then ({ f o with id := o.id, type := o.type } : Object) else o)
    w.objects id

theorem lastOfRow_subset (spans : List (String × String × Span)) :
    lastOfRow spans ⊆ spans := by
  induction spans with
  | nil => simp [lastOfRow]
  | cons first rest ih =>
      obtain ⟨id, d, sp⟩ := first
      unfold lastOfRow
      split
      · exact List.subset_cons_of_subset _ ih
      · exact List.cons_subset_cons _ ih

/-- What holds of an object, and is kept by each span written over its row,
holds of it once they are written. -/
theorem upsertSpans_induct {P : Object → Prop} {id : String} {w : World}
    {spans : List (String × String × Span)} (hw : ∀ o, w.get id = some o → P o)
    (hstep : ∀ o d sp, (id, d, sp) ∈ spans → P o → P (o.upsertSpan d sp)) :
    ∀ o, (w.upsertSpans spans).get id = some o → P o := by
  have hfold : ∀ (given : List (String × String × Span)) (w : World),
      given ⊆ spans → (∀ o, w.get id = some o → P o) → ∀ o,
      (given.foldl (fun w (s : String × String × Span) =>
        w.rewriteRow s.1 fun o => o.upsertSpan s.2.1 s.2.2) w).get id = some o → P o := by
    intro given
    induction given with
    | nil => exact fun w _ hw => hw
    | cons first rest ih =>
        intro w hsub hw
        refine ih _ (fun s hs => hsub (List.mem_cons_of_mem _ hs)) ?_
        intro o ho
        rw [get_rewriteRow] at ho
        obtain ⟨p, hp, hpo⟩ := Option.map_eq_some_iff.mp ho
        split at hpo
        case isTrue heq =>
          subst hpo
          obtain ⟨k, d, sp⟩ := first
          cases heq
          exact hstep p d sp (hsub List.mem_cons_self) (hw p hp)
        case isFalse =>
          subst hpo
          exact hw p hp
  exact hfold (lastOfRow spans) w (lastOfRow_subset spans) hw

/-- **A change written** forgets no erasure, and flags each object by the log it
leaves. -/
theorem write_remembers {r : Readers} {w w' : World} {c : Change} (h : w.write r c = some w') :
    (∀ id, w.erasureOf id = true → w'.erasureOf id = true) ∧ (w'.Named → w'.Flagged) := by
  obtain ⟨rows, hrows, h⟩ := Option.bind_eq_some_iff.mp h
  cases h
  refine ⟨?_, ?_⟩
  · intro id herased
    have hrows := erasureOf_rows hrows herased
    rw [← hrows]
    refine erasureOf_congr ?_ id
    refine (foldl_origins (fun w (entry : String × String) =>
      renameActor_origins r w ⟨entry.1, entry.2⟩) c.renamedActors _).trans ?_
    have hredacted : ∀ w : World, (w.redact c).stored.map Event.origin =
        w.stored.map Event.origin := by
      intro w
      show (w.stored.map _).map Event.origin = _
      rw [List.map_map]
      rfl
    rw [hredacted]
    show (((rows.upsertSpans _).deleteMerged c.merged).writeIndex c.index).stored.map _ = _
    rw [writeIndex_stored, deleteMerged_stored, upsertSpans_stored]
  · intro hnamed id o ho
    have hid := hnamed id o ho
    rw [get_noteErasures] at ho
    obtain ⟨p, -, rfl⟩ := Option.map_eq_some_iff.mp ho
    rw [noteErasures_erasureOf, ← hid]

end World

/-! ### A change that only adds -/

/-- A change that takes nothing out of the store, as an import's is. -/
structure Change.Adds (c : Change) : Prop where
  redacted : c.redacted = []
  redactedInputs : c.redactedInputs = []
  redactedWrites : c.redactedWrites = []
  redactedSpans : c.redactedSpans = []
  merged : c.merged = []
  renamedActors : c.renamedActors = []
  externalRemoved : c.externalRemoved = []

theorem writeAll_adds {r : Readers} {d : DecidedImport} {placed : List ImportPlaced}
    {alloc : Counters} {entries : List (String × LegacyEntry)} {so : Writing}
    (h : d.writeAll r placed { alloc, change := { legacy := entries } } = .ok so) :
    so.change.change.Adds ∧ so.change.legacy = entries := by
  refine writeAll_induct (P := fun so => so.change.change.Adds ∧ so.change.legacy = entries) h
    ⟨⟨rfl, rfl, rfl, rfl, rfl, rfl, rfl⟩, rfl⟩ ?_
  rintro p - so so' t between obj o legacy names ⟨hadds, hentries⟩ hwrote
  rw [hwrote.wrote]
  exact ⟨⟨hadds.redacted, hadds.redactedInputs, hadds.redactedWrites, hadds.redactedSpans,
    hadds.merged, hadds.renamedActors, hadds.externalRemoved⟩, hentries⟩

namespace World

theorem redact_adds {c : Change} (hc : c.Adds) (w : World) : w.redact c = w := by
  have hevent : ∀ e : Event,
      ({ e with payload := c.redactedSingly e.position (c.redactedPayload e) } : Event) = e := by
    intro e
    rw [Change.redactedSingly, Change.redactedPayload, hc.redacted, hc.redactedInputs,
      hc.redactedWrites]
    rfl
  have hspan : ∀ id dimension sp, c.redactedSpan id dimension sp = sp := by
    intro id dimension sp
    simp [Change.redactedSpan, hc.redacted, hc.redactedSpans]
  have hattrs : ∀ o : Object, c.redactedAttrs w.lib o = o.attrs := by
    intro o
    unfold Change.redactedAttrs
    split
    · rfl
    · rw [hc.redacted]
      rfl
  have hobject : ∀ o : Object, ({ o with
      attrs := c.redactedAttrs w.lib o
      spans := o.spans.map fun s => (s.1, s.2.map (c.redactedSpan o.id s.1)) } : Object) = o := by
    intro o
    have hspans : (o.spans.map fun s => (s.1, s.2.map (c.redactedSpan o.id s.1))) = o.spans := by
      refine (List.map_congr_left fun s _ => ?_).trans (List.map_id _)
      rw [List.map_congr_left fun sp _ => hspan o.id s.1 sp, List.map_id']
      rfl
    rw [hattrs, hspans]
  show ({ w with
    stored := w.stored.map fun e =>
      ({ e with payload := c.redactedSingly e.position (c.redactedPayload e) } : Event)
    objects := w.objects.map fun k => (k.1, ({ k.2 with
      attrs := c.redactedAttrs w.lib k.2
      spans := k.2.spans.map fun s => (s.1, s.2.map (c.redactedSpan k.2.id s.1)) } : Object)) } :
    World) = w
  rw [List.map_congr_left fun e _ => hevent e, List.map_id',
    List.map_congr_left fun k _ => congrArg (Prod.mk k.1) (hobject k.2)]
  simp

/-- The log of a change that only adds: what it held, and the change's events. -/
theorem write_adds_stored {r : Readers} {w w' : World} {c : Change} (hc : c.Adds)
    (h : w.write r c = some w') :
    ∀ e ∈ w'.stored, e ∈ w.stored ∨ ∃ o made, (o, made, e) ∈ c.writes := by
  obtain ⟨rows, hrows, h⟩ := Option.bind_eq_some_iff.mp h
  rw [hc.renamedActors, hc.merged] at h
  cases h
  rw [redact_adds hc]
  have hstored : ∀ writes (w rows : World), w.writeRows writes = some rows →
      ∀ e ∈ rows.stored, e ∈ w.stored ∨ ∃ o made, (o, made, e) ∈ writes := by
    intro writes
    induction writes with
    | nil =>
        intro w rows hrows e he
        cases hrows
        exact .inl he
    | cons write rest ih =>
        intro w rows hrows e he
        obtain ⟨o, made, f⟩ := write
        obtain ⟨w₁, hrow, hrest⟩ := Option.bind_eq_some_iff.mp hrows
        obtain ⟨-, -, -, hlogged, -⟩ := writeRow_spec hrow
        rcases ih w₁ rows hrest e he with he | ⟨o', made', hmem⟩
        · rw [hlogged, logged] at he
          rcases (List.mem_orderedInsert _).mp he with rfl | he
          · exact .inr ⟨o, made, List.mem_cons_self⟩
          · exact .inl he
        · exact .inr ⟨o', made', List.mem_cons_of_mem _ hmem⟩
  intro e he
  change e ∈ (((rows.upsertSpans _).deleteMerged []).writeIndex c.index).stored at he
  rw [writeIndex_stored, deleteMerged_stored, upsertSpans_stored] at he
  exact hstored c.writes w rows hrows e he

/-- What holds of a held object, and is kept by each row of it the change writes,
each span it touches and what stands beside a row, holds of it once the change
is written. -/
theorem write_adds_row {r : Readers} {w w' : World} {c : Change} (hc : c.Adds)
    (h : w.write r c = some w') {P : Object → Prop} {id : String} (hheld : (w.get id).isSome)
    (hw : ∀ o, w.get id = some o → P o)
    (hrow : ∀ o made e t held, (o, made, e) ∈ c.writes → o.id = id → P held →
      P (held.updated o t))
    (hspan : ∀ o made e d sp held, (o, made, e) ∈ c.writes → (id, d, sp) ∈ touchedSpans o e →
      P held → P (held.upsertSpan d sp))
    (hbeside : ∀ (o : Object) writes admissions erased, P o →
      P { o with writes, admissions, erased }) :
    ∀ o, w'.get id = some o → P o := by
  obtain ⟨rows, hrows, h⟩ := Option.bind_eq_some_iff.mp h
  rw [hc.renamedActors, hc.merged] at h
  cases h
  rw [redact_adds hc]
  have hwritten : ∀ writes (w rows : World), (∀ x ∈ writes, x ∈ c.writes) →
      w.writeRows writes = some rows → (w.get id).isSome → (∀ o, w.get id = some o → P o) →
      ∀ o, rows.get id = some o → P o := by
    intro writes
    induction writes with
    | nil =>
        intro w rows _ hrows _ hw
        cases hrows
        exact hw
    | cons write rest ih =>
        intro w rows hsub hrows hheld hw
        obtain ⟨o, made, e⟩ := write
        obtain ⟨w₁, hone, hrest⟩ := Option.bind_eq_some_iff.mp hrows
        obtain ⟨-, -, -, -, -, -, hkept, -⟩ := writeRow_spec hone
        have htag := congrArg Option.isSome (hkept id hheld)
        rw [Option.isSome_map, Option.isSome_map] at htag
        refine ih w₁ rows (fun x hx => hsub x (List.mem_cons_of_mem _ hx)) hrest
          (htag.trans hheld) ?_
        intro x hx
        unfold writeRow at hone
        split at hone
        · cases hone
        · split at hone
          · cases hone
          · split at hone
            case h_1 =>
              rename_i hget
              cases hone
              change Table.get? (Table.put w.objects o.id _) id = some x at hx
              rw [Table.get?_put] at hx
              split at hx
              case isTrue heq =>
                rw [heq] at hget
                rw [hget] at hheld
                cases hheld
              case isFalse => exact hw x hx
            case h_2 =>
              rename_i held hget
              split at hone
              · cases hone
                change Table.get? (Table.put w.objects o.id _) id = some x at hx
                rw [Table.get?_put] at hx
                split at hx
                case isTrue heq =>
                  cases hx
                  refine hrow o false e _ held (hsub _ List.mem_cons_self) heq (hw held ?_)
                  rw [← heq]
                  exact hget
                case isFalse => exact hw x hx
              · cases hone
                exact hw x hx
            · cases hone
            · cases hone
  have hrowed := hwritten c.writes w rows (fun _ h => h) hrows hheld hw
  have hspanned := @upsertSpans_induct P id _ (c.writes.flatMap fun x => touchedSpans x.1 x.2.2)
    hrowed (fun held d sp hmem hp => by
      obtain ⟨⟨o, made, e⟩, hwrite, htouched⟩ := List.mem_flatMap.mp hmem
      exact hspan o made e d sp held hwrite htouched hp)
  intro o ho
  rw [get_noteErasures] at ho
  obtain ⟨x, hx, rfl⟩ := Option.map_eq_some_iff.mp ho
  have hkeep : ∀ (x : Object) writes, P x → P { x with writes } :=
    fun x writes hx => hbeside x writes x.admissions x.erased hx
  have hindexed : ∀ (index : List (String × String × Int)) (w : World),
      (∀ o, w.get id = some o → P o) → ∀ o, (w.writeIndex index).get id = some o → P o := by
    intro index
    induction index with
    | nil => exact fun w hw => hw
    | cons first rest ih =>
        intro w hw
        refine ih _ ?_
        intro y hy
        dsimp only at hy
        rw [get_rewriteRow] at hy
        obtain ⟨z, hz, rfl⟩ := Option.map_eq_some_iff.mp hy
        split
        · exact hkeep z _ (hw z hz)
        · exact hw z hz
  change Table.get? (List.map (fun k : String × Object => (k.1,
    { k.2 with admissions := k.2.admitted c.admitted c.discharged })) _) id = some x at hx
  rw [Table.get?_map_entries
    (fun _ (o : Object) => ({ o with admissions := o.admitted c.admitted c.discharged } : Object))]
    at hx
  obtain ⟨y, hy, rfl⟩ := Option.map_eq_some_iff.mp hx
  refine hbeside y y.writes _ _ ?_
  exact hindexed c.index _ (fun o ho => hspanned o ho) y hy

end World

/-! ### Runs -/

/-- A step of a store: a request, or an import. -/
inductive PortStep where
  | request (now : Int) (attempts : Table String (List Value)) (req : Request)
    (answers : Table String String)
  | imported (now : Int) (attempts : Table String (List Value)) (actor : String)
    (batch : ImportBatch) (file : List ViolationClass) (dry : Bool)

namespace PortStore

variable (r : Readers) (hex : Json → String)

/-- What a step leaves. -/
def step (s : PortStore) : PortStep → PortStore
  | .request now attempts req answers => (s.request r hex now attempts req answers).2
  | .imported now attempts actor batch file dry =>
      (s.importBatch r now attempts actor batch file dry).2

/-- What a run of steps leaves. -/
def run (s : PortStore) (steps : List PortStep) : PortStore := steps.foldl (step r hex) s

/-- A store between steps: sound, its objects flagged by its log. -/
structure Whole (s : PortStore) : Prop where
  sound : s.Sound
  flagged : s.world.Flagged

/-- An object of the store that is erased. -/
def Erased (s : PortStore) (id : String) : Prop :=
  ∃ h, s.world.get id = some h ∧ h.erased = true

variable {r hex}

/-- An object is erased still where it is held and its erasure remembered. -/
theorem Erased.later {s s' : PortStore} {id : String} (hs : s.Whole) (hs' : s'.Whole)
    (hkept : (s.world.get id).isSome → (s'.world.get id).isSome)
    (hlog : s.world.erasureOf id = true → s'.world.erasureOf id = true) (h : s.Erased id) :
    s'.Erased id := by
  obtain ⟨o, ho, herased⟩ := h
  obtain ⟨o', ho'⟩ := Option.isSome_iff_exists.mp (hkept (by rw [ho]; rfl))
  refine ⟨o', ho', ?_⟩
  rw [hs'.flagged id o' ho']
  refine hlog ?_
  rw [← hs.flagged id o ho]
  exact herased

/-- What an import leaves of the world: as it was, or with the change it was
decided to make. -/
theorem importBatch_world (s : PortStore) (now : Int) (attempts : Table String (List Value))
    (actor : String) (batch : ImportBatch) (file : List ViolationClass) (dry : Bool) :
    let after := (s.importBatch r now attempts actor batch file dry).2
    after = s ∨ ∃ report c alloc,
      decideImport r (s.opened now attempts) s.external s.legacy s.drawing actor batch file dry =
        .ok (report, some (c, alloc)) ∧
      (s.opened now attempts).writeImport r c = some after.world ∧
      after.external = s.external.written c.change ∧
      after.legacy = legacyWritten s.legacy c.legacy c.change := by
  dsimp only
  unfold importBatch
  dsimp only
  split
  case h_1 => exact .inl rfl
  case h_2 => exact .inl rfl
  case h_3 report c alloc hdecided =>
    unfold commitImport
    split
    case h_2 => exact .inl rfl
    case h_1 world numbers hwrite hnumbers =>
      exact .inr ⟨report, c, alloc, hdecided, hwrite, rfl, rfl⟩

/-- What a request leaves of the world: as it was, or with a change written. -/
theorem request_world (s : PortStore) (now : Int) (attempts : Table String (List Value))
    (req : Request) (answers : Table String String) :
    let after := (s.request r hex now attempts req answers).2
    after.world = (s.loaded).world ∨
      ∃ c, (s.loaded.opened now attempts).write r c = some after.world := by
  dsimp only
  unfold request
  dsimp only
  rcases @KeyedStore.settled_world r hex s.loaded now attempts req answers with
    ⟨hsame, hnone⟩ | ⟨c, hwrite, hsome⟩
  · rw [hnone]
    exact .inl hsame
  · rw [hsome]
    exact .inr ⟨c, hwrite⟩

/-- A request leaves a sound store sound. -/
theorem sound_request {s : PortStore} (hs : s.Sound) (r : Readers) (hex : Json → String)
    (now : Int) (attempts : Table String (List Value)) (req : Request)
    (answers : Table String String) :
    (s.request r hex now attempts req answers).2.Sound := by
  have hsettled := @KeyedStore.settled_sound r hex _
    (@KeyedStore.loaded_sound s.toKeyedStore hs) now attempts req answers
  unfold request
  dsimp only
  split <;> exact hsettled

/-- A written change leaves the library as it was. -/
theorem write_lib {r : Readers} {w w' : World} {c : Change} (h : w.write r c = some w') :
    w'.lib = w.lib := by
  obtain ⟨rows, hrows, halike⟩ := World.write_alike h
  rw [halike.lib]
  have hgo : ∀ (writes : List (Object × Bool × Event)) (w rows : World),
      w.writeRows writes = some rows → rows.lib = w.lib := by
    intro writes
    induction writes with
    | nil =>
        intro w rows hrows
        cases hrows
        rfl
    | cons write rest ih =>
        intro w rows hrows
        obtain ⟨o, made, e⟩ := write
        obtain ⟨w₁, hrow, hrest⟩ := Option.bind_eq_some_iff.mp hrows
        exact (ih w₁ rows hrest).trans (World.writeRow_spec hrow).1
  exact hgo c.writes w rows hrows

/-- A written change leaves every object of a sound store held. -/
theorem write_held {r : Readers} {w w' : World} {c : Change} (h : w.write r c = some w')
    {id : String} (hid : (w.get id).isSome) : (w'.get id).isSome := by
  obtain ⟨rows, hrows, halike⟩ := World.write_alike h
  rw [halike.isSome]
  have hgo : ∀ (writes : List (Object × Bool × Event)) (w rows : World),
      w.writeRows writes = some rows → (w.get id).isSome → (rows.get id).isSome := by
    intro writes
    induction writes with
    | nil =>
        intro w rows hrows hid
        cases hrows
        exact hid
    | cons write rest ih =>
        intro w rows hrows hid
        obtain ⟨o, made, e⟩ := write
        obtain ⟨w₁, hrow, hrest⟩ := Option.bind_eq_some_iff.mp hrows
        obtain ⟨-, -, -, -, -, -, hkept, -⟩ := World.writeRow_spec hrow
        have htag := congrArg Option.isSome (hkept id hid)
        rw [Option.isSome_map, Option.isSome_map] at htag
        exact ih w₁ rows hrest (htag.trans hid)
  exact hgo c.writes w rows hrows hid

/-- **One step** leaves a whole store whole, and what it erased erased. -/
theorem Whole.step {s : PortStore} (hs : s.Whole) (r : Readers) (hex : Json → String)
    (st : PortStep) :
    (s.step r hex st).Whole ∧ ∀ id, s.Erased id → (s.step r hex st).Erased id := by
  cases st with
  | request now attempts req answers =>
      have hsound : (s.step r hex (.request now attempts req answers)).Sound :=
        sound_request hs.sound r hex now attempts req answers
      rcases @request_world r hex s now attempts req answers with hsame | ⟨c, hwrite⟩
      · have hwhole : (s.step r hex (.request now attempts req answers)).Whole := by
          refine ⟨hsound, ?_⟩
          show (s.request r hex now attempts req answers).2.world.Flagged
          rw [hsame]
          exact hs.flagged
        refine ⟨hwhole, fun id herased => herased.later hs hwhole ?_ ?_⟩
        · show _ → ((s.request r hex now attempts req answers).2.world.get id).isSome
          rw [hsame]
          exact fun h => h
        · show _ → (s.request r hex now attempts req answers).2.world.erasureOf id = true
          rw [hsame]
          exact fun h => h
      · obtain ⟨hlog, hflagged⟩ := World.write_remembers hwrite
        have hwhole : (s.step r hex (.request now attempts req answers)).Whole :=
          ⟨hsound, hflagged hsound.opens.named⟩
        exact ⟨hwhole, fun id herased => herased.later hs hwhole (write_held hwrite) (hlog id)⟩
  | imported now attempts actor batch file dry =>
      have hsound : (s.step r hex (.imported now attempts actor batch file dry)).Sound :=
        sound_import hs.sound r now attempts actor batch file dry
      rcases s.importBatch_world (r := r) now attempts actor batch file dry with
        hsame | ⟨report, c, alloc, -, hwrite, -, -⟩
      · have hstep : s.step r hex (.imported now attempts actor batch file dry) = s := hsame
        rw [hstep]
        exact ⟨hs, fun _ h => h⟩
      · obtain ⟨mid, hmid, halike, hworld⟩ := writeImport_alike hwrite
        obtain ⟨hlog, hflagged⟩ := World.write_remembers hmid
        have hstored : (s.step r hex (.imported now attempts actor batch file dry)).world.stored =
            mid.stored := by
          show (s.importBatch r now attempts actor batch file dry).2.world.stored = _
          rw [hworld]
          exact World.upsertSpans_stored mid c.spans
        have hflags : (s.step r hex (.imported now attempts actor batch file dry)).world.Flagged := by
          intro id o ho
          have hmidnamed : mid.Named := by
            intro id p hp
            have htag := halike.row id
            rw [hp] at htag
            obtain ⟨q, hq, hqp⟩ := Option.map_eq_some_iff.mp htag
            exact (congrArg Prod.fst hqp).symm.trans (hsound.opens.named id q hq)
          change World.get (s.importBatch r now attempts actor batch file dry).2.world id = some o
            at ho
          rw [hworld] at ho
          have hflag := World.upsertSpans_induct (P := fun o => o.erased = mid.erasureOf id)
            (fun p hp => hflagged hmidnamed id p hp) (fun _ _ _ _ h => h) o ho
          rw [hflag, World.erasureOf, World.erasureOf, hstored]
        have hwhole : (s.step r hex (.imported now attempts actor batch file dry)).Whole :=
          ⟨hsound, hflags⟩
        refine ⟨hwhole, fun id herased => herased.later hs hwhole ?_ ?_⟩
        · intro hid
          have hheld := write_held hmid hid
          rw [← halike.isSome id] at hheld
          exact hheld
        · intro hid
          rw [World.erasureOf, hstored]
          exact hlog id hid

/-- A step leaves the library as it was. -/
theorem step_lib (s : PortStore) (r : Readers) (hex : Json → String) (st : PortStep) :
    (s.step r hex st).world.lib = s.world.lib := by
  cases st with
  | request now attempts req answers =>
      rcases @request_world r hex s now attempts req answers with hsame | ⟨c, hwrite⟩
      · have hlib := congrArg World.lib hsame
        exact hlib
      · have hlib := write_lib hwrite
        exact hlib
  | imported now attempts actor batch file dry =>
      rcases s.importBatch_world (r := r) now attempts actor batch file dry with
        hsame | ⟨report, c, alloc, -, hwrite, -, -⟩
      · exact congrArg (fun s : PortStore => s.world.lib) hsame
      · obtain ⟨mid, hmid, halike, -⟩ := writeImport_alike hwrite
        have hlib := write_lib hmid
        exact halike.lib.trans hlib

theorem run_lib (s : PortStore) (r : Readers) (hex : Json → String) (steps : List PortStep) :
    (s.run r hex steps).world.lib = s.world.lib := by
  induction steps generalizing s with
  | nil => rfl
  | cons st rest ih => exact (ih (s.step r hex st)).trans (s.step_lib r hex st)

/-- **Any run** leaves a whole store whole, and what it erased erased. -/
theorem Whole.run {s : PortStore} (hs : s.Whole) (r : Readers) (hex : Json → String)
    (steps : List PortStep) :
    (s.run r hex steps).Whole ∧ ∀ id, s.Erased id → (s.run r hex steps).Erased id := by
  induction steps generalizing s with
  | nil => exact ⟨hs, fun _ h => h⟩
  | cons st rest ih =>
      obtain ⟨hstep, hkept⟩ := hs.step r hex st
      obtain ⟨hrest, hlater⟩ := ih hstep
      exact ⟨hrest, fun id h => hlater id (hkept id h)⟩

end PortStore

end ObjectFlow
