import ObjectFlow.Replay

/-!
# A request as a journal of operations

The working copy of the store is read as a journal: each object's version,
its state and the attributes its next event's writes are measured from, and the
events in the order recorded.  Whatever a request runs between two states of
its context advances the journal, and leaves every object with no transition
under way holding what its last event left it with.
-/

namespace ObjectFlow

open Base

/-! ### Rows as their events tell them -/

namespace World

variable (w : World)

/-- The attributes an object holds, none where it is not held. -/
def attrsHeld (id : String) : Table String Value := ((w.get id).map (·.attrs)).getD []

/-- The attributes an object's next event is measured from. -/
def baseline (id : String) : Table String Value :=
  (Table.get? w.lastWritten id).getD (w.attrsHeld id)

/-- An object as its events tell it. -/
def row (id : String) : Journal.Row String (Table String Value) where
  version := ((w.get id).map (·.version)).getD 0
  state := (w.get id).map (·.state)
  content := w.baseline id

@[simp] theorem get_keepWritten (k id : String) : (w.keepWritten k).get id = w.get id := by
  unfold keepWritten
  split <;> rfl

theorem lastWritten_keepWritten (k id : String) :
    Table.get? (w.keepWritten k).lastWritten id =
      if k = id then some (w.baseline id) else Table.get? w.lastWritten id := by
  unfold keepWritten
  split
  case h_1 held hheld =>
    split
    case isTrue hk =>
      subst hk
      rw [baseline, hheld]
      rfl
    case isFalse => rfl
  case h_2 hnone =>
    rw [Table.get?_set]
    split
    case isTrue hk =>
      subst hk
      rw [baseline, hnone]
      rfl
    case isFalse => rfl

@[simp] theorem get_insert (o : Object) (id : String) :
    (w.insert o).get id = if o.id = id then some o else w.get id :=
  Table.get?_put _ _ _ _

theorem lastWritten_insert (o : Object) (id : String) :
    Table.get? (w.insert o).lastWritten id =
      if o.id = id then some (w.baseline id) else Table.get? w.lastWritten id :=
  w.lastWritten_keepWritten o.id id

/-- An insertion keeps what the next event is measured from. -/
@[simp] theorem baseline_insert (o : Object) (id : String) :
    (w.insert o).baseline id = w.baseline id := by
  rw [baseline, lastWritten_insert]
  split
  case isTrue => rfl
  case isFalse hne => simp [attrsHeld, baseline, hne]

@[simp] theorem get_change (k : String) (f : Object → Object) (id : String) :
    (w.change k f).get id = if k = id then (w.get id).map f else w.get id := by
  unfold change
  cases hk : w.get k with
  | none =>
      by_cases h : k = id
      · subst h
        simp [hk]
      · simp [h]
  | some o =>
      show Table.get? (Table.put w.objects k (f o)) id = _
      rw [Table.get?_put]
      split
      case isTrue h =>
        subst h
        rw [hk]
        rfl
      case isFalse => rfl

theorem lastWritten_change (k : String) (f : Object → Object) (id : String) :
    Table.get? (w.change k f).lastWritten id =
      if k = id ∧ (w.get id).isSome then some (w.baseline id)
      else Table.get? w.lastWritten id := by
  unfold change
  cases hk : w.get k with
  | none =>
      rw [if_neg]
      rintro ⟨rfl, hsome⟩
      simp [hk] at hsome
  | some o =>
      show Table.get? (w.keepWritten k).lastWritten id = _
      rw [lastWritten_keepWritten]
      by_cases h : k = id
      · subst h
        simp [hk]
      · simp [h]

/-- A change keeps what the next event is measured from. -/
@[simp] theorem baseline_change (k : String) (f : Object → Object) (id : String) :
    (w.change k f).baseline id = w.baseline id := by
  rw [baseline, lastWritten_change]
  split
  case isTrue => rfl
  case isFalse hne =>
    rw [attrsHeld, get_change]
    split
    case isTrue hk =>
      have hnone : w.get id = none := by
        rw [← Option.not_isSome_iff_eq_none]
        exact fun hsome => hne ⟨hk, hsome⟩
      rw [hnone, baseline, attrsHeld, hnone]
      rfl
    case isFalse => rfl

/-- A world with the same objects, measured from the same attributes, tells the
same of each. -/
theorem row_congr {w w' : World} {id : String} (h : w'.get id = w.get id)
    (h' : w'.baseline id = w.baseline id) : w'.row id = w.row id := by
  rw [row, row, h, h']

theorem row_of_get {w : World} {id : String} {o : Object} (h : w.get id = some o) :
    (w.row id).version = o.version ∧ (w.row id).state = some o.state := by
  simp [row, h]

end World

/-- What an event tells of its object. -/
def Event.entry (e : Event) : Journal.Entry String String (Table String Value) where
  position := e.position
  subject := e.objectId
  seq := e.objectSeq
  source := e.fromState
  target := e.toState
  patch := e.payload.wrote

namespace Ctx

/-- A request's context as a journal. -/
def journal (ctx : Ctx) : Journal String String (Table String Value) (Table String Value) where
  position := ctx.alloc.position
  underway := ctx.underway
  rows := ctx.work.row
  entries := ctx.events.map Event.entry
  reentered := ctx.reentered

/-- What holds of the working copy from a request's start: each object stands
under its id, no id still to be minted is held, and an object with no
transition under way holds what its next event is measured from. -/
structure Sound (ctx : Ctx) : Prop where
  named : ∀ id o, ctx.work.get id = some o → o.id = id
  unheld : ∀ id, ctx.work.get id = none → Table.get? ctx.work.lastWritten id = none
  settled : ∀ id, id ∉ ctx.underway → SameAttrs (ctx.work.baseline id) (ctx.work.attrsHeld id)
  fresh : ∀ type n, ctx.alloc.object < n → ctx.work.get (ctx.alloc.mintId type n) = none

/-- A step that went soundly: its events advanced the journal, and no object
was let go. -/
structure Went (s t : Ctx) : Prop where
  sound : t.Sound
  held : ∀ id, (s.work.get id).isSome → (t.work.get id).isSome
  advanced : ∃ es, Journal.Advanced attrsFolding s.journal es t.journal

/-- Where the objects named have a transition under way, the step goes
soundly. -/
def Goes (mine : List String) (s t : Ctx) : Prop :=
  s.Sound → (∀ id ∈ mine, id ∈ s.underway) → Went s t

theorem Went.refl {s : Ctx} (h : s.Sound) : Went s s :=
  ⟨h, fun _ => id, [], Journal.Advanced.refl _⟩

theorem Went.trans {s t u : Ctx} (h : Went s t) (h' : Went t u) : Went s u := by
  obtain ⟨es, hes⟩ := h.advanced
  obtain ⟨fs, hfs⟩ := h'.advanced
  exact ⟨h'.sound, fun id hid => h'.held id (h.held id hid), es ++ fs, hes.trans hfs⟩

theorem Went.underway {s t : Ctx} (h : Went s t) : t.underway = s.underway := by
  obtain ⟨es, hes⟩ := h.advanced
  exact hes.underway

theorem Goes.refl (mine : List String) (s : Ctx) : Goes mine s s := fun h _ => Went.refl h

theorem Goes.trans (mine : List String) (s t u : Ctx) (h : Goes mine s t) (h' : Goes mine t u) :
    Goes mine s u := by
  intro hs hmine
  have hst := h hs hmine
  refine hst.trans (h' hst.sound ?_)
  rw [hst.underway]
  exact hmine

theorem Goes.mono {mine : List String} {s t : Ctx} (h : Goes [] s t) : Goes mine s t :=
  fun hs _ => h hs (by simp)

/-! ### Steps that record no event -/

/-- What is written of objects under way alone, and of what no event tells. -/
structure Reworked (s t : Ctx) : Prop where
  underway : t.underway = s.underway
  events : t.events = s.events
  reentered : t.reentered = s.reentered
  position : s.alloc.position ≤ t.alloc.position
  object : s.alloc.object ≤ t.alloc.object
  mintId : t.alloc.mintId = s.alloc.mintId
  held : ∀ id, (t.work.get id).isSome = (s.work.get id).isSome
  named : ∀ id o, t.work.get id = some o → o.id = id
  unheld : ∀ id, t.work.get id = none → Table.get? t.work.lastWritten id = none
  version : ∀ id, (t.work.row id).version = (s.work.row id).version
  baseline : ∀ id, t.work.baseline id = s.work.baseline id
  state : ∀ id, id ∉ s.underway → (t.work.row id).state = (s.work.row id).state
  attrs : ∀ id, id ∉ s.underway → t.work.attrsHeld id = s.work.attrsHeld id

theorem Reworked.went {s t : Ctx} (hs : s.Sound) (h : Reworked s t) : Went s t where
  sound :=
    { named := h.named
      unheld := h.unheld
      settled := by
        intro id hid
        rw [h.underway] at hid
        rw [h.baseline, h.attrs id hid]
        exact hs.settled id hid
      fresh := by
        intro type n hn
        have hnone := hs.fresh type n (h.object.trans_lt hn)
        rw [← Option.not_isSome_iff_eq_none, h.mintId, h.held, hnone]
        simp }
  held := fun id hid => h.held id ▸ hid
  advanced := ⟨[], Journal.Advanced.of_unrecorded
    (congrArg (List.map Event.entry) h.events) h.underway h.position h.reentered h.version
    h.state fun id => SameAttrs.of_eq (h.baseline id).symm⟩

/-- What leaves the objects, their events and the operations under way as they
are. -/
structure Quiet (s t : Ctx) : Prop where
  objects : t.work.objects = s.work.objects
  lastWritten : t.work.lastWritten = s.work.lastWritten
  underway : t.underway = s.underway
  events : t.events = s.events
  reentered : t.reentered = s.reentered
  position : s.alloc.position ≤ t.alloc.position
  object : s.alloc.object ≤ t.alloc.object
  mintId : t.alloc.mintId = s.alloc.mintId

theorem Quiet.get {s t : Ctx} (h : Quiet s t) (id : String) : t.work.get id = s.work.get id := by
  rw [World.get, World.get, h.objects]

theorem Quiet.baseline {s t : Ctx} (h : Quiet s t) (id : String) :
    t.work.baseline id = s.work.baseline id := by
  rw [World.baseline, World.baseline, h.lastWritten, World.attrsHeld, World.attrsHeld, h.get]

theorem Quiet.refl (s : Ctx) : Quiet s s :=
  ⟨rfl, rfl, rfl, rfl, rfl, le_refl _, le_refl _, rfl⟩

theorem Quiet.trans (s t u : Ctx) (h : Quiet s t) (h' : Quiet t u) : Quiet s u where
  objects := h'.objects.trans h.objects
  lastWritten := h'.lastWritten.trans h.lastWritten
  underway := h'.underway.trans h.underway
  events := h'.events.trans h.events
  reentered := h'.reentered.trans h.reentered
  position := h.position.trans h'.position
  object := h.object.trans h'.object
  mintId := h'.mintId.trans h.mintId

theorem Quiet.goes {m : List String} {s t : Ctx} (h : Quiet s t) : Goes m s t := by
  intro hs _
  refine Reworked.went hs
    { underway := h.underway
      events := h.events
      reentered := h.reentered
      position := h.position
      object := h.object
      mintId := h.mintId
      held := fun id => by rw [h.get]
      named := fun id o ho => hs.named id o (h.get id ▸ ho)
      unheld := ?_
      version := fun id => by rw [World.row_congr (h.get id) (h.baseline id)]
      baseline := h.baseline
      state := fun id _ => by rw [World.row_congr (h.get id) (h.baseline id)]
      attrs := fun id _ => by rw [World.attrsHeld, World.attrsHeld, h.get] }
  intro id hnone
  rw [h.lastWritten]
  exact hs.unheld id (h.get id ▸ hnone)

/-- An object changed in place without its id, its version or, unless it is
under way, its state and its attributes. -/
theorem went_change {s t : Ctx} (hs : s.Sound) {k : String} {f : Object → Object}
    (hwork : t.work = s.work.change k f) (hunderway : t.underway = s.underway)
    (hevents : t.events = s.events) (hreentered : t.reentered = s.reentered)
    (halloc : t.alloc = s.alloc) (hid : ∀ o, (f o).id = o.id)
    (hversion : ∀ o, (f o).version = o.version)
    (hkept : k ∉ s.underway → ∀ o, (f o).state = o.state ∧ (f o).attrs = o.attrs) :
    Went s t := by
  refine Reworked.went hs
    { underway := hunderway
      events := hevents
      reentered := hreentered
      position := by rw [halloc]
      object := by rw [halloc]
      mintId := by rw [halloc]
      held := ?_
      named := ?_
      unheld := ?_
      version := ?_
      baseline := fun id => by rw [hwork, World.baseline_change]
      state := ?_
      attrs := ?_ }
  · intro id
    rw [hwork, World.get_change]
    split <;> simp
  · intro id o ho
    rw [hwork, World.get_change] at ho
    split at ho
    · obtain ⟨was, hwas, rfl⟩ := Option.map_eq_some_iff.mp ho
      rw [hid]
      exact hs.named id was hwas
    · exact hs.named id o ho
  · intro id hnone
    have hwas : s.work.get id = none := by
      rw [hwork, World.get_change] at hnone
      split at hnone <;> simpa using hnone
    rw [hwork, World.lastWritten_change, if_neg (by simp [hwas])]
    exact hs.unheld id hwas
  · intro id
    rw [hwork, World.row, World.row, World.get_change]
    split
    · cases s.work.get id <;> simp [hversion]
    · rfl
  · intro id hunder
    rw [hwork, World.row, World.row, World.get_change]
    split
    case isTrue hk =>
      have := hkept (hk ▸ hunder)
      cases s.work.get id <;> simp [this]
    case isFalse => rfl
  · intro id hunder
    rw [hwork, World.attrsHeld, World.attrsHeld, World.get_change]
    split
    case isTrue hk =>
      have := hkept (hk ▸ hunder)
      cases s.work.get id <;> simp [this]
    case isFalse => rfl

/-! ### An event recorded apart -/

/-- A position drawn. -/
def drawn (s : Ctx) : Ctx := { s with alloc := { s.alloc with position := s.alloc.position + 1 } }

/-- What an event recorded apart tells of its object as it leaves it: its place,
its states and what it wrote. -/
structure Tells (s : Ctx) (held p : Object) (event : Table String Value → Event) : Prop where
  position : ∀ wrote, (event wrote).position = s.alloc.position + 1
  objectId : ∀ wrote, (event wrote).objectId = p.id
  objectSeq : ∀ wrote, (event wrote).objectSeq = p.version + 1
  fromState : ∀ wrote, (event wrote).fromState = some held.state
  toState : ∀ wrote, (event wrote).toState = p.state
  wrote : ∀ wrote, (event wrote).payload.wrote = wrote

@[simp] theorem recordApart_get (s : Ctx) (p : Object) (was : Table String Value)
    (event : Object → Table String Value → Event) (id : String) :
    (s.recordApart p was event).work.get id =
      if p.id = id then some { p with version := p.version + 1 } else s.work.get id :=
  World.get_insert _ _ _

theorem recordApart_baseline (s : Ctx) (p : Object) (was : Table String Value)
    (event : Object → Table String Value → Event) (id : String) :
    (s.recordApart p was event).work.baseline id =
      if p.id = id then p.attrs else s.work.baseline id := by
  refine (World.baseline_insert _ _ _).trans ?_
  show (Table.get? (Table.set s.work.lastWritten p.id p.attrs) id).getD _ = _
  rw [Table.get?_set]
  split
  case isTrue => rfl
  case isFalse => rfl

theorem recordApart_lastWritten (s : Ctx) (p : Object) (was : Table String Value)
    (event : Object → Table String Value → Event) {id : String} (h : p.id ≠ id) :
    Table.get? (s.recordApart p was event).work.lastWritten id =
      Table.get? s.work.lastWritten id := by
  refine (World.lastWritten_insert _ _ _).trans ?_
  rw [if_neg h]
  exact Table.get?_set_of_ne _ _ h

/-- What an event recorded apart wrote is measured from where its object's last
event left it. -/
theorem recordApart_wrote {s : Ctx} {p held : Object} (h : s.work.get p.id = some held)
    (hwas : held.attrs = was) :
    (s.work.wroteApart p.id was p.attrs).1 = wroteBetween (s.work.baseline p.id) p.attrs := by
  rw [World.baseline, World.attrsHeld, h, ← hwas]
  rfl

theorem recordApart_sound {s : Ctx} (hs : s.Sound) {p held : Object} (was : Table String Value)
    (event : Object → Table String Value → Event) (hheld : s.work.get p.id = some held) :
    (s.drawn.recordApart p was event).Sound where
  named := by
    intro id o ho
    rw [recordApart_get] at ho
    split at ho
    case isTrue hid =>
      obtain rfl := Option.some.inj ho
      exact hid
    case isFalse => exact hs.named id o ho
  unheld := by
    intro id hnone
    rw [recordApart_get] at hnone
    split at hnone
    case isTrue => cases hnone
    case isFalse hid =>
      rw [recordApart_lastWritten _ _ _ _ hid]
      exact hs.unheld id hnone
  settled := by
    intro id hunder
    rw [recordApart_baseline, World.attrsHeld, recordApart_get]
    split
    case isTrue => exact SameAttrs.of_eq rfl
    case isFalse => exact hs.settled id hunder
  fresh := by
    intro type n hn
    have hnone := hs.fresh type n hn
    rw [recordApart_get, if_neg]
    · exact hnone
    · intro hid
      have habsent : s.work.get p.id = none := hid ▸ hnone
      rw [hheld] at habsent
      cases habsent

/-- **An event recorded apart** is one whole operation on its object. -/
theorem went_recordApart {s : Ctx} (hs : s.Sound) {p held : Object} {was : Table String Value}
    {event : Object → Table String Value → Event} (hheld : s.work.get p.id = some held)
    (hversion : p.version = held.version) (hwas : held.attrs = was)
    (htells : Tells s held p (event { p with version := p.version + 1 })) :
    Went s (s.drawn.recordApart p was event) := by
  refine ⟨recordApart_sound hs was event hheld, ?_, ?_⟩
  · intro id hid
    rw [recordApart_get]
    split
    · rfl
    · exact hid
  · let wrote := (s.drawn.work.wroteApart p.id was p.attrs).1
    let e := event { p with version := p.version + 1 } wrote
    have hwrote : wrote = wroteBetween (s.work.baseline p.id) p.attrs :=
      recordApart_wrote (s := s.drawn) hheld hwas
    have hid : e.objectId = p.id := htells.objectId _
    have hrow := World.row_of_get hheld
    have hnow : (s.drawn.recordApart p was event).work.get p.id =
        some { p with version := p.version + 1 } := by
      rw [recordApart_get, if_pos rfl]
    let begun : Journal String String (Table String Value) (Table String Value) :=
      { s.drawn.journal with underway := e.entry.subject :: s.underway }
    refine ⟨[] ++ [e.entry], Journal.Advanced.operation
      (Journal.Advanced.refl begun) rfl rfl rfl rfl (fun _ _ => rfl) rfl rfl
      (htells.position _) ?_ ?_ ?_ rfl rfl ?_ ?_ ?_ ?_ ?_⟩
    · show e.fromState = (s.work.row e.objectId).state
      rw [hid, hrow.2]
      exact htells.fromState _
    · show e.objectSeq = (s.work.row e.objectId).version + 1
      rw [hid, hrow.1, ← hversion]
      exact htells.objectSeq _
    · show (s.events ++ [e]).map Event.entry = _
      rw [List.map_append]
      rfl
    · show (s.reentered || s.underway.contains e.objectId) = (s.reentered || _)
      rw [List.contains_eq_mem]
      rfl
    · intro id hne
      have hpid : p.id ≠ id := fun h => hne (by rw [← h]; exact hid.symm)
      refine World.row_congr ?_ ?_
      · rw [recordApart_get, if_neg hpid]
      · rw [recordApart_baseline, if_neg hpid]
    · show ((s.drawn.recordApart p was event).work.row e.objectId).version = e.objectSeq
      rw [hid, (World.row_of_get hnow).1]
      exact (htells.objectSeq _).symm
    · show ((s.drawn.recordApart p was event).work.row e.objectId).state = some e.toState
      rw [hid, (World.row_of_get hnow).2]
      exact congrArg some (htells.toState _).symm
    · show SameAttrs (replayed (s.work.baseline e.objectId) e.payload.wrote)
        ((s.drawn.recordApart p was event).work.baseline e.objectId)
      rw [hid, recordApart_baseline, if_pos rfl, htells.wrote, hwrote]
      exact replayed_wroteBetween _ _

end Ctx

end ObjectFlow
