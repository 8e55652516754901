import ObjectFlow.Nested

/-!
# One transition, one operation

A transition begins at the next position, its object put under way; its outcome
writes its object, its effect and its cascades take others; and it ends with
its event.  What it does to the journal is one whole operation, whatever it
nests.
-/

namespace ObjectFlow

open Base

/-! ### What leaves every object as told -/

namespace Ctx

/-- What leaves everything told of every object as it is. -/
structure Kept (s t : Ctx) : Prop where
  underway : t.underway = s.underway
  events : t.events = s.events
  reentered : t.reentered = s.reentered
  alloc : t.alloc = s.alloc
  held : ∀ id, (t.work.get id).isSome = (s.work.get id).isSome
  sound : s.Sound → t.Sound
  row : ∀ id, t.work.row id = s.work.row id
  attrs : ∀ id, t.work.attrsHeld id = s.work.attrsHeld id

theorem Kept.refl (s : Ctx) : Kept s s :=
  ⟨rfl, rfl, rfl, rfl, fun _ => rfl, id, fun _ => rfl, fun _ => rfl⟩

theorem Kept.trans {s t u : Ctx} (h : Kept s t) (h' : Kept t u) : Kept s u where
  underway := h'.underway.trans h.underway
  events := h'.events.trans h.events
  reentered := h'.reentered.trans h.reentered
  alloc := h'.alloc.trans h.alloc
  held := fun id => (h'.held id).trans (h.held id)
  sound := fun hs => h'.sound (h.sound hs)
  row := fun id => (h'.row id).trans (h.row id)
  attrs := fun id => (h'.attrs id).trans (h.attrs id)

/-- An object changed in place without anything its events tell. -/
theorem kept_change {s t : Ctx} {k : String} {f : Object → Object}
    (hwork : t.work = s.work.change k f) (hid : ∀ o, (f o).id = o.id)
    (hversion : ∀ o, (f o).version = o.version) (hstate : ∀ o, (f o).state = o.state)
    (hattrs : ∀ o, (f o).attrs = o.attrs) (hunderway : t.underway = s.underway)
    (hevents : t.events = s.events) (hreentered : t.reentered = s.reentered)
    (halloc : t.alloc = s.alloc) : Kept s t where
  underway := hunderway
  events := hevents
  reentered := hreentered
  alloc := halloc
  held := by
    intro id
    rw [hwork, World.get_change]
    split <;> simp
  sound := fun hs => (went_change hs hwork hunderway hevents hreentered halloc hid hversion
    fun _ o => ⟨hstate o, hattrs o⟩).sound
  row := by
    intro id
    rw [hwork, World.row, World.row, World.get_change, World.baseline_change]
    split
    · cases s.work.get id <;> simp [hversion, hstate]
    · rfl
  attrs := by
    intro id
    rw [hwork, World.attrsHeld, World.attrsHeld, World.get_change]
    split
    · cases s.work.get id <;> simp [hattrs]
    · rfl

theorem kept_setIndex (rows : List (String × String)) (position : Int) (s : Ctx) :
    Kept s (s.setIndex rows position) := by
  unfold setIndex
  induction rows generalizing s with
  | nil => exact Kept.refl s
  | cons row rest ih =>
      obtain ⟨id, a⟩ := row
      rw [List.foldl_cons]
      refine Kept.trans ?_ (ih _)
      exact kept_change (k := id) (f := fun o => { o with writes := Table.set o.writes a position })
        rfl (fun _ => rfl) (fun _ => rfl) (fun _ => rfl) (fun _ => rfl) rfl rfl rfl rfl

end Ctx

/-! ### An object created, or written, at its outcome -/

/-- What an outcome makes of its object before its effect: its id and its
version as they began. -/
def SameRow (o o' : Object) : Prop := o'.id = o.id ∧ o'.version = o.version

theorem writeInputs_row {t : FlowType} {inputs : Table String Value} {ks : List String}
    {o o' : Object} (h : writeInputs t inputs ks o = .ok o') : SameRow o o' := by
  induction ks generalizing o with
  | nil =>
      cases h
      exact ⟨rfl, rfl⟩
  | cons k rest ih =>
      unfold writeInputs at h
      split at h
      · exact ih h
      · split at h
        · obtain ⟨hid, hversion⟩ := ih h
          exact ⟨hid, hversion⟩
        · cases hf : fitted t k _ o.id with
          | error e =>
              rw [hf] at h
              cases h
          | ok v =>
              rw [hf] at h
              obtain ⟨hid, hversion⟩ := ih (o := { o with attrs := Table.set o.attrs k v }) h
              exact ⟨hid, hversion⟩

theorem movedTo_row (x : Transition) (inputs : Table String Value) (o : Object) :
    SameRow o (movedTo x inputs o) := by
  unfold movedTo
  split <;> exact ⟨rfl, rfl⟩

theorem dated_row (w : World) (tn : String) (inputs : Table String Value) (now : Int)
    (o : Object) : SameRow o (dated w tn inputs now o) := by
  unfold dated
  dsimp only
  split <;> exact ⟨rfl, rfl⟩

theorem eraseObject_row (r : Readers) (t : FlowType) (o : Object) :
    Program.Yields (SameRow o) (eraseObject r t o) := by
  refine Program.Yields.bind fun ctx => Program.Yields.bind fun _ => Program.Yields.bind fun _ => ?_
  refine Program.Yields.bind fun _ => Program.Yields.bind fun _ => Program.Yields.pure ?_
  exact ⟨rfl, rfl⟩

namespace Ctx

/-- A step that writes one object alone, under its id and at one version. -/
structure Inserted (id : String) (v : Int) (s t : Ctx) : Prop where
  underway : t.underway = s.underway
  events : t.events = s.events
  reentered : t.reentered = s.reentered
  position : t.alloc.position = s.alloc.position
  object : t.alloc.object = s.alloc.object
  mintId : t.alloc.mintId = s.alloc.mintId
  others : ∀ j, j ≠ id → t.work.get j = s.work.get j
  lastWritten : ∀ j, j ≠ id →
    Table.get? t.work.lastWritten j = Table.get? s.work.lastWritten j
  baseline : ∀ j, t.work.baseline j = s.work.baseline j
  mine : t.work.get id = s.work.get id ∨
    ∃ o, t.work.get id = some o ∧ o.id = id ∧ o.version = v

theorem Inserted.refl (id : String) (v : Int) (s : Ctx) : Inserted id v s s :=
  ⟨rfl, rfl, rfl, rfl, rfl, rfl, fun _ _ => rfl, fun _ _ => rfl, fun _ => rfl, .inl rfl⟩

theorem Inserted.trans {id : String} {v : Int} {s t u : Ctx} (h : Inserted id v s t)
    (h' : Inserted id v t u) : Inserted id v s u where
  underway := h'.underway.trans h.underway
  events := h'.events.trans h.events
  reentered := h'.reentered.trans h.reentered
  position := h'.position.trans h.position
  object := h'.object.trans h.object
  mintId := h'.mintId.trans h.mintId
  others := fun j hj => (h'.others j hj).trans (h.others j hj)
  lastWritten := fun j hj => (h'.lastWritten j hj).trans (h.lastWritten j hj)
  baseline := fun j => (h'.baseline j).trans (h.baseline j)
  mine := by
    rcases h'.mine with hu | hu
    · rcases h.mine with ht | ht
      · exact .inl (hu.trans ht)
      · exact .inr (hu ▸ ht)
    · exact .inr hu

theorem inserted_insert (s : Ctx) (o : Object) :
    Inserted o.id o.version s { s with work := s.work.insert o } where
  underway := rfl
  events := rfl
  reentered := rfl
  position := rfl
  object := rfl
  mintId := rfl
  others := fun j hj => by
    show (s.work.insert o).get j = s.work.get j
    rw [World.get_insert, if_neg (Ne.symm hj)]
  lastWritten := fun j hj => by
    show Table.get? (s.work.insert o).lastWritten j = _
    rw [World.lastWritten_insert, if_neg (Ne.symm hj)]
  baseline := fun j => World.baseline_insert _ _ _
  mine := .inr ⟨o, by
    show (s.work.insert o).get o.id = some o
    rw [World.get_insert, if_pos rfl], rfl, rfl⟩

end Ctx

theorem drawNumber_inserted (scope : Scope) (id : String) (v : Int) :
    Program.Advances (Ctx.Inserted id v) (drawNumber scope) := by
  intro s n t hrun
  obtain ⟨ctx, s', hctx, hrun⟩ := Program.bind_ok hrun
  cases hctx
  cases hdraw : s.alloc.numbers.draw scope with
  | none =>
    rw [hdraw] at hrun
    cases hrun
  | some drawn =>
    rw [hdraw] at hrun
    cases hrun
    exact ⟨rfl, rfl, rfl, rfl, rfl, rfl, fun _ _ => rfl, fun _ _ => rfl, fun _ => rfl, .inl rfl⟩

/-- Minting writes the new object alone. -/
theorem mintEach_inserted (r : Readers) (t : FlowType) (attrs : List (String × Attribute))
    (o : Object) {s u : Ctx} {o' : Object} (hrun : mintEach r t attrs o s = (.ok o', u)) :
    Ctx.Inserted o.id o.version s u ∧ SameRow o o' := by
  induction attrs generalizing o s with
  | nil =>
      cases hrun
      exact ⟨Ctx.Inserted.refl _ _ _, rfl, rfl⟩
  | cons entry rest ih =>
      obtain ⟨a, spec⟩ := entry
      unfold mintEach at hrun
      cases hident : spec.identifier with
      | none =>
        rw [hident] at hrun
        exact ih o hrun
      | some ident =>
        rw [hident] at hrun
        dsimp only at hrun
        obtain ⟨scope, -, hscoped⟩ := Program.check_bind_ok hrun
        obtain ⟨n, s₁, hdraw, hnumbered⟩ := Program.bind_ok hscoped
        obtain ⟨_, s₂, hinsert, hinserted⟩ := Program.bind_ok hnumbered
        cases hinsert
        obtain ⟨text, -, htexted⟩ := Program.check_bind_ok hinserted
        obtain ⟨hrest, hrow⟩ := ih _ htexted
        have hdrawn := drawNumber_inserted _ o.id o.version _ _ _ hdraw
        exact ⟨(hdrawn.trans (Ctx.inserted_insert _ _)).trans hrest, hrow⟩

theorem mintedFirst_inserted (r : Readers) (t : FlowType) (created : Bool) (o : Object)
    {s u : Ctx} {o' : Object} (hrun : mintedFirst r t created o s = (.ok o', u)) :
    Ctx.Inserted o.id o.version s u ∧ SameRow o o' := by
  unfold mintedFirst at hrun
  split at hrun
  · obtain ⟨made, s₁, hmint, hrun⟩ := Program.bind_ok hrun
    obtain ⟨hinserted, hid, hversion⟩ := mintEach_inserted r t _ o hmint
    cases hrun
    have hlast := Ctx.inserted_insert s₁ o'
    rw [hid, hversion] at hlast
    exact ⟨hinserted.trans hlast, hid, hversion⟩
  · cases hrun
    exact ⟨Ctx.Inserted.refl _ _ _, rfl, rfl⟩

/-! ### Beginning -/

theorem withAttributeDefaults_row (r : Readers) (t : FlowType) (inputs : Table String Value)
    (attrs : List (String × Attribute)) (o : Object) {s u : Ctx} {o' : Object}
    (hrun : withAttributeDefaults r t inputs attrs o s = (.ok o', u)) : u = s ∧ SameRow o o' := by
  induction attrs generalizing o with
  | nil =>
      cases hrun
      exact ⟨rfl, rfl, rfl⟩
  | cons entry rest ih =>
      obtain ⟨a, spec⟩ := entry
      unfold withAttributeDefaults at hrun
      cases hdefault : spec.default with
      | none =>
        rw [hdefault] at hrun
        exact ih o hrun
      | some d =>
        rw [hdefault] at hrun
        dsimp only at hrun
        obtain ⟨v, -, hgiven⟩ := Program.check_bind_ok hrun
        split at hgiven
        · exact ih o hgiven
        · obtain ⟨v, -, hfitted⟩ := Program.check_bind_ok hgiven
          obtain ⟨hu, hid, hversion⟩ := ih _ hfitted
          exact ⟨hu, hid, hversion⟩

/-- An object made: under the next number's id, and alone. -/
theorem createObject_run {r : Readers} {t : FlowType} {tn xn : String} {x : Transition}
    {inputs : Table String Value} {s u : Ctx} {o : Object}
    (hrun : createObject r t tn xn x inputs s = (.ok o, u)) :
    o.id = s.alloc.mintId tn (s.alloc.object + 1) ∧ o.version = 0 ∧
      (∃ p, u.work.get o.id = some p ∧ p.version = 0) ∧
      Ctx.Inserted o.id 0 { s with alloc := { s.alloc with object := s.alloc.object + 1 } } u := by
  unfold createObject at hrun
  cases hstate : x.toStates.head? with
  | none =>
    rw [hstate] at hrun
    cases hrun
  | some state =>
    rw [hstate] at hrun
    dsimp only at hrun
    obtain ⟨id, s₁, hid, hmade⟩ := Program.bind_ok hrun
    cases hid
    obtain ⟨ctx, s₂, hctx, hmade⟩ := Program.bind_ok hmade
    cases hctx
    obtain ⟨_, s₃, hinsert, hmade⟩ := Program.bind_ok hmade
    cases hinsert
    obtain ⟨o', s₄, hdefaults, hmade⟩ := Program.bind_ok hmade
    obtain ⟨rfl, hrow⟩ := withAttributeDefaults_row r t inputs _ _ hdefaults
    cases hmade
    obtain ⟨hid, hversion⟩ := hrow
    let made : Object :=
      { id := s.alloc.mintId tn (s.alloc.object + 1), type := tn, state, version := 0
        attrs := emptyAttributes t, createdAt := s.at', createdByKind := s.who.kind
        recordedFrom := s.at' }
    have hinserted := Ctx.inserted_insert
      { s with alloc := { s.alloc with object := s.alloc.object + 1 } } made
    refine ⟨hid, hversion, ⟨made, ?_, rfl⟩, ?_⟩
    · rw [hid]
      exact (World.get_insert _ made _).trans (if_pos rfl)
    · rw [hid]
      exact ⟨hinserted.underway, hinserted.events, hinserted.reentered, hinserted.position,
        hinserted.object, hinserted.mintId, hinserted.others, hinserted.lastWritten,
        hinserted.baseline, hinserted.mine⟩

namespace Ctx

/-- What a transition's beginning leaves: the next position taken, its object
held and put under way, and everything else as it was. -/
structure Begins (s t : Ctx) (b : Begun) : Prop where
  sound : t.Sound
  position : b.position = s.alloc.position + 1
  allocated : t.alloc.position = s.alloc.position + 1
  underway : t.underway = b.object.id :: s.underway
  events : t.events = s.events
  reentered : t.reentered = s.reentered
  fromState : b.fromState = (s.work.row b.object.id).state
  version : (t.work.row b.object.id).version = (s.work.row b.object.id).version
  began : b.object.version = (t.work.row b.object.id).version
  held : (t.work.get b.object.id).isSome
  kept : ∀ id, (s.work.get id).isSome → (t.work.get id).isSome
  others : ∀ id, id ≠ b.object.id → t.work.row id = s.work.row id
  baseline : ∀ id, t.work.baseline id = s.work.baseline id

/-- The inserted object apart, what is told of every object is as it was. -/
theorem Inserted.row {id : String} {v : Int} {s t : Ctx} (h : Inserted id v s t) {j : String}
    (hj : j ≠ id) : t.work.row j = s.work.row j :=
  World.row_congr (h.others j hj) (h.baseline j)

/-- A world written at one object, which is under way, is sound as it was. -/
theorem Inserted.sound {id : String} {v : Int} {s t : Ctx} (h : Inserted id v s t)
    (named : ∀ j o, s.work.get j = some o → o.id = j)
    (unheld : ∀ j, s.work.get j = none → Table.get? s.work.lastWritten j = none)
    (settled : ∀ j, j ≠ id → j ∉ s.underway → SameAttrs (s.work.baseline j) (s.work.attrsHeld j))
    (fresh : ∀ type n, s.alloc.object < n → s.alloc.mintId type n ≠ id →
      s.work.get (s.alloc.mintId type n) = none)
    (minted : ∀ type n, s.alloc.object < n → s.alloc.mintId type n ≠ id)
    (heldT : (t.work.get id).isSome) {u : Ctx} (hwork : u.work = t.work)
    (halloc : u.alloc = t.alloc)
    (hunderway : ∀ j, j ∉ u.underway → j ≠ id ∧ j ∉ s.underway) : u.Sound where
  named := by
    intro j o ho
    rw [hwork] at ho
    by_cases hj : j = id
    · subst hj
      rcases h.mine with hsame | ⟨p, hp, hid, -⟩
      · exact named j o (hsame ▸ ho)
      · rw [hp] at ho
        exact Option.some.inj ho ▸ hid
    · exact named j o (h.others j hj ▸ ho)
  unheld := by
    intro j hnone
    rw [hwork] at hnone ⊢
    have hj : j ≠ id := by
      rintro rfl
      rw [hnone] at heldT
      cases heldT
    rw [h.lastWritten j hj]
    exact unheld j (h.others j hj ▸ hnone)
  settled := by
    intro j hunder
    obtain ⟨hne, hunder⟩ := hunderway j hunder
    rw [hwork, h.baseline, World.attrsHeld, h.others j hne]
    exact settled j hne hunder
  fresh := by
    intro type n hn
    rw [halloc, h.object] at hn
    rw [halloc, h.mintId, hwork, h.others _ (minted type n hn)]
    exact fresh type n hn (minted type n hn)

end Ctx

/-- What went soundly, and then put an object under way back at the version it
had, went soundly. -/
theorem Ctx.Went.inserted {s t u : Ctx} {id : String} {v : Int} (h : Ctx.Went s t)
    (hinserted : Ctx.Inserted id v t u) (hunder : id ∈ s.underway)
    (hheld : (s.work.get id).isSome) (hv : v = (s.work.row id).version)
    (hmine : ∃ o, u.work.get id = some o ∧ o.version = v) : Ctx.Went s u := by
  obtain ⟨es, hadvanced⟩ := h.advanced
  obtain ⟨o, ho, hversion⟩ := hmine
  have hheldU : (u.work.get id).isSome := by
    rw [ho]
    rfl
  have hminted : ∀ type n, t.alloc.object < n → t.alloc.mintId type n ≠ id := by
    intro type n hn heq
    have hnone := h.sound.fresh type n hn
    rw [heq] at hnone
    have hsome := h.held id hheld
    rw [hnone] at hsome
    cases hsome
  refine ⟨?_, ?_, es, ?_⟩
  · refine hinserted.sound h.sound.named h.sound.unheld (fun j _ => h.sound.settled j)
      (fun type n hn _ => h.sound.fresh type n hn) hminted hheldU rfl rfl ?_
    intro j hj
    rw [hinserted.underway] at hj
    refine ⟨?_, hj⟩
    rintro rfl
    exact hj (h.underway ▸ hunder)
  · intro j hj
    by_cases heq : j = id
    · rw [heq]
      exact hheldU
    · rw [hinserted.others j heq]
      exact h.held j hj
  · refine hadvanced.reset hunder (congrArg (List.map Event.entry) hinserted.events)
      hinserted.underway hinserted.position.ge hinserted.reentered
      (fun j hj => hinserted.row hj) ?_ (hinserted.baseline id)
    show (u.work.row id).version = (s.work.row id).version
    rw [(World.row_of_get ho).1, hversion, hv]

theorem beginOutcome_begins {r : Readers} {t : FlowType} {tn xn : String} {x : Transition}
    {oid : Option String} {inputs : Table String Value} {guarded : Guarded} {s u : Ctx}
    {b : Begun} (hs : s.Sound)
    (hrun : beginOutcome r t tn xn x oid inputs guarded s = (.ok b, u)) : Ctx.Begins s u b := by
  obtain ⟨ctx, s₁, hctx, hbegun⟩ := Program.bind_ok hrun
  cases hctx
  obtain ⟨position, s₂, hposition, hbegun⟩ := Program.bind_ok hbegun
  cases hposition
  obtain ⟨_, s₃, hnoted, hbegun⟩ := Program.bind_ok hbegun
  cases hnoted
  obtain ⟨object, s₄, hobject, hbegun⟩ := Program.bind_ok hbegun
  cases hbegun
  cases hfound : s.target oid with
  | some o =>
    rw [hfound] at hobject
    cases hobject
    have hget : s.work.get object.id = some object := by
      obtain ⟨id, -, hid⟩ := Option.bind_eq_some_iff.mp hfound
      rw [hs.named id object hid]
      exact hid
    have hrow := World.row_of_get hget
    refine
      { sound := ⟨hs.named, hs.unheld, ?_, hs.fresh⟩
        position := rfl
        allocated := rfl
        underway := rfl
        events := rfl
        reentered := rfl
        fromState := hrow.2.symm
        version := rfl
        began := hrow.1.symm
        held := by show (s.work.get object.id).isSome = true; rw [hget]; rfl
        kept := fun _ => id
        others := fun _ _ => rfl
        baseline := fun _ => rfl }
    intro id hunder
    exact hs.settled id fun hmem => hunder (List.mem_cons_of_mem _ hmem)
  | none =>
    rw [hfound] at hobject
    obtain ⟨hid, hversion, ⟨p, hp, hpversion⟩, hinserted⟩ := createObject_run hobject
    have hfresh : s.work.get object.id = none := by
      rw [hid]
      exact hs.fresh tn _ (Nat.lt_succ_self _)
    have hunheld : (s.work.row object.id).version = 0 ∧ (s.work.row object.id).state = none := by
      rw [World.row, hfresh]
      exact ⟨rfl, rfl⟩
    have hheld : (s₄.work.get object.id).isSome := by
      rw [hp]
      rfl
    refine
      { sound := ?_
        position := rfl
        allocated := hinserted.position
        underway := congrArg _ hinserted.underway
        events := hinserted.events
        reentered := hinserted.reentered
        fromState := hunheld.2.symm
        version := by
          show (s₄.work.row object.id).version = _
          rw [hunheld.1, (World.row_of_get hp).1, hpversion]
        began := by
          show object.version = (s₄.work.row object.id).version
          rw [hversion, (World.row_of_get hp).1, hpversion]
        held := hheld
        kept := ?_
        others := fun j hj => hinserted.row hj
        baseline := hinserted.baseline }
    · refine hinserted.sound hs.named hs.unheld (fun j _ => hs.settled j) ?_ ?_ hheld rfl rfl ?_
      · intro type n hn _
        exact hs.fresh type n ((Nat.lt_succ_self _).trans hn)
      · intro type n hn heq
        have hlast : n = s.alloc.object + 1 := s.alloc.distinct _ _ _ _ (heq.trans hid)
        have hpast : s.alloc.object + 1 < n := hn
        omega
      · intro j hj
        have hcons : j ∉ object.id :: s.underway := hinserted.underway ▸ hj
        simpa using hcons
    · intro j hj
      by_cases heq : j = object.id
      · rw [heq]
        exact hheld
      · exact (hinserted.others j heq).symm ▸ hj

/-! ### The outcome -/

/-- **An outcome goes soundly** on the object that was begun, which it leaves at
the version it began at. -/
theorem outcome_went {r : Readers} {t : FlowType} {tn xn : String} {x : Transition}
    {inputs : Table String Value} {b : Begun} {s u : Ctx} {id : String} (hs : s.Sound)
    (hunder : b.object.id ∈ s.underway) (hheld : (s.work.get b.object.id).isSome)
    (hbegan : b.object.version = (s.work.row b.object.id).version)
    (hrun : outcome r t tn xn x inputs b s = (.ok id, u)) :
    id = b.object.id ∧ Ctx.Went s u := by
  obtain ⟨o₁, s₁, herased, hrest⟩ := Program.bind_ok hrun
  have hkeeps : Act.Keeps [] (erasedFirst r t x b.object) := by
    unfold erasedFirst
    split
    · exact eraseObject_keeps r t _
    · exact Act.Keeps.pure _
  have hrow₁ : SameRow b.object o₁ := by
    unfold erasedFirst at herased
    split at herased
    · exact eraseObject_row r t b.object s o₁ s₁ herased
    · cases herased
      exact ⟨rfl, rfl⟩
  have hwent : Ctx.Went s s₁ := hkeeps s o₁ s₁ herased hs (by simp)
  obtain ⟨o₂, hwritten, hrest⟩ := Program.check_bind_ok hrest
  have hrow₂ := writeInputs_row hwritten
  have hrow₂' := movedTo_row x inputs o₁
  obtain ⟨_, s₂, hnoted, hrest⟩ := Program.bind_ok hrest
  cases hnoted
  obtain ⟨o₃, s₃, hminted, hrest⟩ := Program.bind_ok hrest
  obtain ⟨hinserted, hrow₃⟩ := mintedFirst_inserted r t _ o₂ hminted
  obtain ⟨ctx, s₄, hctx, hrest⟩ := Program.bind_ok hrest
  cases hctx
  obtain ⟨_, s₅, hlast, hrest⟩ := Program.bind_ok hrest
  cases hlast
  cases hrest
  generalize hrow₄ : (if t.observationOn.isSome && xn = "record" then
    dated s₃.work tn inputs s₃.at' o₃ else o₃) = o₄
  have hsame₄ : SameRow o₃ o₄ := by
    rw [← hrow₄]
    split
    · exact dated_row _ _ _ _ _
    · exact ⟨rfl, rfl⟩
  have hid : o₂.id = b.object.id := by
    rw [hrow₂.1, hrow₂'.1, hrow₁.1]
  have hversion : o₂.version = b.object.version := by
    rw [hrow₂.2, hrow₂'.2, hrow₁.2]
  have hid₄ : o₄.id = b.object.id := by
    rw [hsame₄.1, hrow₃.1, hid]
  have hversion₄ : o₄.version = b.object.version := by
    rw [hsame₄.2, hrow₃.2, hversion]
  have hlast := Ctx.inserted_insert s₃ o₄
  rw [hid₄, hversion₄] at hlast
  rw [hid, hversion] at hinserted
  refine ⟨hid₄, Ctx.Went.inserted (hwent.quietly ?_) (hinserted.trans hlast) hunder hheld hbegan
    ⟨o₄, ?_, hversion₄⟩⟩
  · exact ⟨rfl, rfl, rfl, rfl, rfl, le_refl _, le_refl _, rfl⟩
  · exact (World.get_insert _ _ _).trans (if_pos hid₄)

/-! ### The event -/

namespace World

variable (w : World) (id j : String)

theorem get_wrote : (w.wrote id).2.get j = w.get j := rfl

theorem lastWritten_wrote : Table.get? (w.wrote id).2.lastWritten j =
    if id = j then some (w.attrsHeld id) else Table.get? w.lastWritten j :=
  Table.get?_set _ _ _ _

theorem baseline_wrote :
    (w.wrote id).2.baseline j = if id = j then w.attrsHeld id else w.baseline j := by
  rw [baseline, lastWritten_wrote]
  split <;> rfl

end World

/-- Two objects of which the events tell the same. -/
def SameTold (o o' : Object) : Prop :=
  o'.id = o.id ∧ o'.version = o.version ∧ o'.state = o.state ∧ o'.attrs = o.attrs

theorem correctOne_told (lib : Library) (t : FlowType) (b : Begun) (imported : List Int)
    (ms : List String) (c : Correcting) :
    SameTold c.object (ms.foldl (correctOne lib t b imported) c).object := by
  induction ms generalizing c with
  | nil => exact ⟨rfl, rfl, rfl, rfl⟩
  | cons m rest ih =>
      have hone : SameTold c.object (correctOne lib t b imported c m).object := by
        unfold correctOne
        dsimp only
        split <;> exact ⟨rfl, rfl, rfl, rfl⟩
      obtain ⟨hid, hversion, hstate, hattrs⟩ := ih (correctOne lib t b imported c m)
      exact ⟨hid.trans hone.1, hversion.trans hone.2.1, hstate.trans hone.2.2.1,
        hattrs.trans hone.2.2.2⟩

/-- An object replaced in place, its id and its attributes as they were. -/
theorem Ctx.Sound.change {s t : Ctx} (hs : s.Sound) {k : String} {o p : Object}
    (hheld : s.work.get k = some o) (hwork : t.work = s.work.change k fun _ => p)
    (hunderway : t.underway = s.underway) (halloc : t.alloc = s.alloc) (hid : p.id = o.id)
    (hattrs : p.attrs = o.attrs) : t.Sound where
  named := by
    intro id q hq
    rw [hwork, World.get_change] at hq
    split at hq
    case isTrue hk =>
      rw [← hk, hheld] at hq
      cases hq
      rw [hid, hs.named k o hheld, hk]
    case isFalse => exact hs.named id q hq
  unheld := by
    intro id hnone
    have hwas : s.work.get id = none := by
      rw [hwork, World.get_change] at hnone
      split at hnone <;> simpa using hnone
    rw [hwork, World.lastWritten_change, if_neg (by simp [hwas])]
    exact hs.unheld id hwas
  settled := by
    intro id hunder
    rw [hwork, World.baseline_change, World.attrsHeld, World.get_change]
    have hwas := hs.settled id (hunderway ▸ hunder)
    split
    case isTrue hk =>
      rw [World.attrsHeld, ← hk, hheld] at hwas
      rw [← hk, hheld]
      show SameAttrs (s.work.baseline k) p.attrs
      rw [hattrs]
      exact hwas
    case isFalse => exact hwas
  fresh := by
    intro type n hn
    rw [halloc] at hn ⊢
    rw [hwork, World.get_change, hs.fresh type n hn]
    split <;> rfl

/-- What a transition's event tells, and what recording it leaves. -/
structure Ctx.Records (s u : Ctx) (b : Begun) (id : String) (e : Event) : Prop where
  position : e.position = b.position
  objectId : e.objectId = id
  objectSeq : e.objectSeq = (s.work.row id).version + 1
  fromState : e.fromState = b.fromState
  wrote : e.payload.wrote = wroteBetween (s.work.baseline id) (s.work.attrsHeld id)
  events : u.events = s.events ++ [e]
  underway : u.underway = s.underway.tail
  reentered : u.reentered = (s.reentered || s.underway.tail.contains id)
  alloc : u.alloc = s.alloc
  held : ∀ j, (u.work.get j).isSome = (s.work.get j).isSome
  others : ∀ j, j ≠ id → u.work.row j = s.work.row j
  version : (u.work.row id).version = e.objectSeq
  state : (u.work.row id).state = some e.toState
  content : (u.work.row id).content = s.work.attrsHeld id

/-- What the row of a transition's event leaves of the others. -/
structure Ctx.Placed (s t : Ctx) (id : String) (p : Object) : Prop where
  sound : s.Sound → t.Sound
  underway : t.underway = s.underway
  events : t.events = s.events
  reentered : t.reentered = s.reentered
  alloc : t.alloc = s.alloc
  held : ∀ j, (t.work.get j).isSome = (s.work.get j).isSome
  others : ∀ j, j ≠ id → t.work.row j = s.work.row j
  version : (t.work.row id).version = p.version
  state : (t.work.row id).state = some p.state
  baseline : t.work.baseline id = s.work.baseline id
  attrs : t.work.attrsHeld id = p.attrs

theorem recordRow_placed (t : FlowType) (xn : String) (b : Begun)
    (merged : List (String × String × Int × Int × Int)) {id : String} {s : Ctx} {held p : Object}
    (hheld : s.work.get id = some held) (hid : p.id = held.id) (hattrs : p.attrs = held.attrs) :
    Ctx.Placed s (recordRow t xn b p merged id s) id p := by
  unfold recordRow
  dsimp only
  generalize hs₁ : ({ s with
    work := s.work.change id fun _ => p
    wrote := Table.erase s.wrote id
    merged := s.merged ++ merged } : Ctx) = s₁
  have hwork : s₁.work = s.work.change id fun _ => p := by rw [← hs₁]
  have hunderway : s₁.underway = s.underway := by rw [← hs₁]
  have halloc : s₁.alloc = s.alloc := by rw [← hs₁]
  generalize indexRows _ t xn p _ = rows
  have hkept := Ctx.kept_setIndex rows b.position s₁
  have hget : s₁.work.get id = some p := by
    rw [hwork, World.get_change, if_pos rfl, hheld]
    rfl
  have hrow := World.row_of_get hget
  exact
    { sound := fun hs => hkept.sound (hs.change hheld hwork hunderway halloc hid hattrs)
      underway := hkept.underway.trans hunderway
      events := hkept.events.trans (by rw [← hs₁])
      reentered := hkept.reentered.trans (by rw [← hs₁])
      alloc := hkept.alloc.trans halloc
      held := by
        intro j
        rw [hkept.held, hwork, World.get_change]
        split <;> simp
      others := by
        intro j hj
        rw [hkept.row, hwork]
        refine World.row_congr ?_ (World.baseline_change _ _ _ _)
        rw [World.get_change, if_neg (Ne.symm hj)]
      version := by rw [hkept.row, hrow.1]
      state := by rw [hkept.row, hrow.2]
      baseline := by
        have hcontent := congrArg Journal.Row.content (hkept.row id)
        refine (show _ = s₁.work.baseline id from hcontent).trans ?_
        rw [hwork, World.baseline_change]
      attrs := by
        rw [hkept.attrs, World.attrsHeld, hget]
        rfl }

theorem payloadOf_wrote (ctx : Ctx) (t : FlowType) (x : Transition) (inputs : Table String Value)
    (b : Begun) (id : String) (wrote : Table String Value)
    (corrected : Table String (Value × Value × Option Int)) :
    (payloadOf ctx t x inputs b id wrote corrected).wrote = wrote := by
  unfold payloadOf
  split <;> rfl

theorem recordLast_sound {t : FlowType} {xn : String} {x : Transition}
    {inputs : Table String Value} {b : Begun} {o : Object}
    {corrected : Table String (Value × Value × Option Int)} {id : String} {s : Ctx}
    (hs : s.Sound) (hheld : (s.work.get id).isSome)
    (hunder : ∀ j, j ∉ s.underway.tail → j = id ∨ j ∉ s.underway) :
    (recordLast t xn x inputs b o corrected id s).Sound where
  named := hs.named
  unheld := by
    intro j hnone
    refine (World.lastWritten_wrote s.work id j).trans ?_
    split
    case isTrue hj =>
      subst hj
      rw [show s.work.get id = none from hnone] at hheld
      cases hheld
    case isFalse => exact hs.unheld j hnone
  settled := by
    intro j hj
    have hbase : (recordLast t xn x inputs b o corrected id s).work.baseline j =
      if id = j then s.work.attrsHeld id else s.work.baseline j := World.baseline_wrote s.work id j
    rw [hbase]
    split
    case isTrue heq =>
      subst heq
      exact SameAttrs.of_eq rfl
    case isFalse hne =>
      rcases hunder j hj with heq | hout
      · exact absurd heq.symm hne
      · exact hs.settled j hout
  fresh := hs.fresh

/-- The event of a transition whose object is placed. -/
theorem recordLast_records {t : FlowType} {xn : String} {x : Transition}
    {inputs : Table String Value} {b : Begun} {o : Object}
    {corrected : Table String (Value × Value × Option Int)} {id : String} {s s₂ : Ctx}
    (h : Ctx.Placed s s₂ id o) (hversion : o.version = (s.work.row id).version + 1)
    (hattrs : o.attrs = s.work.attrsHeld id) :
    ∃ e, Ctx.Records s (recordLast t xn x inputs b o corrected id s₂) b id e := by
  have hbase : ∀ j, (recordLast t xn x inputs b o corrected id s₂).work.baseline j =
      if id = j then s₂.work.attrsHeld id else s₂.work.baseline j :=
    World.baseline_wrote s₂.work id
  refine ⟨_,
    { position := rfl
      objectId := rfl
      objectSeq := hversion
      fromState := rfl
      wrote := ?_
      events := congrArg (· ++ [_]) h.events
      underway := congrArg List.tail h.underway
      reentered := ?_
      alloc := h.alloc
      held := h.held
      others := ?_
      version := h.version
      state := h.state
      content := ?_ }⟩
  · refine (payloadOf_wrote _ _ _ _ _ _ _ _).trans ?_
    show wroteBetween (s₂.work.baseline id) (s₂.work.attrsHeld id) = _
    rw [h.baseline, h.attrs, hattrs]
  · show (s₂.reentered || s₂.underway.tail.contains id) = _
    rw [h.reentered, h.underway]
  · intro j hj
    rw [← h.others j hj]
    refine World.row_congr rfl ?_
    rw [hbase, if_neg (Ne.symm hj)]
  · show (recordLast t xn x inputs b o corrected id s₂).work.baseline id = _
    rw [hbase, if_pos rfl, h.attrs, hattrs]

theorem record_records {t : FlowType} {xn : String} {x : Transition}
    {inputs : Table String Value} {b : Begun} {id : String} {s u : Ctx} (hs : s.Sound)
    (hunder : ∀ j, j ∉ s.underway.tail → j = id ∨ j ∉ s.underway)
    (hrun : record t xn x inputs b id s = .ok u) :
    u.Sound ∧ ∃ e, Ctx.Records s u b id e := by
  unfold record at hrun
  cases hheld : s.work.get id with
  | none =>
    rw [hheld] at hrun
    cases hrun
  | some held =>
    rw [hheld] at hrun
    dsimp only at hrun
    have htold := correctOne_told s.work.lib t b
      (if x.corrects.isEmpty then [] else s.work.imported) x.corrects
      { object := held, before := b.before }
    generalize x.corrects.foldl (correctOne s.work.lib t b
      (if x.corrects.isEmpty then [] else s.work.imported))
      { object := held, before := b.before } = c at hrun htold
    cases hspans : recordSpans s.work.lib t c.object c.before b.position s.at' s.who.id
        s.who.kind with
    | none =>
      rw [hspans] at hrun
      cases hrun
    | some o =>
      rw [hspans] at hrun
      cases hrun
      have hspanned := recordSpans_kept hspans
      have hid : o.id = id := by
        rw [hspanned.1, htold.1, hs.named id held hheld]
      have hversion : o.version = held.version := by
        rw [hspanned.2.1, htold.2.1]
      have hattrs : o.attrs = held.attrs := by
        rw [hspanned.2.2.2, htold.2.2.2]
      have hplaced := recordRow_placed t xn b c.merged hheld
        (p := { o with version := o.version + 1 }) (hid.trans (hs.named id held hheld).symm) hattrs
      have hrow := World.row_of_get hheld
      have hsome : (s.work.get id).isSome := by
        rw [hheld]
        rfl
      refine ⟨recordLast_sound (hplaced.sound hs) (hplaced.held id ▸ hsome) ?_, ?_⟩
      · rw [hplaced.underway]
        exact hunder
      · exact recordLast_records hplaced (by rw [hrow.1, ← hversion]) (hattrs.trans
          (by rw [World.attrsHeld, hheld]; rfl))

/-! ### One transition -/

section

variable (r : Readers) {below : TakeBelow}
  (hbelow : ∀ tn xn oid inputs, Act.Keeps [] (below tn xn oid inputs))

include hbelow

/-- **A transition is one whole operation** on its object. -/
theorem carryOut_keeps (t : FlowType) (tn xn : String) (x : Transition) (oid : Option String)
    (inputs : Table String Value) (guarded : Guarded) :
    Act.Keeps [] (carryOut r t tn xn x oid inputs guarded below) := by
  intro s root u hrun hs _
  obtain ⟨b, s₁, hbegin, hrest⟩ := Program.bind_ok hrun
  have hb := beginOutcome_begins hs hbegin
  have hunder₁ : b.object.id ∈ s₁.underway := by
    rw [hb.underway]
    exact List.mem_cons_self
  obtain ⟨id, s₂, houtcome, hrest⟩ := Program.bind_ok hrest
  obtain ⟨rfl, hwent₁⟩ := outcome_went hb.sound hunder₁ hb.held hb.began houtcome
  obtain ⟨_, s₃, hfollow, hrest⟩ := Program.bind_ok hrest
  have hwent₂ : Ctx.Went s₂ s₃ := by
    refine followThrough_keeps r hbelow t xn x b.object.id inputs b.position _ _ _ hfollow
      hwent₁.sound fun j hj => ?_
    rw [List.mem_singleton.mp hj, hwent₁.underway]
    exact hunder₁
  obtain ⟨_, s₄, hrecord, hrest⟩ := Program.bind_ok hrest
  cases hrest
  obtain ⟨ctx, hrecorded, hput⟩ := Program.check_bind_ok hrecord
  cases hput
  have hbody := hwent₁.trans hwent₂
  have hunderway₃ : s₃.underway = b.object.id :: s.underway := hbody.underway.trans hb.underway
  obtain ⟨hsound, e, he⟩ := record_records hbody.sound (by
    intro j hj
    rw [hunderway₃] at hj ⊢
    by_cases heq : j = b.object.id
    · exact .inl heq
    · exact .inr (by simpa [heq] using hj)) hrecorded
  have hid : e.objectId = b.object.id := he.objectId
  obtain ⟨es, hadvanced⟩ := hbody.advanced
  refine ⟨hsound, ?_, es ++ [e.entry], ?_⟩
  · intro j hj
    rw [he.held]
    exact hbody.held j (hb.kept j hj)
  · refine hadvanced.operation hb.allocated ?_ ?_ hb.reentered ?_ ?_ ?_ ?_ ?_ ?_ ?_ ?_ ?_ ?_ ?_ ?_
      ?_ ?_
    · show s₁.underway = e.objectId :: s.underway
      rw [hid, hb.underway]
    · exact congrArg (List.map Event.entry) hb.events
    · intro j hj
      exact hb.others j (hid ▸ hj)
    · show (s₁.work.row e.objectId).version = (s.work.row e.objectId).version
      rw [hid, hb.version]
    · exact hb.baseline e.objectId
    · exact he.position.trans hb.position
    · show e.fromState = (s.work.row e.objectId).state
      rw [hid, he.fromState, hb.fromState]
    · show e.objectSeq = (s₃.work.row e.objectId).version + 1
      rw [hid, he.objectSeq]
    · show ctx.events.map Event.entry = s₃.events.map Event.entry ++ [e.entry]
      rw [he.events, List.map_append]
      rfl
    · exact congrArg Counters.position he.alloc
    · show ctx.underway = s.underway
      rw [he.underway, hunderway₃, List.tail_cons]
    · show ctx.reentered = (s₃.reentered || decide (e.objectId ∈ s.underway))
      rw [he.reentered, hunderway₃, List.tail_cons, List.contains_eq_mem, hid]
    · intro j hj
      exact he.others j (hid ▸ hj)
    · show (ctx.work.row e.objectId).version = e.objectSeq
      rw [hid, he.version]
    · show (ctx.work.row e.objectId).state = some e.toState
      rw [hid, he.state]
    · show SameAttrs (replayed (s₃.work.baseline e.objectId) e.payload.wrote)
        (ctx.work.row e.objectId).content
      rw [hid, he.wrote, he.content]
      exact replayed_wroteBetween _ _

end

/-- **Every nesting of transitions goes soundly**, to whatever depth a request
takes them. -/
theorem take_keeps (r : Readers) (left depth : Nat) (tn xn : String) (oid : Option String)
    (inputs : Table String Value) : Act.Keeps [] (take r left depth tn xn oid inputs) := by
  have hcarried := take_passes (Act.goes_walks []) r
    (fun below t tn xn x oid inputs guarded hbelow _ =>
      (carryOut_keeps r (fun tn xn oid inputs s a u hrun =>
        hbelow tn xn oid inputs s a u hrun ⟨trivial, trivial⟩) t tn xn x oid inputs guarded).passes)
    left depth tn xn oid inputs
  exact fun s a t hrun => hcarried s a t hrun ⟨trivial, trivial⟩

end ObjectFlow
