import ObjectFlow.Supersession

/-!
# A transition that names a successor

The transition's object is in its new state before its effect runs, so nothing
the effect takes is superseded by it from then on; what its step names was not
superseded when it began, or is made by the effect.  So the link it writes
brings no chain back, whatever the effect took before it.
-/

namespace ObjectFlow

open Base

/-! ### An object as its outcome leaves it -/

theorem writeInputs_standing {t : FlowType} {inputs : Table String Value} {ks : List String}
    {o o' : Object} (h : writeInputs t inputs ks o = .ok o') : o'.standing = o.standing := by
  induction ks generalizing o with
  | nil =>
      cases h
      rfl
  | cons k rest ih =>
      unfold writeInputs at h
      split at h
      · exact ih h
      · split at h
        · exact ih (o := { o with attrs := Table.erase o.attrs k }) h
        · cases hf : fitted t k _ o.id with
          | error e =>
              rw [hf] at h
              cases h
          | ok v =>
              rw [hf] at h
              exact ih (o := { o with attrs := Table.set o.attrs k v }) h

theorem dated_standing (w : World) (tn : String) (inputs : Table String Value) (now : Int)
    (o : Object) : (dated w tn inputs now o).standing = o.standing := by
  unfold dated
  dsimp only
  split <;> rfl

theorem eraseObject_standing (r : Readers) (t : FlowType) (o : Object) :
    Program.Yields (fun row => row.standing = o.standing) (eraseObject r t o) := by
  refine Program.Yields.bind fun ctx => Program.Yields.bind fun _ => Program.Yields.bind fun _ => ?_
  refine Program.Yields.bind fun _ => Program.Yields.bind fun _ => Program.Yields.pure ?_
  rfl

theorem withAttributeDefaults_standing (r : Readers) (t : FlowType) (inputs : Table String Value)
    (attrs : List (String × Attribute)) (o : Object) {s u : Ctx} {o' : Object}
    (hrun : withAttributeDefaults r t inputs attrs o s = (.ok o', u)) :
    o'.standing = o.standing := by
  induction attrs generalizing o with
  | nil =>
      cases hrun
      rfl
  | cons entry rest ih =>
      obtain ⟨a, spec⟩ := entry
      unfold withAttributeDefaults at hrun
      cases hdefault : spec.default with
      | none =>
        rw [hdefault] at hrun
        exact ih o hrun
      | some d =>
        rw [hdefault] at hrun
        dsimp only at hrun
        obtain ⟨v, -, hgiven⟩ := Program.check_bind_ok hrun
        split at hgiven
        · exact ih o hgiven
        · obtain ⟨v, -, hfitted⟩ := Program.check_bind_ok hgiven
          exact ih { o with attrs := Table.set o.attrs a v } hfitted

/-- The state a transition puts an object into is told by the one it is in. -/
theorem movedTo_state (x : Transition) (inputs : Table String Value) {o o' : Object}
    (h : o'.state = o.state) : (movedTo x inputs o').state = (movedTo x inputs o).state := by
  unfold movedTo
  split <;> first | rfl | exact h

theorem movedTo_standing (x : Transition) (inputs : Table String Value) (o : Object) :
    (movedTo x inputs o).standing =
      (o.id, o.type, (movedTo x inputs o).state, o.supersededBy) := by
  unfold movedTo
  split <;> rfl

/-- What keeps each object once, its library and its ids. -/
def Ctx.Keyed (s t : Ctx) : Prop := (Table.keys s.work.objects).Nodup → Ctx.Kin s t

namespace Ctx

variable {s t u : Ctx}

theorem Keyed.refl (s : Ctx) : Keyed s s := fun hs => ⟨hs, rfl, le_refl _, rfl⟩

theorem Keyed.trans (s t u : Ctx) (h : Keyed s t) (h' : Keyed t u) : Keyed s u :=
  fun hs => (h hs).trans (h' (h hs).single)

theorem insert_keyed (o : Object) : Program.Advances Keyed (Act.insert o) :=
  Program.Advances.modify fun _ hs => Kin.insert hs o rfl rfl

theorem drawNumber_keyed (scope : Scope) : Program.Advances Keyed (drawNumber scope) := by
  intro s n t hrun
  obtain ⟨ctx, s', hctx, hrun⟩ := Program.bind_ok hrun
  cases hctx
  cases hdraw : s.alloc.numbers.draw scope with
  | none =>
    rw [hdraw] at hrun
    cases hrun
  | some drawn =>
    rw [hdraw] at hrun
    cases hrun
    exact fun hs => ⟨hs, rfl, le_refl _, rfl⟩

theorem mintEach_keyed (r : Readers) (t : FlowType) (attrs : List (String × Attribute))
    (o : Object) : Program.Advances Keyed (mintEach r t attrs o) := by
  induction attrs generalizing o with
  | nil => exact Program.Advances.pure Keyed.refl o
  | cons entry rest ih =>
      obtain ⟨a, spec⟩ := entry
      unfold mintEach
      split
      · exact ih o
      · refine Program.Advances.bind Keyed.trans (Program.Advances.check Keyed.refl _) fun _ => ?_
        refine Program.Advances.bind Keyed.trans (drawNumber_keyed _) fun _ => ?_
        refine Program.Advances.bind Keyed.trans (insert_keyed o) fun _ => ?_
        exact Program.Advances.bind Keyed.trans (Program.Advances.check Keyed.refl _) fun _ => ih _

theorem mintedFirst_keyed (r : Readers) (t : FlowType) (created : Bool) (o : Object) :
    Program.Advances Keyed (mintedFirst r t created o) := by
  unfold mintedFirst
  split
  · refine Program.Advances.bind Keyed.trans (mintEach_keyed r t _ o) fun made => ?_
    refine Program.Advances.bind Keyed.trans (insert_keyed made) fun _ => ?_
    exact Program.Advances.pure Keyed.refl made
  · exact Program.Advances.pure Keyed.refl o

end Ctx

theorem mintEach_standing (r : Readers) (t : FlowType) (attrs : List (String × Attribute))
    (o : Object) : Program.Yields (fun o' => o'.standing = o.standing) (mintEach r t attrs o) := by
  induction attrs generalizing o with
  | nil => exact Program.Yields.pure rfl
  | cons entry rest ih =>
      obtain ⟨a, spec⟩ := entry
      unfold mintEach
      split
      · exact ih o
      · refine Program.Yields.bind fun _ => Program.Yields.bind fun _ => ?_
        refine Program.Yields.bind fun _ => Program.Yields.bind fun text => ?_
        exact ih { o with attrs := Table.set o.attrs a (.text text) }

theorem mintedFirst_standing (r : Readers) (t : FlowType) (created : Bool) (o : Object) :
    Program.Yields (fun o' => o'.standing = o.standing) (mintedFirst r t created o) := by
  intro s o' u hrun
  unfold mintedFirst at hrun
  split at hrun
  · obtain ⟨made, s₁, hmint, hrun⟩ := Program.bind_ok hrun
    cases hrun
    exact mintEach_standing r t _ o s _ s₁ hmint
  · cases hrun
    rfl

/-! ### Beginning -/

/-- An object put where one of its successor stood leaves every successor. -/
theorem successor_placed {w w' : World} {id : String} {p : Object}
    (hget : ∀ j, w'.get j = if id = j then some p else w.get j)
    (hlink : (w.get id).bind Object.supersededBy = p.supersededBy) :
    w'.successor = w.successor := by
  funext j
  rw [World.successor, World.successor, hget]
  by_cases hj : id = j
  · rw [if_pos hj, ← hj, hlink]
    rfl
  · rw [if_neg hj]

namespace Ctx

variable {lib : Library} {s u : Ctx}

/-- What a transition's beginning leaves: the object it is of, held as it stood
or made where it had not been, superseded by none. -/
structure Starts (lib : Library) (tn : String) (x : Transition) (oid : Option String) (s u : Ctx)
    (b : Begun) : Prop where
  relinks : Relinks lib s u
  held : ∃ p, u.work.get b.object.id = some p ∧ p.standing = b.object.standing
  taken : ∀ id, oid = some id → b.object.id = id ∧ s.work.get id = some b.object
  made : oid = none → s.work.get b.object.id = none ∧ b.object.type = tn ∧
    b.object.supersededBy = none ∧ x.toStates.head? = some b.object.state
  links : u.work.successor = s.work.successor

/-- A creation makes one object, under an id that was free. -/
theorem createObject_relinks {r : Readers} {t : FlowType} {tn xn : String} {x : Transition}
    {inputs : Table String Value} {o : Object} (hs : s.Chained lib)
    (hrun : createObject r t tn xn x inputs s = (.ok o, u)) :
    Relinks lib s u ∧ u.work.successor = s.work.successor ∧ s.work.get o.id = none ∧
      o.type = tn ∧ o.supersededBy = none ∧ x.toStates.head? = some o.state ∧
      ∃ p, u.work.get o.id = some p ∧ p.standing = o.standing := by
  unfold createObject at hrun
  cases hstate : x.toStates.head? with
  | none =>
    rw [hstate] at hrun
    cases hrun
  | some state =>
    rw [hstate] at hrun
    dsimp only at hrun
    obtain ⟨id, s₁, hid, hmade⟩ := Program.bind_ok hrun
    cases hid
    obtain ⟨ctx, s₂, hctx, hmade⟩ := Program.bind_ok hmade
    cases hctx
    obtain ⟨_, s₃, hinsert, hmade⟩ := Program.bind_ok hmade
    cases hinsert
    obtain ⟨o', s₄, hdefaults, hmade⟩ := Program.bind_ok hmade
    have hstands := withAttributeDefaults_standing r t inputs _ _ hdefaults
    obtain ⟨rfl, -⟩ := withAttributeDefaults_row r t inputs _ _ hdefaults
    cases hmade
    simp only [Object.standing, Prod.mk.injEq] at hstands
    obtain ⟨hid, htype, hstate', hlink⟩ := hstands
    let made : Object :=
      { id := s.alloc.mintId tn (s.alloc.object + 1), type := tn, state, version := 0
        attrs := emptyAttributes t, createdAt := s.at', createdByKind := s.who.kind
        recordedFrom := s.at' }
    have hfree : s.work.get made.id = none := hs.fresh tn _ (Nat.lt_succ_self _)
    have hkin : Kin s { s with work := s.work.insert made } := Kin.insert hs.single made rfl rfl
    refine ⟨Relinks.made (p := made) hs hkin.single hkin.lib hfree rfl rfl ?_ fun j => ?_,
      successor_placed (p := made) (fun j => World.get_insert _ _ _) (by rw [hfree]; rfl),
      hid ▸ hfree, htype, hlink, congrArg some hstate'.symm, made, ?_, ?_⟩
    · intro type n hn
      have hpast : s.alloc.object + 1 < n := hn
      have hne : made.id ≠ s.alloc.mintId type n := by
        intro heq
        have hlast := s.alloc.distinct _ _ _ _ heq
        omega
      refine (World.get_insert _ _ _).trans ?_
      rw [if_neg hne]
      exact hs.fresh type n ((Nat.lt_succ_self _).trans hpast)
    · exact World.get_insert _ _ _
    · rw [hid]
      exact (World.get_insert _ made _).trans (if_pos rfl)
    · simp only [Object.standing, hid, htype, hstate', hlink, made]

theorem beginOutcome_starts {r : Readers} {t : FlowType} {tn xn : String} {x : Transition}
    {oid : Option String} {inputs : Table String Value} {guarded : Guarded} {b : Begun}
    (hs : s.Chained lib) (htyped : Typed s tn oid)
    (hrun : beginOutcome r t tn xn x oid inputs guarded s = (.ok b, u)) :
    Starts lib tn x oid s u b := by
  obtain ⟨ctx, s₁, hctx, hbegun⟩ := Program.bind_ok hrun
  cases hctx
  obtain ⟨position, s₂, hposition, hbegun⟩ := Program.bind_ok hbegun
  cases hposition
  obtain ⟨_, s₃, hnoted, hbegun⟩ := Program.bind_ok hbegun
  cases hnoted
  obtain ⟨object, s₄, hobject, hbegun⟩ := Program.bind_ok hbegun
  cases hbegun
  have hkept : ∀ {s t : Ctx}, s.Chained lib → t.work = s.work → t.alloc.object = s.alloc.object →
      t.alloc.mintId = s.alloc.mintId → Relinks lib s t := fun hs hwork hobject hmint =>
    Relinks.same hs ⟨hwork ▸ hs.single, by rw [hwork], hobject.ge, hmint⟩ fun id => by rw [hwork]
  cases oid with
  | some id =>
      obtain ⟨o, ho, -⟩ := htyped id rfl
      have hfound : s.target (some id) = some o := ho
      rw [hfound] at hobject
      cases hobject
      have hid : object.id = id := hs.named id object ho
      have hget : s.work.get object.id = some object := hid ▸ ho
      refine ⟨hkept hs rfl rfl rfl, ⟨object, hget, rfl⟩, ?_, (fun h => by cases h), rfl⟩
      rintro _ ⟨⟩
      exact ⟨hid, ho⟩
  | none =>
      have hdrawn := hkept (t := { s with
          alloc := { s.alloc with position := s.alloc.position + 1 }
          causes := (s.alloc.position + 1) :: s.causes
          readings := Table.set s.readings (s.alloc.position + 1) guarded.read
          observed := s.observed ++ observedRows tn xn none (s.alloc.position + 1) guarded.failed })
        hs rfl rfl rfl
      obtain ⟨hmade, hlinks, hfree, htype, hlink, hstate, hheld⟩ :=
        createObject_relinks hdrawn.chained hobject
      have hlast := hkept (t := { s₄ with underway := object.id :: s₄.underway })
        hmade.chained rfl rfl rfl
      exact ⟨(hdrawn.trans hmade).trans hlast, hheld, fun _ h => (by cases h),
        fun _ => ⟨hfree, htype, hlink, hstate⟩, hlinks⟩

/-! ### The outcome -/

/-- What an outcome leaves of its object before its effect: as it was begun,
but in the state it is moved to. -/
structure Settles (lib : Library) (x : Transition) (inputs : Table String Value) (s u : Ctx)
    (o : Object) : Prop where
  relinks : Relinks lib s u
  placed : ∃ p, u.work.get o.id = some p ∧
    p.standing = (o.id, o.type, (movedTo x inputs o).state, o.supersededBy)
  links : x.kind ≠ .erasure → u.work.successor = s.work.successor

theorem outcome_settles {m : MetricReader} (hlib : lib.Superseding m) {r : Readers} {t : FlowType}
    {tn xn : String} {x : Transition} {inputs : Table String Value} {b : Begun} {id : String}
    (hs : s.Chained lib) (hheld : ∃ p, s.work.get b.object.id = some p ∧
      p.standing = b.object.standing)
    (hmoved : s.work.supersedes b.object = true →
      (movedTo x inputs b.object).state = b.object.state)
    (hrun : outcome r t tn xn x inputs b s = (.ok id, u)) :
    id = b.object.id ∧ Settles lib x inputs s u b.object := by
  obtain ⟨held, hheld, hstands⟩ := hheld
  obtain ⟨o₁, s₁, herased, hrest⟩ := Program.bind_ok hrun
  have hrelinks : Relinks lib s s₁ := by
    unfold erasedFirst at herased
    split at herased
    · exact eraseObject_relinks hlib r t _ s o₁ s₁ herased hs
    · cases herased
      exact Relinks.refl hs
  have hrow₁ : o₁.standing = b.object.standing := by
    unfold erasedFirst at herased
    split at herased
    · exact eraseObject_standing r t b.object s o₁ s₁ herased
    · cases herased
      rfl
  obtain ⟨o₂, hwritten, hrest⟩ := Program.check_bind_ok hrest
  have hrow₂ := writeInputs_standing hwritten
  obtain ⟨_, s₂, hnoted, hrest⟩ := Program.bind_ok hrest
  cases hnoted
  obtain ⟨o₃, s₃, hminted, hrest⟩ := Program.bind_ok hrest
  have hrow₃ := mintedFirst_standing r t _ o₂ _ _ _ hminted
  obtain ⟨hinserted, -⟩ := mintedFirst_inserted r t _ o₂ hminted
  have hkeyed := mintedFirst_keyed r t _ o₂ _ _ _ hminted hrelinks.chained.single
  obtain ⟨ctx, s₄, hctx, hrest⟩ := Program.bind_ok hrest
  cases hctx
  obtain ⟨_, s₅, hlast, hrest⟩ := Program.bind_ok hrest
  cases hlast
  cases hrest
  generalize hrow₄ : (if t.observationOn.isSome && xn = "record" then
    dated s₃.work tn inputs s₃.at' o₃ else o₃) = o₄
  have hsame : o₄.standing = o₃.standing := by
    rw [← hrow₄]
    split
    · exact dated_standing _ _ _ _ _
    · rfl
  have hstanding : o₄.standing =
      (b.object.id, b.object.type, (movedTo x inputs b.object).state, b.object.supersededBy) := by
    rw [hsame, hrow₃, hrow₂, movedTo_standing]
    simp only [Object.standing, Prod.mk.injEq] at hrow₁ ⊢
    obtain ⟨hid, htype, hstate, hlink⟩ := hrow₁
    exact ⟨hid, htype, movedTo_state x inputs hstate, hlink⟩
  have hid₄ : o₄.id = b.object.id := congrArg Prod.fst hstanding
  have hid₂ : o₂.id = b.object.id :=
    (congrArg Prod.fst (hsame.trans hrow₃)).symm.trans hid₄
  have hget : ∀ j, (s₃.work.insert o₄).get j =
      if b.object.id = j then some o₄ else s₁.work.get j := by
    intro j
    rw [World.get_insert, hid₄]
    split
    case isTrue => rfl
    case isFalse hj => exact hinserted.others j (by rw [hid₂]; exact Ne.symm hj)
  have htag : o₄.tag = held.tag := by
    simp only [Object.standing, Prod.mk.injEq] at hstanding hstands
    exact Prod.ext (hstanding.1.trans hstands.1.symm) (hstanding.2.1.trans hstands.2.1.symm)
  simp only [Object.standing, Prod.mk.injEq] at hstands
  obtain ⟨hidHeld, htypeHeld, hstateHeld, hlinkHeld⟩ := hstands
  have hrow := hstanding
  simp only [Object.standing, Prod.mk.injEq] at hrow
  obtain ⟨-, -, hstate₄, hlink₄⟩ := hrow
  have hlast : Kin s₃ { s₃ with work := s₃.work.insert o₄ } :=
    Kin.insert hkeyed.single o₄ rfl rfl
  have hkin : Kin s₁ { s₃ with work := s₃.work.insert o₄ } :=
    ⟨hlast.single, hlast.lib.trans hkeyed.lib, hkeyed.object.trans hlast.object,
      hlast.mintId.trans hkeyed.mintId⟩
  refine ⟨hid₄, Relinks.placed hs hrelinks hkin hheld htag
    (hlink₄.trans hlinkHeld.symm) (fun hends => ?_) hget, ⟨o₄, ?_, hstanding⟩, fun hkind => ?_⟩
  · rw [hstate₄, hstateHeld]
    refine hmoved ?_
    rw [World.supersedes, htypeHeld, hstateHeld] at hends
    exact hends
  · exact (hget _).trans (if_pos rfl)
  · have hsame₁ : s₁ = s := by
      unfold erasedFirst at herased
      rw [if_neg hkind] at herased
      cases herased
      rfl
    refine successor_placed (hsame₁ ▸ hget) ?_
    rw [hheld]
    exact (hlink₄.trans hlinkHeld.symm).symm

end Ctx

end ObjectFlow
