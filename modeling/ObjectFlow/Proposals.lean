import ObjectFlow.Commit

/-!
# What a request does to the proposals

A request takes no transition of a proposal, which declares none: it invalidates
those pending on an object it erases, and redacts others.  Of each proposal held
as it began, it leaves the state as it was, or has moved it once, from pending
to invalidated, by one event.
-/

namespace ObjectFlow

open Base

/-! ### The built-in type -/

/-- The built-in type of a proposal.  Its transitions are the store's own, not
declared here. -/
def proposalType : FlowType where
  name := PROPOSAL
  attributes :=
    -- none for a proposed creation
    [("target", { declared := .scalar (.named "string"), optional := true }),
      ("target_type", { declared := .scalar (.named "string") }),
      ("transition", { declared := .scalar (.named "string") }),
      ("inputs", { declared := .scalar (.named "string") }),
      ("proposer", { declared := .scalar (.named "string") }),
      ("context", { declared := .scalar (.named "string"), optional := true }),
      ("occurred", { declared := .scalar (.named "timestamp"), optional := true }),
      ("filed_at", { declared := .scalar (.named "timestamp") }),
      ("expires_at", { declared := .scalar (.named "timestamp"), optional := true })]
  states :=
    [("PENDING", { category := "live" }),
      ("EXECUTED", { category := "closed", isFinal := true, acts := false }),
      ("REJECTED", { category := "closed", isFinal := true, acts := false }),
      ("WITHDRAWN", { category := "closed", isFinal := true, acts := false }),
      ("INVALIDATED", { category := "closed", isFinal := true, acts := false })]

/-- What the checker and the built-in types promise of a store's libraries:
each declares the built-in proposal, which nothing extends and none moves
objects into, and no erasure is named as the store's own redactions are. -/
structure World.BuiltIn (w : World) : Prop where
  declared : w.lib.type? PROPOSAL = some proposalType
  named : ∀ entry ∈ w.lib.types, entry.2.name = PROPOSAL → entry.2 = proposalType
  transitions : ∀ version t, (w.libraryAt version).type? PROPOSAL = some t → t.transitions = []
  unextended : ∀ tn, w.lib.isA tn PROPOSAL = true → tn = PROPOSAL
  unmoved : w.movedInto PROPOSAL = false
  redact : ∀ tn t x, w.lib.type? tn = some t → t.transition? "redact" = some x →
    x.kind ≠ .erasure

/-- Whether an object is a proposal. -/
def World.proposal (w : World) (id : String) : Prop :=
  ∃ p, w.get id = some p ∧ p.type = PROPOSAL

/-- A proposal extends nothing. -/
theorem World.BuiltIn.isA {w : World} (h : w.BuiltIn) {tn : String}
    (hisA : w.lib.isA PROPOSAL tn = true) : tn = PROPOSAL := by
  have hbases : w.lib.bases PROPOSAL = [] := by
    unfold Library.bases
    rw [h.declared]
    cases w.lib.types.length <;> rfl
  rw [Library.isA, hbases] at hisA
  simpa [eq_comm] using hisA

/-- A type with a transition is not the proposal's. -/
theorem World.BuiltIn.declares {w : World} (h : w.BuiltIn) {tn xn : String} {t : FlowType}
    {x : Transition} (htype : w.lib.type? tn = some t) (hx : t.transition? xn = some x) :
    tn ≠ PROPOSAL := by
  rintro rfl
  rw [h.declared] at htype
  cases htype
  cases hx

theorem World.BuiltIn.congr {w w' : World} (h : w.BuiltIn) (hlib : w'.lib = w.lib)
    (hearlier : w'.earlier = w.earlier) : w'.BuiltIn where
  declared := hlib ▸ h.declared
  named := hlib ▸ h.named
  transitions := by
    intro version t ht
    rw [World.libraryAt, hlib, hearlier] at ht
    exact h.transitions version t ht
  unextended := hlib ▸ h.unextended
  unmoved := by
    rw [World.movedInto, hlib, hearlier]
    exact h.unmoved
  redact := hlib ▸ h.redact

/-- What a proposal proposes: its object, or the type of one to create, and the
transition. -/
def Object.proposes (o : Object) : Value × Value × Value :=
  (o.attr "target", o.attr "target_type", o.attr "transition")

/-- An event that moves an object held from one state to another. -/
def Event.moves (e : Event) (id : String) : Bool :=
  e.objectId = id && e.changesState && e.fromState.isSome

/-- The event of an erasure on its own object, no redaction of another's. -/
def Event.erases (e : Event) (id : String) : Bool :=
  e.objectId = id && e.source = "erased" && e.transition ≠ "redact"

/-- What events leave of a proposal: as it stood, or invalidated by one of
them, its object erased by another or by an erasure under way. -/
inductive Moved (erasing : List String) (id : String) (new : List Event) (p p' : Object) : Prop
  | stayed (none : new.filter (·.moves id) = []) (state : p'.state = p.state)
  | invalidated (e : Event) (target : String) (one : new.filter (·.moves id) = [e])
      (pending : p.state = "PENDING") (state : p'.state = "INVALIDATED")
      (source : e.fromState = some "PENDING") (entered : e.toState = "INVALIDATED")
      (named : e.transition = "invalidate") (proposed : p.attr "target" = .text target)
      (erased : target ∈ erasing ∨ ∃ f ∈ new, f.erases target = true)

/-- One event that does not move a proposal. -/
theorem Moved.apart {erasing : List String} {id : String} {e : Event} {p p' : Object}
    (h : e.moves id = false) (hstate : p'.state = p.state) : Moved erasing id [e] p p' := by
  refine .stayed ?_ hstate
  rw [List.filter_cons_of_neg (by simp [h]), List.filter_nil]

/-- One event that invalidates a proposal. -/
theorem Moved.single {erasing : List String} {id : String} {e : Event} {p p' : Object}
    {target : String} (h : e.moves id = true) (hpending : p.state = "PENDING")
    (hstate : p'.state = "INVALIDATED") (hfrom : e.fromState = some "PENDING")
    (hentered : e.toState = "INVALIDATED") (hnamed : e.transition = "invalidate")
    (hproposed : p.attr "target" = .text target) (hunder : target ∈ erasing) :
    Moved erasing id [e] p p' := by
  have hone : [e].filter (·.moves id) = [e] := List.filter_cons_of_pos h
  exact .invalidated e target hone hpending hstate hfrom hentered hnamed hproposed (.inl hunder)

theorem Moved.trans {erasing : List String} {id : String} {first last : List Event}
    {p q r : Object} (hproposes : q.proposes = p.proposes) (h : Moved erasing id first p q)
    (h' : Moved erasing id last q r) : Moved erasing id (first ++ last) p r := by
  have htarget : q.attr "target" = p.attr "target" := congrArg Prod.fst hproposes
  cases h with
  | stayed hnone hstate =>
    cases h' with
    | stayed hnone' hstate' =>
      refine .stayed ?_ (hstate'.trans hstate)
      rw [List.filter_append, hnone, hnone', List.append_nil]
    | invalidated e target hone hpending hstate' hfrom hentered hnamed hproposed herased =>
      refine .invalidated e target ?_ (hstate ▸ hpending) hstate' hfrom hentered hnamed
        (htarget ▸ hproposed) ?_
      · rw [List.filter_append, hnone, hone, List.nil_append]
      · rcases herased with hunder | ⟨f, hf, herases⟩
        · exact .inl hunder
        · exact .inr ⟨f, List.mem_append_right _ hf, herases⟩
  | invalidated e target hone hpending hstate hfrom hentered hnamed hproposed herased =>
    cases h' with
    | stayed hnone' hstate' =>
      refine .invalidated e target ?_ hpending (hstate'.trans hstate) hfrom hentered hnamed
        hproposed ?_
      · rw [List.filter_append, hone, hnone', List.append_nil]
      · rcases herased with hunder | ⟨f, hf, herases⟩
        · exact .inl hunder
        · exact .inr ⟨f, List.mem_append_left _ hf, herases⟩
    | invalidated e' target' hone' hpending' =>
      rw [hstate] at hpending'
      exact absurd hpending' (by decide)

/-- An erasure whose event is recorded is no longer under way. -/
theorem Moved.recorded {erased id : String} {erasing : List String} {new : List Event}
    {p q : Object} {f : Event} (h : Moved (erased :: erasing) id new p q) (hf : f ∈ new)
    (herases : f.erases erased = true) : Moved erasing id new p q := by
  cases h with
  | stayed hnone hstate => exact .stayed hnone hstate
  | invalidated e target hone hpending hstate hfrom hentered hnamed hproposed herased =>
    refine .invalidated e target hone hpending hstate hfrom hentered hnamed hproposed ?_
    rcases herased with hunder | hrecorded
    · rcases List.mem_cons.mp hunder with rfl | hunder
      · exact .inr ⟨f, hf, herases⟩
      · exact .inl hunder
    · exact .inr hrecorded

theorem Moved.mono {erasing erasing' : List String} {id : String} {new : List Event}
    {p q : Object} (h : Moved erasing id new p q) (hsub : erasing ⊆ erasing') :
    Moved erasing' id new p q := by
  cases h with
  | stayed hnone hstate => exact .stayed hnone hstate
  | invalidated e target hone hpending hstate hfrom hentered hnamed hproposed herased =>
    exact .invalidated e target hone hpending hstate hfrom hentered hnamed hproposed
      (herased.imp_left fun h => hsub h)

namespace Ctx

/-! ### What holds throughout -/

/-- The working copy of a request on the world given: its objects stand under
their ids, once, no id still to be minted is held, its proposals are the
world's, and nothing is to be cleared on one. -/
structure Minds (w : World) (s : Ctx) : Prop where
  named : ∀ id o, s.work.get id = some o → o.id = id
  single : (Table.keys s.work.objects).Nodup
  fresh : ∀ type n, s.alloc.object < n → s.work.get (s.alloc.mintId type n) = none
  lib : s.work.lib = w.lib
  earlier : s.work.earlier = w.earlier
  kept : ∀ id, w.proposal id → s.work.proposal id
  only : ∀ id, s.work.proposal id → w.proposal id
  cleared : ∀ entry ∈ s.cleared, ¬ w.proposal entry.1

/-- The object a transition is taken of is of its type. -/
def Typed (s : Ctx) (tn : String) (oid : Option String) : Prop :=
  ∀ id, oid = some id → ∃ o, s.work.get id = some o ∧ s.work.lib.isA o.type tn = true

/-- What a part of a request does to the world's proposals, while objects are
being erased. -/
structure Moves (w : World) (erasing : List String) (s t : Ctx) : Prop where
  minds : t.Minds w
  typed : ∀ id o, s.work.get id = some o → ∃ o', t.work.get id = some o' ∧ o'.type = o.type
  moved : ∃ new, t.events = s.events ++ new ∧
    ∀ id p, s.work.get id = some p → p.type = PROPOSAL → ∃ p', t.work.get id = some p' ∧
      p'.proposes = p.proposes ∧ Moved erasing id new p p'

theorem Moves.trans {w : World} {erasing : List String} {s t u : Ctx} (h : Moves w erasing s t) (h' : Moves w erasing t u) : Moves w erasing s u where
  minds := h'.minds
  typed := by
    intro id o ho
    obtain ⟨o', ho', htype⟩ := h.typed id o ho
    obtain ⟨o'', ho'', htype'⟩ := h'.typed id o' ho'
    exact ⟨o'', ho'', htype'.trans htype⟩
  moved := by
    obtain ⟨first, hfirst, hmoved⟩ := h.moved
    obtain ⟨last, hlast, hmoved'⟩ := h'.moved
    refine ⟨first ++ last, by rw [hlast, hfirst, List.append_assoc], fun id p hp htype => ?_⟩
    obtain ⟨q, hq, hproposes, hpq⟩ := hmoved id p hp htype
    obtain ⟨q', hq', hsame⟩ := h.typed id p hp
    rw [hq] at hq'
    cases hq'
    obtain ⟨r, hr, hproposes', hqr⟩ := hmoved' id q hq (hsame.trans htype)
    exact ⟨r, hr, hproposes'.trans hproposes, hpq.trans hproposes hqr⟩

/-- Objects rewritten each under its id and its type are minded still. -/
theorem Minds.rewritten {w : World} {s t : Ctx} (hs : s.Minds w)
    (htags : ∀ id, (t.work.get id).map Object.tag = (s.work.get id).map Object.tag)
    (hsingle : (Table.keys t.work.objects).Nodup) (hlib : t.work.lib = s.work.lib)
    (hearlier : t.work.earlier = s.work.earlier) (hobject : s.alloc.object ≤ t.alloc.object)
    (hmintId : t.alloc.mintId = s.alloc.mintId)
    (hcleared : ∀ entry ∈ t.cleared, ¬ w.proposal entry.1) : t.Minds w := by
  have hback : ∀ id o, t.work.get id = some o → ∃ o', s.work.get id = some o' ∧
      o'.id = o.id ∧ o'.type = o.type := by
    intro id o ho
    have htag := htags id
    rw [ho] at htag
    obtain ⟨o', ho', heq⟩ := Option.map_eq_some_iff.mp htag.symm
    exact ⟨o', ho', congrArg Prod.fst heq, congrArg Prod.snd heq⟩
  refine
    { named := ?_
      single := hsingle
      fresh := ?_
      lib := hlib.trans hs.lib
      earlier := hearlier.trans hs.earlier
      kept := ?_
      only := ?_
      cleared := hcleared }
  · intro id o ho
    obtain ⟨o', ho', hid, -⟩ := hback id o ho
    exact hid ▸ hs.named id o' ho'
  · intro type n hn
    have hnone := hs.fresh type n (lt_of_le_of_lt hobject hn)
    have htag := htags (s.alloc.mintId type n)
    rw [hnone] at htag
    rw [hmintId]
    exact Option.map_eq_none_iff.mp htag
  · intro id hid
    obtain ⟨p, hp, htype⟩ := hs.kept id hid
    have htag := htags id
    rw [hp] at htag
    obtain ⟨p', hp', heq⟩ := Option.map_eq_some_iff.mp htag
    exact ⟨p', hp', (congrArg Prod.snd heq).trans htype⟩
  · rintro id ⟨p, hp, htype⟩
    obtain ⟨p', hp', -, hsame⟩ := hback id p hp
    exact hs.only id ⟨p', hp', hsame.trans htype⟩

/-- A part that records no event leaves the proposals as they are. -/
theorem Moves.unrecorded {w : World} {erasing : List String} {s t : Ctx} (hs : s.Minds w)
    (hminds : t.Minds w) (hevents : t.events = s.events)
    (hkept : ∀ id o, s.work.get id = some o → ∃ o', t.work.get id = some o' ∧ o'.type = o.type ∧
      (w.proposal id → o'.state = o.state ∧ o'.proposes = o.proposes)) :
    Moves w erasing s t where
  minds := hminds
  typed := fun id o ho => by
    obtain ⟨o', ho', htype, -⟩ := hkept id o ho
    exact ⟨o', ho', htype⟩
  moved := by
    refine ⟨[], by rw [hevents, List.append_nil], fun id p hp htype => ?_⟩
    obtain ⟨p', hp', -, hsame⟩ := hkept id p hp
    obtain ⟨hstate, hproposes⟩ := hsame (hs.only id ⟨p, hp, htype⟩)
    exact ⟨p', hp', hproposes, .stayed rfl hstate⟩

theorem Minds.beside {w : World} {cleared : List (String × String × Int)} {s t : Ctx}
    (hs : s.Minds w) (h : Beside cleared s t) (hcleared : ∀ entry ∈ cleared, ¬ w.proposal entry.1) :
    t.Minds w :=
  hs.rewritten (fun id => by rw [h.work]) (h.work ▸ hs.single) (by rw [h.work]) (by rw [h.work])
    h.object.ge h.mintId fun entry hentry => hcleared entry (h.cleared ▸ hentry)

theorem Moves.beside {w : World} {erasing : List String} {cleared : List (String × String × Int)}
    {s t : Ctx} (hs : s.Minds w) (h : Beside cleared s t)
    (hcleared : ∀ entry ∈ cleared, ¬ w.proposal entry.1) : Moves w erasing s t :=
  Moves.unrecorded hs (hs.beside h hcleared) h.events fun id o ho =>
    ⟨o, by rw [h.work, ho], rfl, fun _ => ⟨rfl, rfl⟩⟩

theorem Moves.refl {w : World} {erasing : List String} {s : Ctx} (hs : s.Minds w) :
    Moves w erasing s s :=
  Moves.beside hs (Aside.refl s) hs.cleared

/-- What a request does to the proposals is walked through it. -/
theorem moves_walks (w : World) (erasing : List String) :
    Walks (Minds w) Typed (Moves w erasing) where
  refl := Moves.refl
  trans := Moves.trans
  aside := fun hs h => Moves.beside hs h hs.cleared
  holds := fun _ h => h.minds
  taken := by
    intro s t tn oid hs h htyped id hid
    obtain ⟨o, ho, hisA⟩ := htyped id hid
    obtain ⟨o', ho', htype⟩ := h.typed id o ho
    refine ⟨o', ho', ?_⟩
    rw [h.minds.lib, htype, ← hs.lib]
    exact hisA
  creating := fun _ id hid => by cases hid
  calling := by
    rintro s id o - ho id' hid
    cases hid
    exact ⟨o, ho, Library.isA_self _ _⟩
  holding := by
    rintro s o tn hs hmem hisA id hid
    cases hid
    obtain ⟨⟨k, o'⟩, hentry, rfl⟩ := List.mem_map.mp hmem
    have hget : s.work.get k = some o' := Table.get?_of_mem hs.single hentry
    refine ⟨o', ?_, hisA⟩
    rw [hs.named k o' hget]
    exact hget

/-! ### The steps that write an object -/

/-- An object written in place. -/
theorem Minds.change {w : World} {s t : Ctx} (hs : s.Minds w) {id : String} {f : Object → Object}
    (hwork : t.work = s.work.change id f) (htag : ∀ o, (f o).tag = o.tag)
    (halloc : t.alloc = s.alloc) (hcleared : t.cleared = s.cleared) : t.Minds w := by
  refine hs.rewritten ?_ ?_ ?_ ?_ (by rw [halloc]) (by rw [halloc]) (hcleared ▸ hs.cleared)
  · intro j
    rw [hwork, World.get_change]
    split
    · rw [Option.map_map]
      exact congrArg (Option.map · _) (funext htag)
    · rfl
  · rw [hwork]
    unfold World.change
    cases s.work.get id with
    | none => exact hs.single
    | some o => exact Table.nodup_keys_put _ _ hs.single
  · rw [hwork]
    unfold World.change World.markWritten World.keepWritten
    cases s.work.get id with
    | none => rfl
    | some o =>
      dsimp only
      split <;> rfl
  · rw [hwork]
    unfold World.change World.markWritten World.keepWritten
    cases s.work.get id with
    | none => rfl
    | some o =>
      dsimp only
      split <;> rfl

/-- An object written in place, whose state and what it proposes it keeps where
it is a proposal. -/
theorem Moves.change {w : World} {erasing : List String} {s t : Ctx} (hs : s.Minds w)
    {id : String} {f : Object → Object} (hwork : t.work = s.work.change id f)
    (htag : ∀ o, (f o).tag = o.tag) (halloc : t.alloc = s.alloc)
    (hcleared : t.cleared = s.cleared) (hevents : t.events = s.events)
    (hkept : w.proposal id → ∀ o, (f o).state = o.state ∧ (f o).proposes = o.proposes) :
    Moves w erasing s t := by
  refine Moves.unrecorded hs (hs.change hwork htag halloc hcleared) hevents fun j o ho => ?_
  rw [hwork, World.get_change, ho]
  split
  case isTrue hj => exact ⟨f o, rfl, congrArg Prod.snd (htag o), fun hp => hkept (hj ▸ hp) o⟩
  case isFalse => exact ⟨o, rfl, rfl, fun _ => ⟨rfl, rfl⟩⟩

theorem lib_insert (w : World) (o : Object) :
    (w.insert o).lib = w.lib ∧ (w.insert o).earlier = w.earlier := by
  unfold World.insert World.markWritten World.keepWritten
  split <;> exact ⟨rfl, rfl⟩

/-- An event recorded apart on an object held. -/
theorem Moves.recordApart {w : World} {erasing : List String} {s : Ctx} (hs : s.Minds w)
    {id : String} {held p : Object} (hheld : s.work.get id = some held) (htag : p.tag = held.tag)
    (event : Object → Table String Value → Event)
    (hevent : ∀ o wrote, o.id = p.id → (event o wrote).objectId = id)
    (hmoved : w.proposal id → p.proposes = held.proposes ∧ ∀ o wrote, o.state = p.state →
      o.id = p.id → Moved erasing id [event o wrote] held o) :
    Moves w erasing s (s.drawn.recordApart p held.attrs event) := by
  have hid : p.id = id := (congrArg Prod.fst htag).trans (hs.named id held hheld)
  have hget : ∀ j, (s.drawn.recordApart p held.attrs event).work.get j =
      if id = j then some { p with version := p.version + 1 } else s.work.get j := by
    intro j
    rw [recordApart_get, hid]
    rfl
  have hwork : (s.drawn.recordApart p held.attrs event).work.objects =
      Table.put s.work.objects p.id { p with version := p.version + 1 } := by
    show ((World.insert _ _).objects) = _
    unfold World.insert World.markWritten World.keepWritten
    split <;> rfl
  have hlib : (s.drawn.recordApart p held.attrs event).work.lib = s.work.lib :=
    (lib_insert _ _).1
  have hearlier : (s.drawn.recordApart p held.attrs event).work.earlier = s.work.earlier :=
    (lib_insert _ _).2
  have hminds : (s.drawn.recordApart p held.attrs event).Minds w := by
    refine hs.rewritten (fun j => ?_) (hwork ▸ Table.nodup_keys_put _ _ hs.single)
      hlib hearlier (le_refl _) rfl hs.cleared
    rw [hget]
    split
    case isTrue hj =>
      rw [← hj, hheld]
      exact congrArg some htag
    case isFalse => rfl
  obtain ⟨e, hrecorded, hobject, hstep⟩ : ∃ e,
      (s.drawn.recordApart p held.attrs event).events = s.events ++ [e] ∧ e.objectId = id ∧
        (w.proposal id → p.proposes = held.proposes ∧
          Moved erasing id [e] held { p with version := p.version + 1 }) :=
    ⟨_, rfl, hevent { p with version := p.version + 1 } _ rfl, fun hp =>
      ⟨(hmoved hp).1, (hmoved hp).2 { p with version := p.version + 1 } _ rfl rfl⟩⟩
  refine ⟨hminds, fun j o ho => ?_, [e], hrecorded, fun j o ho htype => ?_⟩
  · rw [hget]
    split
    case isTrue hj =>
      rw [← hj, hheld] at ho
      cases ho
      exact ⟨_, rfl, congrArg Prod.snd htag⟩
    case isFalse => exact ⟨o, ho, rfl⟩
  · rw [hget]
    split
    case isTrue hj =>
      subst hj
      rw [hheld] at ho
      cases ho
      obtain ⟨hproposes, hmoved'⟩ := hstep (hs.only id ⟨held, hheld, htype⟩)
      exact ⟨_, rfl, hproposes, hmoved'⟩
    case isFalse hj =>
      refine ⟨o, ho, rfl, .apart ?_ rfl⟩
      rw [Event.moves, hobject]
      simp [hj]

/-- A redaction of an object leaves its state, and what a proposal proposes. -/
theorem Moves.redacted {w : World} {erasing : List String} {s : Ctx} (hs : s.Minds w) {id : String}
    {held p : Object} (hheld : s.work.get id = some held) (htag : p.tag = held.tag)
    (hstate : p.state = held.state) (hproposes : w.proposal id → p.proposes = held.proposes)
    (redacted : List String) : Moves w erasing s (s.drawn.recordApart p held.attrs
      (s.drawn.redactEvent redacted (s.alloc.position + 1))) := by
  have hid : p.id = id := (congrArg Prod.fst htag).trans (hs.named id held hheld)
  refine Moves.recordApart hs hheld htag _ (fun o wrote ho => ho.trans hid) fun hp =>
    ⟨hproposes hp, fun o wrote ho _ => .apart ?_ (ho.trans hstate)⟩
  simp [Event.moves, redactEvent, erasedEvent]

end Ctx

/-! ### What flows down into other objects -/

/-- Nothing to be cleared on a proposal. -/
def Redactions.Apart (w : World) (r : Redactions) : Prop :=
  ∀ entry ∈ r.cleared, ¬ w.proposal entry.1

theorem Redactions.Apart.append {w : World} {r s : Redactions} (hr : r.Apart w)
    (hs : s.Apart w) : (r.append s).Apart w := by
  intro entry hentry
  rcases List.mem_append.mp hentry with h | h
  · exact hr entry h
  · exact hs entry h

theorem apart_empty (w : World) : Redactions.Apart w {} := by
  intro entry hentry
  cases hentry

theorem apart_foldl {α : Type} {w : World} {f : Redactions → α → Redactions}
    (hf : ∀ r a, r.Apart w → (f r a).Apart w) (as : List α) {r : Redactions} (hr : r.Apart w) :
    (as.foldl f r).Apart w := by
  induction as generalizing r with
  | nil => exact hr
  | cons a rest ih => exact ih (hf r a hr)

/-- No event of a proposal carries a value on: no version declares it a
transition. -/
theorem walkDown_apart {w : World} (hbuilt : w.BuiltIn)
    (hnamed : ∀ id o, w.get id = some o → o.id = id) (fuel : Nat) (e : Event)
    (tainted holding : List String) : (walkDown w fuel e tainted holding).Apart w := by
  induction fuel generalizing e tainted holding with
  | zero => exact apart_empty w
  | succ fuel ih =>
      unfold walkDown
      dsimp only
      split
      · exact apart_empty w
      refine apart_foldl (fun r f hr => ?_) _ (apart_empty w)
      split
      · exact hr
      case h_2 p hp =>
        split
        · exact hr
        case h_2 pt hpt =>
          split
          · exact hr
          case h_2 px hpx =>
            have hnot : ¬ w.proposal p.id := by
              rintro ⟨q, hq, htype⟩
              rw [hnamed _ _ hp, hp] at hq
              cases hq
              rw [World.objectTypeThen, htype, hbuilt.unmoved] at hpt
              rw [FlowType.transition?, hbuilt.transitions _ _ hpt] at hpx
              cases hpx
            have hinto : ∀ passed under type,
                (flowedInto w f p pt px under type passed).1.Apart w := by
              intro passed under type entry hentry
              obtain ⟨a, -, ha⟩ := List.mem_filterMap.mp hentry
              obtain ⟨now, -, hcleared⟩ := Option.bind_eq_some_iff.mp ha
              split at hcleared
              · cases hcleared
                exact hnot
              · cases hcleared
            split
            · exact hr.append (hinto _ _ _)
            · exact (hr.append (hinto _ _ _)).append (ih _ _ _)

theorem ownRedactions_apart {w : World} (hbuilt : w.BuiltIn)
    (hnamed : ∀ id o, w.get id = some o → o.id = id) (t : FlowType) (o : Object)
    (own : List Event) (erased holding : List String) (e : Event) :
    (ownRedactions w t o own erased holding e).Apart w := by
  unfold ownRedactions
  dsimp only
  split
  · exact apart_empty w
  · refine ((apart_empty w).append (walkDown_apart hbuilt hnamed _ _ _ _)).append ?_
    exact apart_empty w

/-- **An erasure clears nothing on a proposal.** -/
theorem erasureRedacts_apart {w : World} (hbuilt : w.BuiltIn)
    (hnamed : ∀ id o, w.get id = some o → o.id = id) (t : FlowType) (o : Object) :
    (erasureRedacts w t o).Apart w :=
  apart_foldl (fun _ _ hr => hr.append (ownRedactions_apart hbuilt hnamed _ _ _ _ _ _)) _
    (apart_empty w)

/-! ### What an erasure records on other objects -/

namespace Ctx

section

variable {w : World} {erasing : List String}

theorem Minds.builtIn {s : Ctx} (hs : s.Minds w) (hbuilt : w.BuiltIn) : s.work.BuiltIn :=
  hbuilt.congr hs.lib hs.earlier

/-- What a walk down cleared of another object is redacted on it, which is no
proposal. -/
theorem redactedOther_moves (c s : Ctx) (id : String) (held : Object)
    (flowed : List (String × Int)) (redacted : List String) (hc : c.Minds w) (hs : s.Minds w)
    (hheld : s.work.get id = some held) (hflowed : ∀ f ∈ flowed, (id, f) ∈ c.cleared) :
    Moves w erasing s (s.drawn.recordApart
      (clearFlowed (s.work.lib.type? held.type) held flowed) held.attrs
      (s.drawn.redactEvent redacted (s.alloc.position + 1))) := by
  have htag : (clearFlowed (s.work.lib.type? held.type) held flowed).tag = held.tag := by
    have hkept := clearFlowed_kept (s.work.lib.type? held.type) held flowed
    exact Prod.ext hkept.1 (clearFlowed_type _ _ _)
  refine Moves.redacted hs hheld htag (clearFlowed_kept _ _ _).2.2 (fun hp => ?_) redacted
  cases flowed with
  | nil => rfl
  | cons f rest => exact absurd hp (hc.cleared (id, f) (hflowed f List.mem_cons_self))

/-- A label's note is redacted, no proposal's. -/
theorem redactedNote_moves (hbuilt : w.BuiltIn) (s : Ctx) (l : String) (held : Object) (hs : s.Minds w)
    (hlabel : Typed s LABEL (some l)) (hheld : s.work.get l = some held) :
    Moves w erasing s (s.drawn.recordApart { held with attrs := Table.erase held.attrs "note" }
      held.attrs (s.drawn.redactEvent ["note"] (s.alloc.position + 1))) := by
  have hnot : ¬ w.proposal l := ?_
  · exact Moves.redacted (p := { held with attrs := Table.erase held.attrs "note" }) hs hheld rfl
      rfl (fun hp => absurd hp hnot) _
  intro hp
  obtain ⟨o, ho, hisA⟩ := hlabel l rfl
  obtain ⟨p, hp', htype⟩ := hs.kept l hp
  rw [hp'] at ho
  cases ho
  rw [htype] at hisA
  exact absurd ((hs.builtIn hbuilt).isA hisA) (by decide)

end

/-! ### What an erasure does to the proposals on its object -/

theorem proposalLeft_told (ctx : Ctx) (pt : FlowType) (p : Object) (state left : String)
    (position : Int) : (ctx.proposalLeft pt p state left position).tag = p.tag ∧
      (ctx.proposalLeft pt p state left position).state = state ∧
      (ctx.proposalLeft pt p state left position).proposes = p.proposes := by
  have hattrs : ∀ a, a ≠ "inputs" →
      (Table.get? (Table.set p.attrs "inputs" (.text left)) a).getD .absent = p.attr a := by
    intro a ha
    rw [Table.get?_set_of_ne _ _ ha.symm]
    rfl
  have hproposes : ∀ o : Object, o.attrs = Table.set p.attrs "inputs" (.text left) →
      o.proposes = p.proposes := by
    intro o ho
    have hattr : ∀ a, a ≠ "inputs" → o.attr a = p.attr a := by
      intro a ha
      rw [Object.attr, ho]
      exact hattrs a ha
    exact Prod.ext (hattr _ (by decide)) (Prod.ext (hattr _ (by decide)) (hattr _ (by decide)))
  unfold Ctx.proposalLeft
  dsimp only
  cases h : recordSpans ctx.work.lib pt
    { p with state, attrs := Table.set p.attrs "inputs" (.text left) }
    (some (trackedValues ctx.work.lib pt p)) position ctx.at' ctx.who.id ctx.who.kind with
  | none => exact ⟨rfl, rfl, hproposes _ rfl⟩
  | some o =>
      obtain ⟨hid, -, hstate, hleft⟩ := recordSpans_kept h
      have htype := recordSpans_type h
      exact ⟨Prod.ext hid htype, hstate, hproposes o hleft⟩

/-- A proposal's inputs redacted, where what becomes of its state is told. -/
theorem proposalRedacted_moves {w : World} {erasing : List String} {s t : Ctx} (hs : s.Minds w)
    {pt : FlowType} {id : String} {p : Object} (hheld : s.work.get id = some p)
    {state left transition : String} {redacted erased : List String} {a : Unit}
    (hmoved : ∀ o wrote, o.id = id → o.state = state → Moved erasing id
      [s.drawn.erasedEvent transition p.state redacted (s.alloc.position + 1) o wrote] p o)
    (hrun : proposalRedacted pt p state left transition redacted erased s = (.ok a, t)) :
    Moves w erasing s t := by
  cases hrun
  obtain ⟨htag, hstate, hproposes⟩ :=
    proposalLeft_told s.drawn pt p state left (s.alloc.position + 1)
  have hid : (s.drawn.proposalLeft pt p state left (s.alloc.position + 1)).id = id :=
    (congrArg Prod.fst htag).trans (hs.named id p hheld)
  have hrecorded : Moves w erasing s (s.drawn.recordApart
      (s.drawn.proposalLeft pt p state left (s.alloc.position + 1)) p.attrs
      (s.drawn.erasedEvent transition p.state redacted (s.alloc.position + 1))) :=
    Moves.recordApart hs hheld htag _ (fun o wrote ho => ho.trans hid) fun hp =>
      ⟨hproposes, fun o wrote ho ho' => hmoved o wrote (ho'.trans hid) (ho.trans hstate)⟩
  exact hrecorded.trans (Moves.beside hrecorded.minds (noteErased_aside _ _ _)
    hrecorded.minds.cleared)

/-- A proposal on the object given, pending or invalidated. -/
def Proposed (erased : String) (s : Ctx) (id : String) : Prop :=
  ∃ p, s.work.get id = some p ∧ p.type = PROPOSAL ∧ p.attr "target" = .text erased ∧
    (p.state = "PENDING" ∨ p.state = "INVALIDATED")

theorem Proposed.moves {w : World} {erasing : List String} {erased id : String} {s t : Ctx}
    (hp : Proposed erased s id) (h : Moves w erasing s t) : Proposed erased t id := by
  obtain ⟨p, hget, htype, htarget, hstate⟩ := hp
  obtain ⟨new, -, hmoved⟩ := h.moved
  obtain ⟨p', hget', hproposes, hp'⟩ := hmoved id p hget htype
  obtain ⟨q, hq, hsame⟩ := h.typed id p hget
  rw [hget'] at hq
  cases hq
  refine ⟨p', hget', hsame.trans htype, (congrArg Prod.fst hproposes).trans htarget, ?_⟩
  cases hp' with
  | stayed _ hkept => exact hkept ▸ hstate
  | invalidated _ _ _ _ hnow => exact .inr hnow

/-- A pending proposal on an erased object is invalidated once. -/
theorem invalidateProposal_moves {w : World} {erased : String} (r : Readers) (pt : FlowType)
    {id : String} {s t : Ctx} {a : Unit} (hs : s.Minds w) (hp : Proposed erased s id)
    (hrun : invalidateProposal r pt id s = (.ok a, t)) : Moves w [erased] s t := by
  obtain ⟨p, hget, -, htarget, hstate⟩ := hp
  obtain ⟨ctx, s₁, hctx, hrun⟩ := Program.bind_ok hrun
  cases hctx
  rw [hget] at hrun
  refine proposalRedacted_moves hs hget ?_ hrun
  intro o wrote hid ho
  rcases hstate with hpending | hinvalidated
  · refine .single ?_ hpending ho (congrArg some hpending) ho rfl htarget List.mem_cons_self
    simp [Event.moves, erasedEvent, hpending, ho, hid]
  · refine .apart ?_ (ho.trans hinvalidated.symm)
    simp [Event.moves, erasedEvent, hinvalidated, ho]

/-- A decided proposal's personal inputs are redacted, its state unchanged. -/
theorem redactProposal_moves {w : World} {erasing : List String} (r : Readers) (pt : FlowType)
    (id : String) : Act.Passes (Minds w) (Moves w erasing) (redactProposal r pt id) := by
  refine Act.Passes.inContext fun c => ?_
  split
  · exact ((moves_walks w erasing).pure _).of_imp fun s h => h.2
  case h_2 p hget =>
    split
    · exact ((moves_walks w erasing).pure _).of_imp fun s h => h.2
    · rintro s a t hrun ⟨rfl, hs⟩
      refine proposalRedacted_moves hs hget ?_ hrun
      intro o wrote hid ho
      refine .apart ?_ ho
      simp [Event.moves, erasedEvent, ho]

theorem eq_text_of_same {v : Value} {s : String} (h : v.same (.text s) = true) : v = .text s := by
  cases v <;> simp_all [Value.same]

/-- The proposals an erasure invalidates are those pending on its object. -/
theorem proposed_of_pending {w : World} (hbuilt : w.BuiltIn) {s : Ctx} (hs : s.Minds w)
    {erased id : String} (hid : id ∈ proposalsOn s.work erased true) : Proposed erased s id := by
  obtain ⟨p, hp, rfl⟩ := List.mem_map.mp hid
  obtain ⟨hmem, hpending⟩ := List.mem_filter.mp hp
  simp only [decide_eq_true_eq, Bool.and_eq_true, eq_iff_iff, iff_true] at hpending
  obtain ⟨hheld, hisA⟩ := World.mem_ofTypeWhere hmem
  obtain ⟨⟨k, o⟩, hentry, rfl⟩ := List.mem_map.mp hheld
  have hget : s.work.get k = some o := Table.get?_of_mem hs.single hentry
  refine ⟨o, ?_, ?_, ?_, .inl hpending.1⟩
  · rw [hs.named k o hget]
    exact hget
  · exact (hs.builtIn hbuilt).unextended _ hisA
  · exact eq_text_of_same hpending.2

theorem invalidateProposals_moves {w : World} (hbuilt : w.BuiltIn) (r : Readers)
    (erased : String) :
    Act.Passes (Minds w) (Moves w [erased]) (invalidateProposals r erased) := by
  refine Act.Passes.inContext fun c => ?_
  split
  · exact ((moves_walks w _).pure _).of_imp fun s h => h.2
  case h_2 pt hpt =>
    have hloop : ∀ (ids : List String) (s t : Ctx) (a : Unit), s.Minds w →
        (∀ id ∈ ids, Proposed erased s id) → ids.forM (invalidateProposal r pt) s = (.ok a, t) →
          Moves w [erased] s t := by
      intro ids
      induction ids with
      | nil =>
          intro s t a hs _ hrun
          cases hrun
          exact Moves.refl hs
      | cons id rest ih =>
          intro s t a hs hp hrun
          obtain ⟨_, s₁, hone, hrest⟩ := Program.bind_ok hrun
          have hmoved := invalidateProposal_moves r pt hs (hp id List.mem_cons_self) hone
          refine hmoved.trans (ih s₁ t a hmoved.minds (fun j hj => ?_) hrest)
          exact (hp j (List.mem_cons_of_mem _ hj)).moves hmoved
    rintro s a t hrun ⟨rfl, hs⟩
    obtain ⟨_, s₁, hpending, hrest⟩ := Program.bind_ok hrun
    have hmoved := hloop _ _ _ _ hs (fun id hid => proposed_of_pending hbuilt hs hid) hpending
    refine hmoved.trans ?_
    have hdecided : Act.Passes (Minds w) (Moves w [erased]) (do
        let ctx ← Act.context
        (proposalsOn ctx.work erased false).forM (redactProposal r pt)) :=
      Act.Passes.inContext fun c =>
        ((moves_walks w _).forM _ fun id _ => redactProposal_moves r pt id).of_imp fun s h => h.2
    exact hdecided s₁ a t hrest hmoved.minds

end Ctx

end ObjectFlow
