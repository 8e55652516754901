import ObjectFlow.Base.Chain
import ObjectFlow.Checking
import ObjectFlow.Importing
import ObjectFlow.Proposals

/-!
# Supersession

An object ends by being superseded: its transition's new state is written, its
effect runs, and a step of it names the successor, an input that is neither the
object nor superseded, or an object the effect created.  Every part of a request
keeps what was superseded as it was, and links no chain back to itself.
-/

namespace ObjectFlow

open Base

/-! ### The links a store holds -/

namespace World

variable (w : World)

/-- Whether an object is in a state of being superseded, of a type this store
owns. -/
def supersedes (o : Object) : Bool :=
  (w.lib.type? o.type).any fun t => !importable t && (t.state? o.state).any (·.superseding)

/-- What an object is superseded by. -/
def successor (id : String) : Option String := (w.get id).bind Object.supersededBy

/-- An object that has ended by being superseded. -/
def Ended (id : String) : Prop := ∃ o, w.get id = some o ∧ w.supersedes o = true

/-- The objects of a store as each names the one it is superseded by. -/
def chains : Chains String := ⟨w.successor, w.Ended⟩

end World

/-- An object's row as a link reads it. -/
def Object.standing (o : Object) : String × String × String × Option String :=
  (o.id, o.type, o.state, o.supersededBy)

/-! ### What the checker promises -/

/-- Whether what is declared of a type names objects. -/
def Declared.namesObject : Declared → Bool
  | .reference _ => true
  | _ => false

/-- Whether a step names as a successor an input that is an object, or a name a
creation before it binds. -/
def namesOne (t : FlowType) (x : Transition) (bound : List String) : Expr → Bool
  | .path b k => b.isName "inputs" && (inputType t x k).any fun type => type.1.namesObject
  | .name n => bound.contains n
  | _ => false

/-- Whether an effect names a successor at its top level, and once; no creation
before it binds the word its inputs are read by. -/
def namesSuccessor (t : FlowType) (x : Transition) : List String → List Step → Bool
  | _, [] => true
  | bound, .create _ _ _ result :: rest =>
      result.all (· ≠ "inputs") && namesSuccessor t x (result.toList ++ bound) rest
  | bound, .supersede e :: rest => namesOne t x bound e && !supersedesAny rest
  | bound, step :: rest => !step.supersedes && namesSuccessor t x bound rest

/-- The working copy of a request over a library: its objects stand under their
ids, once, no id still to be minted is held, and none of its chains comes
back. -/
structure Ctx.Chained (lib : Library) (s : Ctx) : Prop where
  named : ∀ id o, s.work.get id = some o → o.id = id
  single : (Table.keys s.work.objects).Nodup
  fresh : ∀ type n, s.alloc.object < n → s.work.get (s.alloc.mintId type n) = none
  lib : s.work.lib = lib
  sound : s.work.chains.Sound

/-- What the checker promises of a library's transitions: a superseding state is
final, no transition leaves a final state but an erasure or an assertion, a type
with transitions is extended by none, and one that supersedes puts its object
into a superseding state of this store's and names one successor.  The built-in
types have no such state, and an input a creation supersedes by defaults to no
object that is not held. -/
structure Library.Superseding (lib : Library) (m : MetricReader) : Prop where
  final : ∀ entry ∈ lib.types, ∀ st ∈ entry.2.states, st.2.superseding = true →
    st.2.isFinal = true
  leaves : ∀ entry ∈ lib.types, ∀ x ∈ entry.2.transitions, x.2.kind = .external →
    ∀ names s, x.2.fromStates = some (.states names) → s ∈ names →
      (entry.2.state? s).any (·.isFinal) = false
  unextended : ∀ entry ∈ lib.types, ∀ base ∈ lib.types,
    base.2.transitions ≠ [] ∨ base.1 = PROPOSAL → lib.isA entry.1 base.1 = true →
      entry.1 = base.1
  enters : ∀ entry ∈ lib.types, ∀ x ∈ entry.2.transitions, supersedesAny x.2.effect = true →
    (x.2.kind = .external ∨ x.2.kind = .initial) ∧ importable entry.2 = false ∧
      ∃ s, x.2.toStates.head? = some s ∧ (entry.2.state? s).any (·.superseding) = true
  names : ∀ entry ∈ lib.types, ∀ x ∈ entry.2.transitions,
    namesSuccessor entry.2 x.2 [] x.2.effect = true
  builtIn : ∀ tn, tn = PROPOSAL ∨ tn = DECLARATION_CHANGE → ∀ t, lib.type? tn = some t →
    ∀ st ∈ t.states, st.2.superseding = false
  defaults : ∀ entry ∈ lib.types, ∀ x ∈ entry.2.transitions, x.2.kind = .initial →
    ∀ input ∈ x.2.inputs, .supersede (.path (.name "inputs") input.1) ∈ x.2.effect →
      ∀ d, input.2.default = some d → ∀ (ctx : Ctx) inputs b, ctx.Chained lib →
        evaluatedOnly ((ctx.evaluator entry.2 none inputs).eval m d) = .ok (.object b) →
          (ctx.work.get b).isSome

/-! ### What a supersession's step evaluates to -/

theorem isName_eq {e : Expr} {n : String} (h : e.isName n = true) : e = .name n := by
  cases e <;> simp_all [Expr.isName]

section

variable {m : MetricReader} {ev : Evaluator} {env : Env}

theorem value_of_term {M : Meaning} {v u : Value} (h : (M ev env).outcome = .ok (.value v))
    (hu : (M.value ev env).outcome = .ok u) : u = v := by
  unfold Meaning.value at hu
  rw [Noted.bind_of_ok h] at hu
  exact (Except.ok.inj hu).symm

theorem nameObject_ok (term : Term) : (ev.nameObject term).outcome = .ok () := by
  unfold Evaluator.nameObject
  split
  · unfold Evaluator.nameId
    split
    · split <;> rfl
    · rfl
  · rfl

/-- A name bound reads as what it is bound to. -/
theorem evalIn_bound {n : String} {v u : Value} (h : Table.get? env n = some v)
    (hu : (ev.evalIn m (.name n) env).outcome = .ok u) : u = v := by
  refine value_of_term ?_ hu
  show (ev.nameTerm m _ n env).outcome = _
  unfold Evaluator.nameTerm Evaluator.name
  rw [h]
  rfl

/-- A path from the inputs reads the input. -/
theorem evalIn_input (id : String) {k : String} {u : Value} (hthis : ev.this = some id)
    (h : Table.get? env "inputs" = none)
    (hu : (ev.evalIn m (.path (.name "inputs") k) env).outcome = .ok u) :
    u = (Table.get? ev.inputs k).getD .absent := by
  refine value_of_term ?_ hu
  have hbase : ((Expr.name "inputs").meaning m (derivedValue m DERIVED_HOPS) ev env).outcome =
      .ok .inputs := by
    show (ev.nameTerm m _ "inputs" env).outcome = _
    unfold Evaluator.nameTerm Evaluator.name
    rw [h]
    rfl
  have hread : ev.readsCreated (.name "inputs") k env = false := by
    unfold Evaluator.readsCreated
    rw [hthis]
    rfl
  show (pathTerm m _ (.name "inputs") _ k ev env).outcome = _
  unfold pathTerm
  simp only [hread, Bool.false_eq_true, if_false]
  rw [Noted.bind_of_ok hbase]
  have hmember : (ev.member m (derivedValue m DERIVED_HOPS) .inputs k).outcome =
      .ok (.value ((Table.get? ev.inputs k).getD .absent)) := rfl
  dsimp only
  rw [Noted.bind_of_ok hmember]
  dsimp only
  rw [Noted.bind_of_ok (nameObject_ok _)]
  rfl

end

/-! ### What a part of a request does to the links -/

namespace World

/-- Objects that stand as they did hold the links they held. -/
theorem chains_congr {w w' : World} (hlib : w'.lib = w.lib)
    (h : ∀ id, (w'.get id).map Object.standing = (w.get id).map Object.standing) :
    w'.chains = w.chains := by
  have hnext : w'.successor = w.successor := by
    funext id
    have hread : ∀ w : World, w.successor id =
        ((w.get id).map Object.standing).bind fun row => row.2.2.2 := by
      intro w
      rw [successor, Option.bind_map]
      rfl
    rw [hread, hread, h]
  have hended : w'.Ended = w.Ended := by
    have hgo : ∀ {u v : World}, u.lib = v.lib →
        (∀ id, (u.get id).map Object.standing = (v.get id).map Object.standing) →
          ∀ id, v.Ended id → u.Ended id := by
      rintro u v hlib h id ⟨o, ho, hsupersedes⟩
      have hrow := h id
      rw [ho] at hrow
      obtain ⟨o', ho', heq⟩ := Option.map_eq_some_iff.mp hrow
      simp only [Object.standing, Prod.mk.injEq] at heq
      refine ⟨o', ho', ?_⟩
      rw [supersedes, hlib, heq.2.1, heq.2.2.1]
      exact hsupersedes
    funext id
    exact propext ⟨hgo hlib.symm (fun id => (h id).symm) id, hgo hlib h id⟩
  rw [chains, chains, hnext, hended]

end World

namespace Ctx

/-- What a part of a request does to the links: every object keeps its type, and
the chains only grow. -/
structure Relinks (lib : Library) (s t : Ctx) : Prop where
  chained : t.Chained lib
  typed : ∀ id o, s.work.get id = some o → ∃ o', t.work.get id = some o' ∧ o'.type = o.type
  grows : s.work.chains.Grows t.work.chains

variable {lib : Library} {s s' t u : Ctx}

theorem Relinks.trans (h : Relinks lib s t) (h' : Relinks lib t u) : Relinks lib s u where
  chained := h'.chained
  typed := by
    intro id o ho
    obtain ⟨o', ho', htype⟩ := h.typed id o ho
    obtain ⟨o'', ho'', htype'⟩ := h'.typed id o' ho'
    exact ⟨o'', ho'', htype'.trans htype⟩
  grows := h.grows.trans h'.grows

/-- What names its ids and mints them as a context chained does is chained
too, where its chains are sound. -/
structure Kin (s t : Ctx) : Prop where
  single : (Table.keys t.work.objects).Nodup
  lib : t.work.lib = s.work.lib
  object : s.alloc.object ≤ t.alloc.object
  mintId : t.alloc.mintId = s.alloc.mintId

theorem Kin.trans (h : Kin s t) (h' : Kin t u) : Kin s u where
  single := h'.single
  lib := h'.lib.trans h.lib
  object := h.object.trans h'.object
  mintId := h'.mintId.trans h.mintId

/-- A part that leaves every object standing as it did. -/
theorem Relinks.same (hs : s.Chained lib) (hkin : Kin s t)
    (h : ∀ id, (t.work.get id).map Object.standing = (s.work.get id).map Object.standing) :
    Relinks lib s t := by
  have hchains := World.chains_congr hkin.lib h
  have hback : ∀ id o, t.work.get id = some o →
      ∃ o', s.work.get id = some o' ∧ o'.standing = o.standing := by
    intro id o ho
    have hrow := h id
    rw [ho] at hrow
    exact Option.map_eq_some_iff.mp hrow.symm
  refine ⟨⟨?_, hkin.single, ?_, hkin.lib.trans hs.lib, hchains ▸ hs.sound⟩, ?_, ?_⟩
  · intro id o ho
    obtain ⟨o', ho', heq⟩ := hback id o ho
    exact (congrArg Prod.fst heq).symm.trans (hs.named id o' ho')
  · intro type n hn
    have hrow := h (s.alloc.mintId type n)
    rw [hs.fresh type n (lt_of_le_of_lt hkin.object hn)] at hrow
    rw [hkin.mintId]
    exact Option.map_eq_none_iff.mp hrow
  · intro id o ho
    have hrow := h id
    rw [ho] at hrow
    obtain ⟨o', ho', heq⟩ := Option.map_eq_some_iff.mp hrow
    exact ⟨o', ho', congrArg (fun row => row.2.1) heq⟩
  · rw [hchains]
    exact .refl _

theorem Relinks.beside {cleared : List (String × String × Int)} (hs : s.Chained lib)
    (h : Beside cleared s t) : Relinks lib s t :=
  Relinks.same hs ⟨h.work ▸ hs.single, by rw [h.work], h.object.ge, h.mintId⟩
    fun id => by rw [h.work]

theorem Relinks.refl (hs : s.Chained lib) : Relinks lib s s := Relinks.beside hs (Aside.refl s)

/-- What a request does to the links is walked through it. -/
theorem relinks_walks (lib : Library) : Walks (Chained lib) Typed (Relinks lib) where
  refl := Relinks.refl
  trans := Relinks.trans
  aside := Relinks.beside
  holds := fun _ h => h.chained
  taken := by
    intro s t tn oid hs h htyped id hid
    obtain ⟨o, ho, hisA⟩ := htyped id hid
    obtain ⟨o', ho', htype⟩ := h.typed id o ho
    refine ⟨o', ho', ?_⟩
    rw [h.chained.lib, htype, ← hs.lib]
    exact hisA
  creating := fun _ id hid => by cases hid
  calling := by
    rintro s id o - ho id' hid
    cases hid
    exact ⟨o, ho, Library.isA_self _ _⟩
  holding := by
    rintro s o tn hs hmem hisA id hid
    cases hid
    obtain ⟨⟨k, o'⟩, hentry, rfl⟩ := List.mem_map.mp hmem
    have hget : s.work.get k = some o' := Table.get?_of_mem hs.single hentry
    refine ⟨o', ?_, hisA⟩
    rw [hs.named k o' hget]
    exact hget

/-- An object put back, after what only grew the chains, under its id and its
type, with the successor it had, and in the state it had where that ended it. -/
theorem Relinks.placed (hs : s.Chained lib) (h : Relinks lib s s') (hkin : Kin s' t) {id : String}
    {held p : Object} (hheld : s.work.get id = some held) (htag : p.tag = held.tag)
    (hlink : p.supersededBy = held.supersededBy)
    (hstate : s.work.supersedes held = true → p.state = held.state)
    (hget : ∀ j, t.work.get j = if id = j then some p else s'.work.get j) :
    Relinks lib s t := by
  have htype : p.type = held.type := congrArg Prod.snd htag
  have hmine : t.work.get id = some p := by rw [hget, if_pos rfl]
  have hother : ∀ {j}, j ≠ id → t.work.get j = s'.work.get j :=
    fun hj => by rw [hget, if_neg (Ne.symm hj)]
  have hlib : t.work.lib = s.work.lib := by rw [hkin.lib, h.chained.lib, hs.lib]
  have hnext : t.work.successor id = s.work.successor id := by
    rw [World.successor, World.successor, hmine, hheld]
    exact hlink
  have hnexts : ∀ {j}, j ≠ id → t.work.successor j = s'.work.successor j := by
    intro j hj
    rw [World.successor, World.successor, hother hj]
  have hendedMine : s.work.Ended id → t.work.Ended id := by
    rintro ⟨o, ho, hsupersedes⟩
    rw [hheld] at ho
    cases ho
    refine ⟨p, hmine, ?_⟩
    rw [World.supersedes, hlib, hstate hsupersedes, htype]
    exact hsupersedes
  have hendeds : ∀ {j}, j ≠ id → s'.work.Ended j → t.work.Ended j := by
    rintro j hj ⟨o, ho, hsupersedes⟩
    refine ⟨o, (hother hj).trans ho, ?_⟩
    rw [World.supersedes, hkin.lib]
    exact hsupersedes
  have hlinks : ∀ {y}, t.work.chains.Links id y → s.work.chains.Links id y :=
    fun hlinked => hnext.symm.trans hlinked
  obtain ⟨held', hheld', -⟩ := h.typed id held hheld
  refine ⟨⟨?_, hkin.single, ?_, hlib.trans hs.lib, ?_⟩, ?_, ⟨?_, ?_, ?_⟩⟩
  · intro j o ho
    by_cases hj : j = id
    · subst hj
      rw [hmine] at ho
      cases ho
      exact (congrArg Prod.fst htag).trans (hs.named j held hheld)
    · exact h.chained.named j o ((hother hj).symm.trans ho)
  · intro type n hn
    have hnone := h.chained.fresh type n (lt_of_le_of_lt hkin.object hn)
    have hne : s'.alloc.mintId type n ≠ id := by
      rintro rfl
      rw [hheld'] at hnone
      cases hnone
    rw [hkin.mintId, hother hne]
    exact hnone
  · refine h.chained.sound.fewer ?_ ?_
    · intro x y hlinked
      by_cases hx : x = id
      · subst hx
        exact hendedMine (hs.sound.ended (hlinks hlinked))
      · exact hendeds hx (h.chained.sound.ended ((hnexts hx).symm.trans hlinked))
    · intro x y hlinked
      by_cases hx : x = id
      · subst hx
        have hbefore := hlinks hlinked
        exact (h.grows.kept (hs.sound.ended hbefore)).trans hbefore
      · exact (hnexts hx).symm.trans hlinked
  · intro j o ho
    by_cases hj : j = id
    · subst hj
      rw [hheld] at ho
      cases ho
      exact ⟨p, hmine, htype⟩
    · rw [hother hj]
      exact h.typed j o ho
  · intro x hx
    by_cases hxid : x = id
    · subst hxid
      exact hendedMine hx
    · exact hendeds hxid (h.grows.ended hx)
  · intro x hx
    by_cases hxid : x = id
    · subst hxid
      exact hnext
    · exact (hnexts hxid).trans (h.grows.kept hx)
  · intro x y hy hlinked
    by_cases hxid : x = id
    · subst hxid
      exact hlinks hlinked
    · exact h.grows.into hy ((hnexts hxid).symm.trans hlinked)

/-- An object made under an id that was free, superseded by none. -/
theorem Relinks.made (hs : s.Chained lib) {id : String} {p : Object}
    (hsingle : (Table.keys t.work.objects).Nodup) (hlib : t.work.lib = s.work.lib)
    (hfree : s.work.get id = none) (hid : p.id = id) (hlink : p.supersededBy = none)
    (hfresh : ∀ type n, t.alloc.object < n → t.work.get (t.alloc.mintId type n) = none)
    (hget : ∀ j, t.work.get j = if id = j then some p else s.work.get j) :
    Relinks lib s t := by
  have hother : ∀ {j}, j ≠ id → t.work.get j = s.work.get j :=
    fun hj => by rw [hget, if_neg (Ne.symm hj)]
  have hne : ∀ {j o}, s.work.get j = some o → j ≠ id := by
    rintro j o ho rfl
    rw [hfree] at ho
    cases ho
  have hnexts : ∀ {j}, t.work.successor j = s.work.successor j := by
    intro j
    rw [World.successor, World.successor]
    by_cases hj : j = id
    · rw [hj, hget, if_pos rfl, hfree]
      exact hlink
    · rw [hother hj]
  have hendeds : ∀ {j}, s.work.Ended j → t.work.Ended j := by
    rintro j ⟨o, ho, hsupersedes⟩
    refine ⟨o, (hother (hne ho)).trans ho, ?_⟩
    rw [World.supersedes, hlib]
    exact hsupersedes
  have hfewer : ∀ {x y}, t.work.chains.Links x y → s.work.chains.Links x y :=
    fun hlinked => hnexts.symm.trans hlinked
  refine ⟨⟨?_, hsingle, hfresh, hlib.trans hs.lib, ?_⟩, ?_, hendeds, fun _ => hnexts,
    fun _ => hfewer⟩
  · intro j o ho
    by_cases hj : j = id
    · rw [hj, hget, if_pos rfl] at ho
      cases ho
      exact hid.trans hj.symm
    · exact hs.named j o ((hother hj).symm.trans ho)
  · exact hs.sound.fewer (fun hlinked => hendeds (hs.sound.ended (hfewer hlinked))) hfewer
  · intro j o ho
    exact ⟨o, (hother (hne ho)).trans ho, rfl⟩

/-! ### The steps that write an object -/

theorem Kin.insert {s : Ctx} (hs : (Table.keys s.work.objects).Nodup) (o : Object)
    (hwork : t.work = s.work.insert o) (halloc : t.alloc = s.alloc) : Kin s t where
  single := by
    have hobjects : (s.work.insert o).objects = Table.put s.work.objects o.id o := by
      unfold World.insert World.markWritten World.keepWritten
      split <;> rfl
    rw [hwork, hobjects]
    exact Table.nodup_keys_put _ _ hs
  lib := by rw [hwork, World.lib_insert]
  object := by rw [halloc]
  mintId := by rw [halloc]

theorem Kin.change {s : Ctx} (hs : (Table.keys s.work.objects).Nodup) {id : String}
    {f : Object → Object} (hwork : t.work = s.work.change id f) (halloc : t.alloc = s.alloc) :
    Kin s t where
  single := by
    rw [hwork]
    unfold World.change
    cases s.work.get id with
    | none => exact hs
    | some o => exact Table.nodup_keys_put _ _ hs
  lib := by rw [hwork, World.lib_change]
  object := by rw [halloc]
  mintId := by rw [halloc]

/-- An object written in place, as it stood. -/
theorem Relinks.change (hs : s.Chained lib) {id : String} {f : Object → Object}
    (hwork : t.work = s.work.change id f) (halloc : t.alloc = s.alloc)
    (hstands : ∀ o, (f o).standing = o.standing) : Relinks lib s t := by
  refine Relinks.same hs (Kin.change hs.single hwork halloc) fun j => ?_
  rw [hwork, World.get_change]
  split
  · rw [Option.map_map]
    exact congrArg (Option.map · _) (funext hstands)
  · rfl

/-- An event recorded apart on an object held, in the state it had where that
ended it. -/
theorem Relinks.recordApart (hs : s.Chained lib) {id : String} {held p : Object}
    (hheld : s.work.get id = some held) (htag : p.tag = held.tag)
    (hlink : p.supersededBy = held.supersededBy)
    (hstate : s.work.supersedes held = true → p.state = held.state)
    (event : Object → Table String Value → Event) :
    Relinks lib s (s.drawn.recordApart p held.attrs event) := by
  have hid : p.id = id := (congrArg Prod.fst htag).trans (hs.named id held hheld)
  have hobjects : (s.drawn.recordApart p held.attrs event).work.objects =
      Table.put s.work.objects p.id { p with version := p.version + 1 } := by
    show ((World.insert _ _).objects) = _
    unfold World.insert World.markWritten World.keepWritten
    split <;> rfl
  have hkin : Kin s (s.drawn.recordApart p held.attrs event) := by
    refine ⟨?_, (lib_insert _ _).1, le_refl _, rfl⟩
    rw [hobjects]
    exact Table.nodup_keys_put _ _ hs.single
  refine Relinks.placed (p := { p with version := p.version + 1 }) hs (Relinks.refl hs) hkin hheld
    htag hlink hstate fun j => ?_
  rw [recordApart_get, hid]
  rfl

end Ctx

/-! ### What an erasure records on other objects -/

theorem clearFlowed_standing (t : Option FlowType) (p : Object) (flowed : List (String × Int)) :
    (clearFlowed t p flowed).standing = p.standing := by
  unfold clearFlowed
  induction flowed generalizing p with
  | nil => rfl
  | cons f rest ih => exact ih _

namespace Ctx

variable {lib : Library}

theorem redactedOther_relinks (c s : Ctx) (id : String) (held : Object)
    (flowed : List (String × Int)) (redacted : List String) (_ : c.Chained lib)
    (hs : s.Chained lib) (hheld : s.work.get id = some held)
    (_ : ∀ f ∈ flowed, (id, f) ∈ c.cleared) :
    Relinks lib s (s.drawn.recordApart
      (clearFlowed (s.work.lib.type? held.type) held flowed) held.attrs
      (s.drawn.redactEvent redacted (s.alloc.position + 1))) := by
  have hstands := clearFlowed_standing (s.work.lib.type? held.type) held flowed
  simp only [Object.standing, Prod.mk.injEq] at hstands
  obtain ⟨hid, htype, hstate, hlink⟩ := hstands
  exact Relinks.recordApart hs hheld (Prod.ext hid htype) hlink (fun _ => hstate) _

theorem redactedNote_relinks (s : Ctx) (l : String) (held : Object) (hs : s.Chained lib)
    (_ : Typed s LABEL (some l)) (hheld : s.work.get l = some held) :
    Relinks lib s (s.drawn.recordApart { held with attrs := Table.erase held.attrs "note" }
      held.attrs (s.drawn.redactEvent ["note"] (s.alloc.position + 1))) :=
  Relinks.recordApart (p := { held with attrs := Table.erase held.attrs "note" }) hs hheld rfl rfl
    (fun _ => rfl) _

/-! ### What an erasure does to the proposals on its object -/

theorem recordSpans_standing {lib : Library} {t : FlowType} {o o' : Object}
    {before : Option (List (String × Value))} {position now : Int} {byId byKind : String}
    (h : recordSpans lib t o before position now byId byKind = some o') :
    o'.standing = o.standing := by
  unfold recordSpans at h
  dsimp only at h
  split at h
  · cases h
  · cases h
    rfl

theorem proposalLeft_link (ctx : Ctx) (pt : FlowType) (p : Object) (state left : String)
    (position : Int) :
    (ctx.proposalLeft pt p state left position).supersededBy = p.supersededBy := by
  unfold Ctx.proposalLeft
  dsimp only
  cases h : recordSpans ctx.work.lib pt
    { p with state, attrs := Table.set p.attrs "inputs" (.text left) }
    (some (trackedValues ctx.work.lib pt p)) position ctx.at' ctx.who.id ctx.who.kind with
  | none => rfl
  | some o =>
      have hstands := recordSpans_standing h
      exact congrArg (fun row => row.2.2.2) hstands

theorem proposalRedacted_relinks {s t : Ctx} (hs : s.Chained lib) {pt : FlowType} {id : String}
    {p : Object} (hheld : s.work.get id = some p) {state left transition : String}
    {redacted erased : List String} {a : Unit}
    (hstate : s.work.supersedes p = true → state = p.state)
    (hrun : proposalRedacted pt p state left transition redacted erased s = (.ok a, t)) :
    Relinks lib s t := by
  cases hrun
  obtain ⟨htag, hleft, -⟩ := proposalLeft_told s.drawn pt p state left (s.alloc.position + 1)
  have hlink := proposalLeft_link s.drawn pt p state left (s.alloc.position + 1)
  have hrecorded := Relinks.recordApart hs hheld htag hlink
    (fun hends => hleft.trans (hstate hends))
    (s.drawn.erasedEvent transition p.state redacted (s.alloc.position + 1))
  exact hrecorded.trans (Relinks.beside hrecorded.chained (noteErased_aside _ _ _))

end Ctx

/-- No state of a built-in type is a superseding one. -/
theorem Library.Superseding.unended {w : World} {m : MetricReader} (h : w.lib.Superseding m)
    {o : Object} (ho : o.type = PROPOSAL ∨ o.type = DECLARATION_CHANGE) :
    w.supersedes o = false := by
  unfold World.supersedes
  cases htype : w.lib.type? o.type with
  | none => rfl
  | some t =>
      cases hstate : t.state? o.state with
      | none => simp [hstate]
      | some st =>
          have hplain : st.superseding = false :=
            h.builtIn o.type ho t htype _ (Table.mem_of_get? hstate)
          simp [hstate, hplain]

/-- A type a library does not hold extends none. -/
theorem Library.isA_declared {lib : Library} {tn base : String} (h : lib.isA tn base = true)
    (hne : tn ≠ base) : ∃ t, lib.type? tn = some t := by
  cases htype : lib.type? tn with
  | some t => exact ⟨t, rfl⟩
  | none =>
      have hbases : lib.bases tn = [] := by
        unfold Library.bases
        rw [htype]
        cases lib.types.length <;> rfl
      rw [Library.isA, hbases] at h
      simp [hne] at h

/-- What extends a type with transitions, or the proposal's, is that type. -/
theorem Library.Superseding.alone {lib : Library} {m : MetricReader} (h : lib.Superseding m)
    {tn base : String} {t : FlowType} (hbase : lib.type? base = some t)
    (hclosed : t.transitions ≠ [] ∨ base = PROPOSAL) (hisA : lib.isA tn base = true) :
    tn = base := by
  by_cases hne : tn = base
  · exact hne
  · obtain ⟨u, hu⟩ := Library.isA_declared hisA hne
    exact h.unextended _ (Table.mem_of_get? hu) _ (Table.mem_of_get? hbase) hclosed hisA

namespace Ctx

section

variable {lib : Library} {m : MetricReader} (hlib : lib.Superseding m)

include hlib

theorem invalidateProposal_relinks (r : Readers) (pt : FlowType) (id : String) :
    Act.Passes (fun s => (s.Chained lib ∧ (lib.type? PROPOSAL).isSome) ∧
      Typed s PROPOSAL (some id)) (Relinks lib) (invalidateProposal r pt id) := by
  refine Act.Passes.inContext fun c => ?_
  split
  · exact ((relinks_walks lib).pure _).of_imp fun s h => h.2.1.1
  case h_2 p hget =>
    rintro s a t hrun ⟨rfl, ⟨hs, hsome⟩, htyped⟩
    obtain ⟨o, ho, hisA⟩ := htyped id rfl
    rw [hget] at ho
    cases ho
    obtain ⟨pt', hpt⟩ := Option.isSome_iff_exists.mp hsome
    have hproposal : p.type = PROPOSAL := by
      rw [hs.lib] at hisA
      exact hlib.alone hpt (.inr rfl) hisA
    have hunended := (hs.lib ▸ hlib : s.work.lib.Superseding m).unended (.inl hproposal)
    refine proposalRedacted_relinks hs hget (fun hends => ?_) hrun
    rw [hunended] at hends
    cases hends

omit hlib in
theorem redactProposal_relinks (r : Readers) (pt : FlowType) (id : String) :
    Act.Passes (Chained lib) (Relinks lib) (redactProposal r pt id) := by
  refine Act.Passes.inContext fun c => ?_
  split
  · exact ((relinks_walks lib).pure _).of_imp fun s h => h.2
  case h_2 p hget =>
    split
    · exact ((relinks_walks lib).pure _).of_imp fun s h => h.2
    · rintro s a t hrun ⟨rfl, hs⟩
      exact proposalRedacted_relinks hs hget (fun _ => rfl) hrun

theorem invalidateProposals_relinks (r : Readers) (erased : String) :
    Act.Passes (Chained lib) (Relinks lib) (invalidateProposals r erased) := by
  refine Act.Passes.inContext fun c => ?_
  split
  · exact ((relinks_walks lib).pure _).of_imp fun s h => h.2
  case h_2 pt hpt =>
    rintro s a t hrun ⟨rfl, hs⟩
    obtain ⟨_, s₁, hpending, hrest⟩ := Program.bind_ok hrun
    have hsome : (lib.type? PROPOSAL).isSome := by
      rw [← hs.lib, hpt]
      rfl
    have hloop := (relinks_walks lib).forEach (fun _ : String => PROPOSAL) id
      (fun id => (invalidateProposal_relinks hlib r pt id).of_imp fun s h => ⟨⟨h.1, hsome⟩, h.2⟩)
      (proposalsOn s.work erased true) s _ s₁ hpending ⟨hs, fun id hid => by
        obtain ⟨p, hp, rfl⟩ := List.mem_map.mp hid
        obtain ⟨hheld, hisA⟩ := World.mem_ofTypeWhere (List.mem_filter.mp hp).1
        exact (relinks_walks lib).holding hs hheld hisA⟩
    refine hloop.trans ?_
    have hdecided : Act.Passes (Chained lib) (Relinks lib) (do
        let ctx ← Act.context
        (proposalsOn ctx.work erased false).forM (redactProposal r pt)) :=
      Act.Passes.inContext fun c =>
        ((relinks_walks lib).forM _ fun id _ => redactProposal_relinks r pt id).of_imp fun s h =>
          h.2
    exact hdecided s₁ a t hrest hloop.chained

/-- **An erasure's outcome** leaves the links as they were. -/
theorem eraseObject_relinks (r : Readers) (t : FlowType) (o : Object) :
    Act.Passes (Chained lib) (Relinks lib) (eraseObject r t o) :=
  eraseObject_passes (relinks_walks lib) redactedOther_relinks r t o
    (fun _ _ hs h => Relinks.beside hs h) (fun _ _ hs h => Relinks.beside hs h)
    (invalidateProposals_relinks hlib r o.id)

end

end Ctx

end ObjectFlow
