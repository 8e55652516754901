import ObjectFlow.Journaled
import ObjectFlow.Narrowing

/-!
# What every part of a request keeps

Most parts of a request read the objects, or note what they read, and change no
object and record no event.  A relation that what they do keeps, and that goes
through a sequence, is kept by the rest of a transition once it is kept by the
few steps that write an object in place, record an event apart from a
transition, or take another transition.
-/

namespace ObjectFlow

open Base

/-- An object found by its columns is one held, of the type. -/
theorem World.mem_ofTypeWhere {w : World} {type : String} {states : Option (List String)}
    {columns : List (String × Value)} {o : Object} (h : o ∈ w.ofTypeWhere type states columns) :
    o ∈ w.inOrder ∧ w.lib.isA o.type type = true := by
  obtain ⟨hmem, hmatches⟩ := List.mem_filter.mp h
  rw [World.candidates_eq] at hmem
  simp only [Bool.and_eq_true] at hmatches
  exact ⟨(List.mem_filter.mp hmem).1, hmatches.1.1⟩

/-! ### What changes no object -/

namespace Ctx

/-- What leaves the objects, their events and the transitions under way as they
are, and to be cleared on other objects what is given. -/
structure Beside (cleared : List (String × String × Int)) (s t : Ctx) : Prop where
  work : t.work = s.work
  events : t.events = s.events
  underway : t.underway = s.underway
  reentered : t.reentered = s.reentered
  position : t.alloc.position = s.alloc.position
  object : t.alloc.object = s.alloc.object
  mintId : t.alloc.mintId = s.alloc.mintId
  cleared : t.cleared = cleared

/-- What notes something beside all of these. -/
abbrev Aside (s t : Ctx) : Prop := Beside s.cleared s t

theorem Aside.refl (s : Ctx) : Aside s s := ⟨rfl, rfl, rfl, rfl, rfl, rfl, rfl, rfl⟩

theorem Aside.trans (s t u : Ctx) (h : Aside s t) (h' : Aside t u) : Aside s u where
  work := h'.work.trans h.work
  events := h'.events.trans h.events
  underway := h'.underway.trans h.underway
  reentered := h'.reentered.trans h.reentered
  position := h'.position.trans h.position
  object := h'.object.trans h.object
  mintId := h'.mintId.trans h.mintId
  cleared := h'.cleared.trans h.cleared

theorem Beside.quiet {cleared : List (String × String × Int)} {s t : Ctx}
    (h : Beside cleared s t) : Quiet s t where
  objects := congrArg World.objects h.work
  lastWritten := congrArg World.lastWritten h.work
  underway := h.underway
  events := h.events
  reentered := h.reentered
  position := h.position.ge
  object := h.object.ge
  mintId := h.mintId

end Ctx

namespace Act

variable {α β : Type}

/-- It changes no object and records no event. -/
def Reads (p : Act α) : Prop := Program.Advances Ctx.Aside p

theorem Reads.pure (a : α) : Reads (Pure.pure a : Act α) := Program.Advances.pure Ctx.Aside.refl a

theorem Reads.bind {p : Act α} {f : α → Act β} (hp : Reads p) (hf : ∀ a, Reads (f a)) :
    Reads (p >>= f) :=
  Program.Advances.bind Ctx.Aside.trans hp hf

theorem Reads.context : Reads context := Program.Advances.read Ctx.Aside.refl _

theorem Reads.read (f : Ctx → α) : Reads (Program.read f : Act α) :=
  Program.Advances.read Ctx.Aside.refl f

theorem Reads.check (f : Ctx → Except Stop α) : Reads (Program.check f) :=
  Program.Advances.check Ctx.Aside.refl f

theorem Reads.stop (e : Stop) : Reads (Program.stop e : Act α) := Program.Advances.stop e

theorem Reads.notRun (what : String) : Reads (notRun what : Act α) := Reads.stop _

theorem Reads.refuse (v : Verdict) : Reads (refuse v : Act α) := Reads.stop _

theorem Reads.valueInRange (id : String) : Reads (valueInRange id : Act α) := Reads.stop _

/-- What notes something beside the objects and their events. -/
theorem Reads.note {f : Ctx → Ctx} (h : ∀ s, Ctx.Aside s (f s)) :
    Reads (Program.modify f : Act Unit) :=
  Program.Advances.modify h

end Act

open Act

theorem noteRead_reads (r : Reading) : Reads (noteRead r) :=
  Reads.note fun _ => ⟨rfl, rfl, rfl, rfl, rfl, rfl, rfl, rfl⟩

theorem noteErased_aside (s : Ctx) (id : String) (names : List String) :
    Ctx.Aside s (s.noteErased id names) :=
  ⟨rfl, rfl, rfl, rfl, rfl, rfl, rfl, rfl⟩

/-! ### Checks and guards -/

theorem checkCorrection_reads (subject corrected : String) :
    Reads (checkCorrection subject corrected) := by
  refine Reads.bind (Reads.check _) fun _ => ?_
  refine Reads.bind (Reads.read _) fun found => ?_
  refine Reads.bind (noteRead_reads _) fun _ => ?_
  cases (found.flatMap Prod.snd).head? with
  | none => exact Reads.pure _
  | some recorded => exact Reads.stop _

theorem checkRecording_reads (inputs : Table String Value) : Reads (checkRecording inputs) := by
  unfold checkRecording
  split
  case h_1 subject _ =>
    refine Reads.bind ?_ fun read => Reads.bind (Reads.check _) fun _ => Reads.pure _
    unfold checkRecorded
    split
    case h_1 => exact checkCorrection_reads _ _
    case h_2 => exact Reads.bind (Reads.check _) fun _ => Reads.pure _
  case h_2 => exact Reads.pure _

theorem enforce_reads (tn g : String) (c : Condition) (mode : Enforce) (ok : Option Bool)
    (notes : List Note) (after : Guarded) : Reads (enforce tn g c mode ok notes after) := by
  refine Reads.bind Reads.context fun ctx => ?_
  cases mode with
  | deny => exact Reads.stop _
  | warn =>
      refine Reads.bind (Reads.note fun s => ?_) fun _ => Reads.pure _
      exact ⟨rfl, rfl, rfl, rfl, rfl, rfl, rfl, rfl⟩
  | audit => exact Reads.pure _

section

variable (r : Readers) (m : MetricReader) (t : FlowType) (tn xn : String) (x : Transition)
  (oid : Option String) (inputs : Table String Value)

theorem takeGuard_reads (before : Guarded) (g : String) (mode : Enforce) :
    Reads (takeGuard m t tn x oid inputs before g mode) := by
  unfold takeGuard
  split
  case h_1 => exact Reads.notRun _
  case h_2 c _ =>
    refine Reads.bind (Reads.check _) fun found => ?_
    refine Reads.bind (noteRead_reads _) fun _ => ?_
    refine Reads.bind Reads.context fun ctx => ?_
    split
    · refine Reads.bind (Reads.note fun s => ?_) fun _ => Reads.pure _
      exact ⟨rfl, rfl, rfl, rfl, rfl, rfl, rfl, rfl⟩
    · split
      · exact Reads.pure _
      · exact enforce_reads _ _ _ _ _ _ _

theorem takeGuards_reads (guards : List (String × Enforce)) (before : Guarded) :
    Reads (takeGuards m t tn x oid inputs guards before) := by
  induction guards generalizing before with
  | nil => exact Reads.pure _
  | cons guard rest ih =>
      obtain ⟨g, mode⟩ := guard
      exact Reads.bind (takeGuard_reads m t tn x oid inputs before g mode) ih

theorem noteAsserted_reads : Reads (noteAsserted x oid inputs) := by
  unfold noteAsserted
  split
  · refine Reads.bind (Reads.check _) fun admits => Reads.note fun s => ?_
    exact ⟨rfl, rfl, rfl, rfl, rfl, rfl, rfl, rfl⟩
  · exact Reads.pure _

theorem checkRecords_reads : Reads (checkRecords t xn inputs) := by
  unfold checkRecords
  split
  · exact checkRecording_reads _
  · exact Reads.pure _

/-- A transition's checks and its guards change nothing. -/
theorem checked_reads (depth : Nat) : Reads (checked r t tn xn x oid inputs depth) := by
  refine Reads.bind (Reads.check _) fun inputs => ?_
  refine Reads.bind (noteAsserted_reads x oid inputs) fun _ => ?_
  refine Reads.bind (Reads.check _) fun _ => ?_
  refine Reads.bind (checkRecords_reads t xn inputs) fun read => ?_
  refine Reads.bind (Reads.check _) fun inputs => ?_
  exact Reads.bind (takeGuards_reads _ _ _ _ _ _ _ _) fun guarded => Reads.pure _

end

/-! ### What an effect evaluates -/

theorem evaluating_reads {α : Type} (f : Ctx → Evaluated α) : Reads (evaluating f) := by
  refine Reads.bind Reads.context fun ctx => ?_
  refine Reads.bind (Reads.note fun s => ?_) fun _ => Reads.check _
  exact ⟨rfl, rfl, rfl, rfl, rfl, rfl, rfl, rfl⟩

section

variable (r : Readers) (t : FlowType) (id : String) (inputs : Table String Value)
  (position : Int)

theorem effectValue_reads (env : Env) (e : Expr) (how : Evaluating) :
    Reads (effectValue r t id inputs position env e how) := by
  refine Reads.bind (evaluating_reads _) fun found => ?_
  cases how with
  | filtering => exact Reads.pure _
  | plain =>
      dsimp only
      split
      · exact Reads.valueInRange _
      · exact Reads.pure _
  | writtenAt scale =>
      dsimp only
      split
      · exact Reads.valueInRange _
      · exact Reads.pure _

theorem arguments_reads (env : Env) (binds : List (String × Expr)) :
    Reads (arguments r t id inputs position env binds) := by
  induction binds with
  | nil => exact Reads.pure _
  | cons bind rest ih =>
      obtain ⟨k, e⟩ := bind
      refine Reads.bind Reads.context fun ctx => ?_
      split
      · exact ih
      refine Reads.bind (effectValue_reads r t id inputs position env e _) fun v => ?_
      exact Reads.bind ih fun others => Reads.pure _

theorem itemsGiven_reads (env : Env) (array range : Option Expr) :
    Reads (itemsGiven r t id inputs position env array range) := by
  unfold itemsGiven
  split
  case h_1 n =>
    refine Reads.bind (effectValue_reads r t id inputs position env n _) fun v => ?_
    split <;> exact Reads.pure _
  case h_2 a =>
    refine Reads.bind (effectValue_reads r t id inputs position env a _) fun v => ?_
    split
    · exact Reads.pure _
    · exact Reads.notRun _
  case h_3 => exact Reads.pure _

theorem keptItems_reads (env : Env) (item : String) (f : Expr) (items : List Value) :
    Reads (keptItems r t id inputs position env item f items) := by
  induction items with
  | nil => exact Reads.pure _
  | cons i rest ih =>
      refine Reads.bind (effectValue_reads r t id inputs position _ f _) fun v => ?_
      exact Reads.bind (Reads.check _) fun keep => Reads.bind ih fun others => Reads.pure _

theorem looped_reads (env : Env) (item : String) (array range filter : Option Expr)
    (limit : Int) : Reads (looped r t id inputs position env item array range filter limit) := by
  refine Reads.bind ?_ fun items => Reads.bind ?_ fun kept => ?_
  · refine Reads.bind (itemsGiven_reads r t id inputs position env array range) fun items => ?_
    exact Reads.bind Reads.context fun ctx => Reads.pure _
  · unfold filteredItems
    split
    · exact keptItems_reads r t id inputs position env item _ items
    · exact Reads.pure _
  · split
    · exact Reads.refuse _
    · exact Reads.pure _

theorem passedDown_reads (binds : List (String × Expr)) :
    Reads (passedDown r t id inputs binds) := by
  induction binds with
  | nil => exact Reads.pure _
  | cons bind rest ih =>
      obtain ⟨k, e⟩ := bind
      refine Reads.bind (evaluating_reads _) fun found => ?_
      exact Reads.bind ih fun others => Reads.pure _

end

/-! ### What the rest of a transition keeps -/

/-- What holds throughout (`I`), what a transition is taken where (`T`), and a
relation (`Q`) that reading keeps and a sequence goes through. -/
structure Walks (I : Ctx → Prop) (T : Ctx → String → Option String → Prop)
    (Q : Ctx → Ctx → Prop) : Prop where
  refl : ∀ {s}, I s → Q s s
  trans : ∀ {s t u}, Q s t → Q t u → Q s u
  aside : ∀ {s t}, I s → Ctx.Aside s t → Q s t
  holds : ∀ {s t}, I s → Q s t → I t
  taken : ∀ {s t tn oid}, I s → Q s t → T s tn oid → T t tn oid
  creating : ∀ {s tn}, I s → T s tn none
  calling : ∀ {s id o}, I s → s.work.get id = some o → T s o.type (some id)
  holding : ∀ {s o tn}, I s → o ∈ s.work.inOrder → s.work.lib.isA o.type tn = true →
    T s tn (some o.id)

namespace Act

variable {α β : Type} {I : Ctx → Prop} {T : Ctx → String → Option String → Prop}
  {Q : Ctx → Ctx → Prop}

/-- Every run that ends in a value, of a state where what holds throughout does,
keeps the relation. -/
def Passes (I : Ctx → Prop) (Q : Ctx → Ctx → Prop) (p : Act α) : Prop :=
  Program.Advances (fun s t => I s → Q s t) p

/-- Every transition one deeper keeps the relation where it is taken. -/
def PassesBelow (I : Ctx → Prop) (T : Ctx → String → Option String → Prop)
    (Q : Ctx → Ctx → Prop) (below : TakeBelow) : Prop :=
  ∀ tn xn oid inputs, Passes (fun s => I s ∧ T s tn oid) Q (below tn xn oid inputs)

theorem Passes.of_imp {J : Ctx → Prop} {p : Act α} (h : Passes I Q p) (hJ : ∀ s, J s → I s) :
    Passes J Q p :=
  fun s a t hrun hs => h s a t hrun (hJ s hs)

theorem Passes.stop (e : Stop) : Passes I Q (Program.stop e : Act α) := Program.Advances.stop e

theorem Passes.mapStop {g : Stop → Stop} {p : Act α} (h : Passes I Q p) :
    Passes I Q (p.mapStop g) :=
  Program.Advances.mapStop h

theorem Passes.tellStop {g : Ctx → Stop → Stop} {p : Act α} (h : Passes I Q p) :
    Passes I Q (p.tellStop g) :=
  Program.Advances.tellStop h

/-- What is run on the context as it stands. -/
theorem Passes.inContext {f : Ctx → Act α} (h : ∀ c, Passes (fun s => s = c ∧ I s) Q (f c)) :
    Passes I Q (Act.context >>= f) := by
  intro s a t hrun hs
  exact h s s a t hrun ⟨rfl, hs⟩

theorem Passes.modify {f : Ctx → Ctx} (h : ∀ s, I s → Q s (f s)) :
    Passes I Q (Program.modify f : Act Unit) :=
  Program.Advances.modify h

end Act

namespace Walks

variable {α β : Type} {I : Ctx → Prop} {T : Ctx → String → Option String → Prop}
  {Q : Ctx → Ctx → Prop} (hQ : Walks I T Q)

include hQ

theorem reads {p : Act α} (h : Reads p) : Passes I Q p :=
  fun s a t hrun hs => hQ.aside hs (h s a t hrun)

theorem pure (a : α) : Passes I Q (Pure.pure a : Act α) := hQ.reads (Reads.pure a)

theorem bind {p : Act α} {f : α → Act β} (hp : Passes I Q p) (hf : ∀ a, Passes I Q (f a)) :
    Passes I Q (p >>= f) := by
  intro s b u hrun hs
  obtain ⟨a, t, hpt, hfu⟩ := Program.bind_ok hrun
  have hst := hp s a t hpt hs
  exact hQ.trans hst (hf a t b u hfu (hQ.holds hs hst))

/-- What a transition is taken where stands while nothing changes. -/
theorem standing {tn : String} {oid : Option String} (s t : Ctx) (h : I s ∧ T s tn oid)
    (haside : Ctx.Aside s t) : I t ∧ T t tn oid :=
  ⟨hQ.holds h.1 (hQ.aside h.1 haside), hQ.taken h.1 (hQ.aside h.1 haside) h.2⟩

/-- What follows a part that only reads goes on from the same objects. -/
theorem afterReads {p : Act α} {f : α → Act β} {J : Ctx → Prop} (hJ : ∀ s, J s → I s)
    (hkept : ∀ s t, J s → Ctx.Aside s t → J t) (hp : Reads p) (hf : ∀ a, Passes J Q (f a)) :
    Passes J Q (p >>= f) := by
  intro s b u hrun hs
  obtain ⟨a, t, hpt, hfu⟩ := Program.bind_ok hrun
  have haside := hp s a t hpt
  exact hQ.trans (hQ.aside (hJ s hs) haside) (hf a t b u hfu (hkept s t hs haside))

theorem forM {f : α → Act Unit} (items : List α) (h : ∀ a ∈ items, Passes I Q (f a)) :
    Passes I Q (items.forM f) := by
  induction items with
  | nil => exact hQ.pure ()
  | cons a rest ih =>
      have hrest := ih fun b hb => h b (List.mem_cons_of_mem _ hb)
      exact hQ.bind (h a (by simp)) fun _ => hrest

/-- A loop over objects a transition is taken of: taking one of each, what it is
taken of still stands. -/
theorem forEach {f : α → Act Unit} (type id : α → String)
    (h : ∀ a, Passes (fun s => I s ∧ T s (type a) (some (id a))) Q (f a)) (items : List α) :
    Passes (fun s => I s ∧ ∀ a ∈ items, T s (type a) (some (id a))) Q (items.forM f) := by
  induction items with
  | nil =>
      rintro s b t hrun ⟨hs, -⟩
      exact hQ.pure () s b t hrun hs
  | cons a rest ih =>
      rintro s b u hrun ⟨hs, hitems⟩
      obtain ⟨_, t, hfirst, hrest⟩ := Program.bind_ok hrun
      have hst := h a s _ t hfirst ⟨hs, hitems a (by simp)⟩
      have hitems' : ∀ b ∈ rest, T t (type b) (some (id b)) := fun b hb =>
        hQ.taken hs hst (hitems b (List.mem_cons_of_mem _ hb))
      exact hQ.trans hst (ih t b u hrest ⟨hQ.holds hs hst, hitems'⟩)

end Walks

/-! ### An effect -/

mutual

/-- Whether a step names a successor, at any depth. -/
def Step.supersedes : Step → Bool
  | .supersede _ => true
  | .foreach _ _ _ _ _ steps => supersedesAny steps
  | _ => false

def supersedesAny : List Step → Bool
  | [] => false
  | s :: rest => s.supersedes || supersedesAny rest

end

section

variable {I : Ctx → Prop} {T : Ctx → String → Option String → Prop} {Q : Ctx → Ctx → Prop}
  (hQ : Walks I T Q) (r : Readers) (t : FlowType) (id : String) (inputs : Table String Value)
  (position : Int) {below : TakeBelow} (hbelow : PassesBelow I T Q below)
  (hchanged : ∀ s f names, I s → Q s ((s.changeAttrs id f).noteWrote id names))
  (hsuperseded : ∀ s successor, I s → Q s { s with
    work := s.work.change id fun o => { o with supersededBy := some successor } })

include hQ hchanged in
theorem assign_passes (env : Env) (location : String) (e : Expr) :
    Passes I Q (assign r t id inputs position env location e) := by
  refine hQ.bind (hQ.reads Reads.context) fun ctx => ?_
  split
  · exact hQ.pure _
  refine hQ.bind (hQ.reads (effectValue_reads r t id inputs position env e _)) fun v => ?_
  split
  · exact Passes.stop _
  split
  · exact Passes.modify fun s hs => hchanged s _ _ hs
  split
  · exact Passes.stop _
  refine hQ.bind (hQ.reads (Reads.check _)) fun v => ?_
  split
  · exact Passes.stop _
  · exact Passes.modify fun s hs => hchanged s _ _ hs

include hQ hchanged in
theorem addOrRemove_passes (env : Env) (adding : Bool) (location : String) (e : Expr) :
    Passes I Q (addOrRemove r t id inputs position env adding location e) := by
  refine hQ.bind (hQ.reads Reads.context) fun ctx => ?_
  split
  · exact hQ.pure _
  refine hQ.bind (hQ.reads (effectValue_reads r t id inputs position env e _)) fun v => ?_
  dsimp only
  split
  · exact Passes.stop _
  · exact Passes.modify fun s hs => hchanged s _ _ hs

include hQ hsuperseded in
theorem supersede_passes (env : Env) (e : Expr) :
    Passes I Q (supersede r t id inputs position env e) := by
  refine hQ.bind (hQ.reads (effectValue_reads r t id inputs position env e _)) fun v => ?_
  split
  · exact Passes.modify fun s hs => hsuperseded s _ hs
  · exact Passes.stop _

include hQ hbelow in
theorem create_passes (env : Env) (type transition : String) (binds : List (String × Expr))
    (result : Option String) :
    Passes I Q (create r t id inputs position below env type transition binds result) := by
  refine hQ.bind (hQ.reads (arguments_reads r t id inputs position env binds)) fun values => ?_
  refine hQ.bind (Passes.mapStop ?_) fun made => hQ.pure _
  exact fun s a t hrun hs => hbelow type transition none values s a t hrun ⟨hs, hQ.creating hs⟩

include hQ hbelow in
theorem call_passes (env : Env) (target : Expr) (transition : String)
    (binds : List (String × Expr)) :
    Passes I Q (call r t id inputs position below env target transition binds) := by
  refine hQ.bind (hQ.reads (effectValue_reads r t id inputs position env target _)) fun v => ?_
  refine Passes.inContext fun c => ?_
  split
  · exact (hQ.pure _).of_imp fun s h => h.2
  case h_2 tid =>
    split
    · exact Passes.stop _
    case h_2 o hget =>
      rintro s a u hrun ⟨rfl, hs⟩
      refine hQ.afterReads (J := fun s => I s ∧ T s o.type (some tid)) (fun s h => h.1) hQ.standing
        (arguments_reads r t id inputs position env binds) (fun values => ?_) s a u hrun
        ⟨hs, hQ.calling hs hget⟩
      intro s a u hrun h
      obtain ⟨_, t, hcalled, hrest⟩ := Program.bind_ok hrun
      cases hrest
      exact (hbelow _ _ _ _).mapStop s _ _ hcalled h
  · exact Passes.stop _

mutual

theorem step_passes (hQ : Walks I T Q) (hbelow : PassesBelow I T Q below)
    (hchanged : ∀ s f names, I s → Q s ((s.changeAttrs id f).noteWrote id names)) (env : Env) :
    ∀ step : Step, (step.supersedes = true → ∀ s successor, I s → Q s { s with
      work := s.work.change id fun o => { o with supersededBy := some successor } }) →
        Passes I Q (step.run r t id inputs position below env)
  | .assign location e, _ =>
      hQ.bind (assign_passes hQ r t id inputs position hchanged env location e)
        fun _ => hQ.pure _
  | .clear names, _ =>
      hQ.bind (Passes.modify fun s hs => hchanged s _ names hs) fun _ => hQ.pure _
  | .add location e, _ =>
      hQ.bind (addOrRemove_passes hQ r t id inputs position hchanged env true location e)
        fun _ => hQ.pure _
  | .remove location e, _ =>
      hQ.bind (addOrRemove_passes hQ r t id inputs position hchanged env false location e)
        fun _ => hQ.pure _
  | .create type transition binds result, _ =>
      create_passes hQ r t id inputs position hbelow env type transition binds result
  | .call target transition binds, _ =>
      hQ.bind (call_passes hQ r t id inputs position hbelow env target transition binds)
        fun _ => hQ.pure _
  | .foreach item array range filter limit steps, hsuperseded =>
      hQ.bind (hQ.reads (looped_reads r t id inputs position env item array range filter limit))
        fun items => hQ.bind
          (hQ.forM items fun i _ =>
            runSteps_passes hQ hbelow hchanged (Table.set env item i) steps hsuperseded)
          fun _ => hQ.pure _
  | .supersede e, hsuperseded =>
      hQ.bind (supersede_passes hQ r t id inputs position (hsuperseded rfl) env e)
        fun _ => hQ.pure _

/-- **An effect's steps keep** what writing its object in place and the
transitions it takes keep, and naming a successor where one of them does. -/
theorem runSteps_passes (hQ : Walks I T Q) (hbelow : PassesBelow I T Q below)
    (hchanged : ∀ s f names, I s → Q s ((s.changeAttrs id f).noteWrote id names)) (env : Env) :
    ∀ steps : List Step, (supersedesAny steps = true → ∀ s successor, I s → Q s { s with
      work := s.work.change id fun o => { o with supersededBy := some successor } }) →
        Passes I Q (runSteps r t id inputs position below env steps)
  | [], _ => hQ.pure _
  | step :: rest, hsuperseded =>
      hQ.bind (step_passes hQ hbelow hchanged env step fun h => hsuperseded (by
          rw [supersedesAny, h, Bool.true_or]))
        fun env => runSteps_passes hQ hbelow hchanged env rest fun h => hsuperseded (by
          rw [supersedesAny, h, Bool.or_true])

end

/-! ### Cascades, and what an erasure drives -/

include hQ hbelow

theorem cascade_passes (an : String) (clause : CascadeClause) :
    Passes I Q (cascade r t id inputs below an clause) := by
  refine hQ.bind (hQ.reads (evaluating_reads _)) fun found => ?_
  refine Passes.inContext fun c => ?_
  dsimp only
  split
  · exact Passes.stop _
  · rintro s a u hrun ⟨rfl, hs⟩
    refine hQ.forEach Object.type Object.id (fun p => ?_) _ s a u hrun
      ⟨hs, fun p hp => ?_⟩
    · refine hQ.afterReads (fun s h => h.1) hQ.standing
        (passedDown_reads r t id inputs clause.inputs) fun values => ?_
      intro s a u hrun h
      obtain ⟨_, t, htaken, hrest⟩ := Program.bind_ok hrun
      cases hrest
      exact (hbelow _ _ _ _).mapStop s _ _ htaken h
    · have hmem := (List.mem_insertionSort _).mp hp
      obtain ⟨i, -, hget⟩ := List.mem_filterMap.mp (List.mem_filter.mp hmem).1
      exact hQ.holding hs (List.mem_map.mpr ⟨_, Table.mem_of_get? hget, rfl⟩)
        (Library.isA_self _ _)

theorem cascades_passes (xn : String) : Passes I Q (cascades r t id inputs below xn) := by
  refine hQ.forM _ fun part _ => ?_
  obtain ⟨an, a⟩ := part
  dsimp only
  split
  · exact hQ.forM _ fun clause _ => cascade_passes hQ r t id inputs hbelow an clause
  · exact hQ.pure _

omit hQ hbelow in
/-- A label's note gone, with an event of its own. -/
theorem redactNote_passes (hQ : Walks I T Q)
    (hnoted : ∀ s l held, I s → T s LABEL (some l) → s.work.get l = some held →
      Q s (s.drawn.recordApart { held with attrs := Table.erase held.attrs "note" } held.attrs
        (s.drawn.redactEvent ["note"] (s.alloc.position + 1)))) (l : String) :
    Passes (fun s => I s ∧ T s LABEL (some l)) Q (redactNote l) := by
  refine Passes.inContext fun c => ?_
  split
  · exact (hQ.pure _).of_imp fun s h => h.2.1
  case h_2 held hheld =>
    rintro s a u hrun ⟨rfl, hs, hlabel⟩
    cases hrun
    have hrecorded := hnoted s l held hs hlabel hheld
    exact hQ.trans hrecorded (hQ.aside (hQ.holds hs hrecorded) (noteErased_aside _ l ["note"]))

theorem forgetKind_passes (kind : String) : Passes I Q (forgetKind id inputs below kind) := by
  refine Passes.inContext fun c => ?_
  split
  · exact (hQ.pure _).of_imp fun s h => h.2
  · rintro s a u hrun ⟨rfl, hs⟩
    refine hQ.forEach (fun _ => kind) Object.id (fun x => ?_) _ s a u hrun
      ⟨hs, fun x hx => ?_⟩
    · intro s a u hrun h
      obtain ⟨_, t, htaken, hrest⟩ := Program.bind_ok hrun
      cases hrest
      exact hbelow _ _ _ _ s _ _ htaken h
    · obtain ⟨hmem, hkind⟩ := World.mem_ofTypeWhere (List.mem_filter.mp hx).1
      exact hQ.holding hs hmem hkind

theorem eraseMember_passes (o : Object) :
    Passes (fun s => I s ∧ T s o.type (some o.id)) Q (eraseMember inputs below o) := by
  refine Passes.inContext fun c => ?_
  split
  · exact (hQ.pure _).of_imp fun s h => h.2.1
  dsimp only
  split
  · exact (hQ.pure _).of_imp fun s h => h.2.1
  · rintro s a u hrun ⟨rfl, h⟩
    obtain ⟨_, t, htaken, hrest⟩ := Program.bind_ok hrun
    cases hrest
    exact (hbelow _ _ _ _).mapStop s _ _ htaken h

theorem eraseChain_passes : Passes I Q (eraseChain id inputs below) := by
  refine Passes.inContext fun c => ?_
  split
  · exact (hQ.pure _).of_imp fun s h => h.2
  rintro s a u hrun ⟨rfl, hs⟩
  obtain ⟨_, s₁, hbegun, hrun⟩ := Program.bind_ok hrun
  cases hbegun
  obtain ⟨_, s₂, hmembers, hrun⟩ := Program.bind_ok hrun
  cases hrun
  have hbegun : Ctx.Aside s { s with inGroup := true } :=
    ⟨rfl, rfl, rfl, rfl, rfl, rfl, rfl, rfl⟩
  have hs₁ := hQ.holds hs (hQ.aside hs hbegun)
  have hgroup := hQ.forEach Object.type Object.id
    (eraseMember_passes hQ inputs hbelow) _ _ _ _ hmembers ⟨hs₁, fun o ho =>
      hQ.holding hs₁ (List.mem_filter.mp ho).1 (Library.isA_self _ _)⟩
  refine hQ.trans (hQ.trans (hQ.aside hs hbegun) hgroup) (hQ.aside (hQ.holds hs₁ hgroup) ?_)
  exact ⟨rfl, rfl, rfl, rfl, rfl, rfl, rfl, rfl⟩

end

/-- What an object's erasure redacts of its events and of those they caused. -/
def erasureRedacts (w : World) (t : FlowType) (o : Object) : Redactions :=
  let own := w.eventsOf o.id
  let erased := erasedAttributes w t o own
  let row := erasedRow w t o own erased
  own.foldl (fun gone e =>
    gone.append (ownRedactions w t row own erased (holdingPersonal w t row own) e)) {}

section

variable {I : Ctx → Prop} {T : Ctx → String → Option String → Prop} {Q : Ctx → Ctx → Prop}
  (hQ : Walks I T Q)

include hQ

section

variable (hother : ∀ c s id held flowed redacted, I c → I s → s.work.get id = some held →
    (∀ f ∈ flowed, (id, f) ∈ c.cleared) →
    Q s (s.drawn.recordApart (clearFlowed (s.work.lib.type? held.type) held flowed) held.attrs
      (s.drawn.redactEvent redacted (s.alloc.position + 1))))

include hother

theorem redactOther_passes {c : Ctx} (hc : I c) (id : String) (redacted : List String) :
    Passes I Q (redactOther c.cleared id redacted) := by
  refine Passes.inContext fun c => ?_
  split
  · exact (hQ.pure _).of_imp fun s h => h.2
  case h_2 held hheld =>
    split
    · exact (hQ.pure _).of_imp fun s h => h.2
    · rintro s a u hrun ⟨rfl, hs⟩
      obtain ⟨_, s₁, hnoted, hrun⟩ := Program.bind_ok hrun
      have haside : Ctx.Aside s s₁ := by
        cases hnoted
        exact ⟨rfl, rfl, rfl, rfl, rfl, rfl, rfl, rfl⟩
      have hs₁ := hQ.holds hs (hQ.aside hs haside)
      refine hQ.trans (hQ.aside hs haside) ?_
      cases hrun
      rw [← haside.work] at hheld ⊢
      refine hother _ s₁ id held _ redacted hc hs₁ hheld fun f hf => ?_
      split at hf
      · cases hf
      · obtain ⟨entry, hentry, rfl⟩ := List.mem_map.mp hf
        obtain ⟨hmem, hid⟩ := List.mem_filter.mp hentry
        rw [← of_decide_eq_true hid]
        exact hmem

theorem redactOthers_passes (hreset : ∀ s u, I s → Ctx.Beside [] s u → Q s u) (erased : String)
    (since : Nat) : Passes I Q (redactOthers erased since) := by
  refine Passes.inContext fun c => ?_
  rintro s a u hrun ⟨rfl, hs⟩
  obtain ⟨_, s₁, hcleared, hrun⟩ := Program.bind_ok hrun
  have hbeside : Ctx.Beside [] s s₁ := by
    cases hcleared
    exact ⟨rfl, rfl, rfl, rfl, rfl, rfl, rfl, rfl⟩
  have hreset' := hreset s s₁ hs hbeside
  have hloop := hQ.forM _ (fun entry _ => redactOther_passes hQ hother hs entry.1 entry.2) s₁ a u
    hrun (hQ.holds hs hreset')
  exact hQ.trans hreset' hloop

/-- **An erasure's outcome keeps** what its events on other objects, and what it
does to the proposals on its object, keep. -/
theorem eraseObject_passes (r : Readers) (t : FlowType) (o : Object)
    (hreset : ∀ s u, I s → Ctx.Beside [] s u → Q s u)
    (hcleared : ∀ s u, I s →
      Ctx.Beside (s.cleared ++ (erasureRedacts s.work t o).cleared) s u → Q s u)
    (hproposals : Passes I Q (invalidateProposals r o.id)) : Passes I Q (eraseObject r t o) := by
  refine Passes.inContext fun c => ?_
  rintro s a u hrun ⟨rfl, hs⟩
  obtain ⟨_, s₁, hnoted, hrun⟩ := Program.bind_ok hrun
  have hfirst : Q s s₁ := by
    refine hcleared s s₁ hs ?_
    cases hnoted
    exact ⟨rfl, rfl, rfl, rfl, rfl, rfl, rfl, rfl⟩
  refine hQ.trans hfirst ?_
  refine hQ.bind (redactOthers_passes hQ hother hreset _ _) (fun _ => ?_) s₁ a u hrun
    (hQ.holds hs hfirst)
  refine hQ.bind (hQ.reads (Reads.note fun s => ?_)) fun _ => ?_
  · exact ⟨rfl, rfl, rfl, rfl, rfl, rfl, rfl, rfl⟩
  exact hQ.bind hproposals fun _ => hQ.pure _

end

section

variable {below : TakeBelow} (hbelow : PassesBelow I T Q below)
  (hnoted : ∀ s l held, I s → T s LABEL (some l) → s.work.get l = some held →
    Q s (s.drawn.recordApart { held with attrs := Table.erase held.attrs "note" } held.attrs
      (s.drawn.redactEvent ["note"] (s.alloc.position + 1))))

include hbelow hnoted

theorem eraseFurther_passes (t : FlowType) (x : Transition) (id : String)
    (inputs : Table String Value) : Passes I Q (eraseFurther t x id inputs below) := by
  unfold eraseFurther
  split
  · refine hQ.bind ?_ fun _ => eraseChain_passes hQ id inputs hbelow
    refine hQ.bind (hQ.forM _ fun entry _ => forgetKind_passes hQ id inputs hbelow _) fun _ => ?_
    refine Passes.inContext fun c => ?_
    rintro s a u hrun ⟨rfl, hs⟩
    refine hQ.forEach (fun _ => LABEL) Object.id
      (fun l => redactNote_passes hQ hnoted l.id) _ s a u hrun ⟨hs, fun l hl => ?_⟩
    have hobserving := (List.mem_filter.mp (List.mem_filter.mp hl).1).1
    obtain ⟨hmem, hlabel⟩ := World.mem_ofTypeWhere hobserving
    exact hQ.holding hs hmem hlabel
  · exact hQ.pure _

/-- **Between its outcome and its event** a transition keeps what its effect's
writes and the transitions it takes keep. -/
theorem followThrough_passes (r : Readers) (t : FlowType) (xn : String) (x : Transition)
    (id : String) (inputs : Table String Value) (position : Int)
    (hchanged : ∀ s f names, I s → Q s ((s.changeAttrs id f).noteWrote id names))
    (hsuperseded : ∀ s successor, I s → Q s { s with
      work := s.work.change id fun o => { o with supersededBy := some successor } }) :
    Passes I Q (followThrough r t xn x id inputs position below) := by
  refine hQ.bind (runSteps_passes r t id inputs position hQ hbelow hchanged [] x.effect
    fun _ => hsuperseded) fun _ => ?_
  refine hQ.bind (cascades_passes hQ r t id inputs hbelow xn) fun _ => ?_
  refine hQ.bind (hQ.reads (Reads.check _)) fun _ => ?_
  refine hQ.bind (hQ.reads (Reads.check _)) fun _ => ?_
  exact eraseFurther_passes hQ hbelow hnoted t x id inputs

end

end

/-! ### One transition, and all it takes -/

section

variable {I : Ctx → Prop} {T : Ctx → String → Option String → Prop} {Q : Ctx → Ctx → Prop}
  (hQ : Walks I T Q) (r : Readers)

include hQ

theorem noted_passes {tn xn : String} {oid : Option String} {p : Act String}
    (h : Passes (fun s => I s ∧ T s tn oid) Q p) :
    Passes (fun s => I s ∧ T s tn oid) Q (noted tn xn p) := by
  refine hQ.afterReads (fun s h => h.1) hQ.standing (Reads.note fun s => ?_) fun _ => ?_
  · exact ⟨rfl, rfl, rfl, rfl, rfl, rfl, rfl, rfl⟩
  intro s a u hrun hs
  obtain ⟨id, t, htaken, hrest⟩ := Program.bind_ok hrun
  have hst := h s id t htaken hs
  have hnoted : Reads (do
      Program.modify fun ctx => { ctx with taking := ctx.taking.tail }
      return id : Act String) := by
    refine Reads.bind (Reads.note fun s => ?_) fun _ => Reads.pure _
    exact ⟨rfl, rfl, rfl, rfl, rfl, rfl, rfl, rfl⟩
  exact hQ.trans hst (hQ.aside (hQ.holds hs.1 hst) (hnoted t a u hrest))

/-- **Every nesting of transitions keeps** what one does, to whatever depth a
request takes them: what a transition of a type that declares it keeps, where
those one deeper do. -/
theorem take_passes
    (hcarried : ∀ below t tn xn x oid inputs guarded, PassesBelow I T Q below →
      t.transition? xn = some x →
      Passes (fun s => (I s ∧ T s tn oid) ∧ s.work.lib.type? tn = some t) Q
        (carryOut r t tn xn x oid inputs guarded below))
    (left depth : Nat) : PassesBelow I T Q (take r left depth) := by
  induction left generalizing depth with
  | zero =>
      intro tn xn oid inputs
      exact hQ.afterReads (fun s h => h.1) hQ.standing (Reads.check _) fun _ =>
        noted_passes hQ (Passes.stop _)
  | succ left ih =>
      intro tn xn oid inputs
      refine hQ.afterReads (fun s h => h.1) hQ.standing (Reads.check _) fun _ =>
        noted_passes hQ ?_
      refine Passes.inContext fun c => ?_
      split
      · exact Passes.stop _
      case h_2 t htype =>
        split
        · exact Passes.stop _
        case h_2 x hx =>
          have hdeclared : t.transition? xn = some x := by
            obtain ⟨hfound, -⟩ := Option.filter_eq_some_iff.mp hx
            exact hfound
          split
          · exact Passes.stop _
          · rintro s a u hrun ⟨rfl, hs⟩
            refine hQ.afterReads (fun s h => h.1.1) (fun s t h haside => ?_)
              (checked_reads r t tn xn x oid inputs depth)
              (fun found => hcarried _ t tn xn x oid found.1 found.2 (ih (depth + 1)) hdeclared)
              s a u hrun ⟨hs, htype⟩
            exact ⟨hQ.standing s t h.1 haside, haside.work ▸ h.2⟩

end

end ObjectFlow
