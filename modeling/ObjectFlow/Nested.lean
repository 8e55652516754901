import ObjectFlow.Walk

/-!
# Transitions nested in transitions

Every part of a request goes soundly: its checks, its effects, its erasures and
the transitions these take, whichever object they are on.  The parts that write
an object in place are known to only where a transition of it is under way.
-/

namespace ObjectFlow

open Base

namespace Act

variable {α β : Type} {mine : List String}

/-- Every run of it that ends in a value goes soundly, the objects named having
a transition under way. -/
def Keeps (mine : List String) (p : Act α) : Prop := Program.Advances (Ctx.Goes mine) p

theorem Keeps.mono {p : Act α} (h : Keeps [] p) : Keeps mine p :=
  fun s a t hrun => (h s a t hrun).mono

theorem Keeps.pure (a : α) : Keeps mine (Pure.pure a : Act α) :=
  Program.Advances.pure (Ctx.Goes.refl mine) a

theorem Keeps.bind {p : Act α} {f : α → Act β} (hp : Keeps mine p)
    (hf : ∀ a, Keeps mine (f a)) : Keeps mine (p >>= f) :=
  Program.Advances.bind (Ctx.Goes.trans mine) hp hf

theorem Keeps.context : Keeps mine context :=
  Program.Advances.read (Ctx.Goes.refl mine) _

/-- What is run on the context as it stands. -/
theorem Keeps.inContext {f : Ctx → Act α} (h : ∀ s a t, f s s = (.ok a, t) → Ctx.Goes mine s t) :
    Keeps mine (Act.context >>= f) := by
  intro s a t hrun
  exact h s a t hrun

theorem Keeps.check (f : Ctx → Except Stop α) : Keeps mine (Program.check f) :=
  Program.Advances.check (Ctx.Goes.refl mine) f

theorem Keeps.modify {f : Ctx → Ctx} (h : ∀ s, Ctx.Goes mine s (f s)) :
    Keeps mine (Program.modify f : Act Unit) :=
  Program.Advances.modify h

/-- What notes something beside the objects and their events. -/
theorem Keeps.quietly {f : Ctx → Ctx} (h : ∀ s, Ctx.Quiet s (f s)) :
    Keeps mine (Program.modify f : Act Unit) :=
  Keeps.modify fun s => (h s).goes

theorem Keeps.tellStop {g : Ctx → Stop → Stop} {p : Act α} (h : Keeps mine p) :
    Keeps mine (p.tellStop g) :=
  Program.Advances.tellStop h

theorem Keeps.forM {f : α → Act Unit} (items : List α) (h : ∀ a ∈ items, Keeps mine (f a)) :
    Keeps mine (items.forM f) :=
  Program.Advances.forM (Ctx.Goes.refl mine) (Ctx.Goes.trans mine) items h

/-- Going soundly is walked through a request with nothing asked of a state. -/
theorem goes_walks (mine : List String) :
    Walks (fun _ => True) (fun _ _ _ => True) (Ctx.Goes mine) where
  refl := fun _ => Ctx.Goes.refl mine _
  trans := Ctx.Goes.trans mine _ _ _
  aside := fun _ h => h.quiet.goes
  holds := fun _ _ => trivial
  taken := fun _ _ _ => trivial
  creating := fun _ => trivial
  calling := fun _ _ => trivial
  holding := fun _ _ _ => trivial

theorem Passes.keeps {p : Act α} (h : Passes (fun _ => True) (Ctx.Goes mine) p) :
    Keeps mine p :=
  fun s a t hrun => h s a t hrun trivial

theorem Keeps.passes {J : Ctx → Prop} {p : Act α} (h : Keeps mine p) :
    Passes J (Ctx.Goes mine) p :=
  fun s a t hrun _ => h s a t hrun

end Act

open Act

variable {mine : List String}

/-! ### Events an erasure records -/

/-- An event of an erasure recorded on an object, which it may have moved on. -/
theorem went_erased {s : Ctx} (hs : s.Sound) {id : String} {held p : Object}
    (transition : String) (redacted : List String) (hheld : s.work.get id = some held)
    (hid : p.id = held.id) (hversion : p.version = held.version) :
    Ctx.Went s (s.drawn.recordApart p held.attrs
      (s.drawn.erasedEvent transition held.state redacted (s.alloc.position + 1))) := by
  refine Ctx.went_recordApart hs ?_ hversion rfl
    ⟨fun _ => rfl, fun _ => rfl, fun _ => rfl, fun _ => rfl, fun _ => rfl, fun _ => rfl⟩
  rw [hid, hs.named id held hheld]
  exact hheld

/-- A redaction recorded on an object, its state unchanged. -/
theorem went_redacted {s : Ctx} (hs : s.Sound) {id : String} {held p : Object}
    (redacted : List String) (hheld : s.work.get id = some held) (hid : p.id = held.id)
    (hversion : p.version = held.version) (hstate : p.state = held.state) :
    Ctx.Went s (s.drawn.recordApart p held.attrs
      (s.drawn.redactEvent redacted (s.alloc.position + 1))) := by
  refine Ctx.went_recordApart hs ?_ hversion rfl
    ⟨fun _ => rfl, fun _ => rfl, fun _ => rfl, fun _ => congrArg some hstate, fun _ => rfl,
      fun _ => rfl⟩
  rw [hid, hs.named id held hheld]
  exact hheld

/-- A step that goes soundly, then one that tells nothing of an object. -/
theorem Ctx.Went.quietly {s t u : Ctx} (h : Ctx.Went s t) (h' : Ctx.Quiet t u) : Ctx.Went s u :=
  h.trans (h'.goes (m := []) h.sound (by simp))

theorem recordSpans_kept {lib : Library} {t : FlowType} {o o' : Object}
    {before : Option (List (String × Value))} {position now : Int} {byId byKind : String}
    (h : recordSpans lib t o before position now byId byKind = some o') :
    o'.id = o.id ∧ o'.version = o.version ∧ o'.state = o.state ∧ o'.attrs = o.attrs := by
  unfold recordSpans at h
  dsimp only at h
  split at h
  · cases h
  · cases h
    exact ⟨rfl, rfl, rfl, rfl⟩

theorem recordSpans_type {lib : Library} {t : FlowType} {o o' : Object}
    {before : Option (List (String × Value))} {position now : Int} {byId byKind : String}
    (h : recordSpans lib t o before position now byId byKind = some o') : o'.type = o.type := by
  unfold recordSpans at h
  dsimp only at h
  split at h
  · cases h
  · cases h
    rfl

theorem proposalLeft_kept (ctx : Ctx) (pt : FlowType) (p : Object) (state left : String)
    (position : Int) : (ctx.proposalLeft pt p state left position).id = p.id ∧
      (ctx.proposalLeft pt p state left position).version = p.version := by
  unfold Ctx.proposalLeft
  dsimp only
  cases h : recordSpans ctx.work.lib pt
    { p with state, attrs := Table.set p.attrs "inputs" (.text left) }
    (some (trackedValues ctx.work.lib pt p)) position ctx.at' ctx.who.id ctx.who.kind with
  | none => exact ⟨rfl, rfl⟩
  | some o =>
      obtain ⟨hid, hversion, -, -⟩ := recordSpans_kept h
      exact ⟨hid, hversion⟩

theorem proposalRedacted_went {s t : Ctx} (hs : s.Sound) {pt : FlowType} {p : Object}
    (hheld : s.work.get p.id = some p) {state left transition : String}
    {redacted erased : List String} {a : Unit}
    (hrun : proposalRedacted pt p state left transition redacted erased s = (.ok a, t)) :
    Ctx.Went s t := by
  cases hrun
  obtain ⟨hid, hversion⟩ := proposalLeft_kept s.drawn pt p state left (s.alloc.position + 1)
  exact (went_erased hs transition redacted hheld hid hversion).quietly
    (noteErased_aside _ p.id (addNames erased ["inputs"])).quiet

theorem invalidateProposal_keeps (r : Readers) (pt : FlowType) (id : String) :
    Keeps mine (invalidateProposal r pt id) := by
  refine Keeps.inContext fun s a t hrun hs _ => ?_
  cases hheld : s.work.get id with
  | none =>
      rw [hheld] at hrun
      cases hrun
      exact Ctx.Went.refl hs
  | some p =>
      rw [hheld] at hrun
      exact proposalRedacted_went hs (hs.named id p hheld ▸ hheld) hrun

theorem redactProposal_keeps (r : Readers) (pt : FlowType) (id : String) :
    Keeps mine (redactProposal r pt id) := by
  refine Keeps.inContext fun s a t hrun hs _ => ?_
  cases hheld : s.work.get id with
  | none =>
      rw [hheld] at hrun
      cases hrun
      exact Ctx.Went.refl hs
  | some p =>
      rw [hheld] at hrun
      dsimp only at hrun
      cases hpersonal : personalHeld r s.work.lib p with
      | none =>
          rw [hpersonal] at hrun
          cases hrun
          exact Ctx.Went.refl hs
      | some found =>
          rw [hpersonal] at hrun
          exact proposalRedacted_went hs (hs.named id p hheld ▸ hheld) hrun

theorem invalidateProposals_keeps (r : Readers) (erased : String) :
    Keeps mine (invalidateProposals r erased) := by
  refine Keeps.bind Keeps.context fun ctx => ?_
  split
  · exact Keeps.pure _
  · refine Keeps.bind (Keeps.forM _ fun id _ => invalidateProposal_keeps r _ id) fun _ => ?_
    refine Keeps.bind Keeps.context fun ctx => ?_
    exact Keeps.forM _ fun id _ => redactProposal_keeps r _ id

theorem clearFlowed_kept (t : Option FlowType) (p : Object) (flowed : List (String × Int)) :
    (clearFlowed t p flowed).id = p.id ∧ (clearFlowed t p flowed).version = p.version ∧
      (clearFlowed t p flowed).state = p.state := by
  unfold clearFlowed
  induction flowed generalizing p with
  | nil => exact ⟨rfl, rfl, rfl⟩
  | cons f rest ih => exact ih _

theorem clearFlowed_type (t : Option FlowType) (p : Object) (flowed : List (String × Int)) :
    (clearFlowed t p flowed).type = p.type := by
  unfold clearFlowed
  induction flowed generalizing p with
  | nil => rfl
  | cons f rest ih => exact ih _

theorem eraseObject_keeps (r : Readers) (t : FlowType) (o : Object) :
    Keeps mine (eraseObject r t o) := by
  refine (eraseObject_passes (goes_walks mine) ?_ r t o (fun _ _ _ h => h.quiet.goes)
    (fun _ _ _ h => h.quiet.goes) (invalidateProposals_keeps r o.id).passes).keeps
  intro c s id held flowed redacted _ _ hheld _ hs _
  obtain ⟨hid, hversion, hstate⟩ := clearFlowed_kept (s.work.lib.type? held.type) held flowed
  exact went_redacted hs redacted hheld hid hversion hstate

/-! ### What a transition nests -/

/-- An object under way is written in place. -/
theorem changeAttrs_goes {id : String} (s : Ctx) (f : Table String Value → Table String Value)
    (names : List String) (_ : True) :
    Ctx.Goes [id] s ((s.changeAttrs id f).noteWrote id names) := by
  intro hs hmine
  have hunder : id ∈ s.underway := hmine id (by simp)
  exact Ctx.went_change hs rfl rfl rfl rfl rfl (fun _ => rfl) (fun _ => rfl)
    fun hnot => absurd hunder hnot

theorem superseded_goes {id : String} (s : Ctx) (successor : String) (_ : True) :
    Ctx.Goes mine s { s with
      work := s.work.change id fun o => { o with supersededBy := some successor } } :=
  fun hs _ => Ctx.went_change hs rfl rfl rfl rfl rfl (fun _ => rfl) (fun _ => rfl)
    fun _ _ => ⟨rfl, rfl⟩

/-- Between its outcome and its event a transition goes soundly, whatever it
nests. -/
theorem followThrough_keeps (r : Readers) {below : TakeBelow}
    (hbelow : ∀ tn xn oid inputs, Keeps [] (below tn xn oid inputs)) (t : FlowType) (xn : String)
    (x : Transition) (id : String) (inputs : Table String Value) (position : Int) :
    Keeps [id] (followThrough r t xn x id inputs position below) :=
  (followThrough_passes (goes_walks [id])
    (fun tn xn oid inputs => (hbelow tn xn oid inputs).mono.passes)
    (fun _ _ _ _ _ hheld hs _ => went_redacted hs ["note"] hheld rfl rfl rfl) r t xn x id inputs
    position changeAttrs_goes superseded_goes).keeps

end ObjectFlow
