import ObjectFlow.Batch
import ObjectFlow.Linking
import ObjectFlow.PortSound

/-!
# Supersession over a store's runs

What a request leaves of the links is written with its change, and nothing else
written touches them.  So over any run of requests and batches no chain of a
store's comes back to where it began, and what an object is superseded by stays
what it was.
-/

namespace ObjectFlow

open Base Relation

/-! ### A request -/

namespace Ctx

section

variable {lib : Library} {s t : Ctx}

theorem judge_relinks (r : Readers) (first : Int) (reason id : String) (j : Judged) :
    Act.Passes (Chained lib) (Relinks lib) (judge r first reason id j) := by
  refine (relinks_walks lib).bind ((relinks_walks lib).reads Act.Reads.context) fun ctx => ?_
  split
  · exact (relinks_walks lib).pure _
  refine (relinks_walks lib).bind ((relinks_walks lib).reads (Act.Reads.check _)) fun found => ?_
  refine (relinks_walks lib).bind ((relinks_walks lib).reads (Act.Reads.note fun s => ?_))
    fun _ => ?_
  · exact ⟨rfl, rfl, rfl, rfl, rfl, rfl, rfl, rfl⟩
  refine (relinks_walks lib).bind ((relinks_walks lib).reads Act.Reads.context) fun ctx => ?_
  dsimp only
  split
  · exact (relinks_walks lib).pure _
  · refine (relinks_walks lib).bind (Act.Passes.modify fun s hs => ?_)
      fun _ => (relinks_walks lib).pure _
    exact Relinks.change hs rfl rfl fun _ => rfl

theorem judgeAll_relinks (r : Readers) (first : Int) (reason : String) (ids : List String)
    (j : Judged) : Act.Passes (Chained lib) (Relinks lib) (judgeAll r first reason ids j) := by
  induction ids generalizing j with
  | nil => exact (relinks_walks lib).pure _
  | cons id rest ih => exact (relinks_walks lib).bind (judge_relinks r first reason id j) ih

/-- What a request asks is of an object of its type, which its transition may be
taken of. -/
theorem asked_available {r : Readers} {w : World} {req : Request} {a : Asked}
    (h : asked r w req = .ok a) :
    (∀ id, a.oid = some id → ∃ o, w.get id = some o ∧ w.lib.isA o.type a.typeName = true) ∧
      ∀ t x o, w.lib.type? a.typeName = some t → t.transition? req.transition = some x →
        a.oid.bind w.get = some o → Available t x o := by
  obtain ⟨who, -, h⟩ := ok_of_bind h
  obtain ⟨⟨tn, oid⟩, htarget, h⟩ := ok_of_bind h
  obtain ⟨⟨t, x⟩, htransition, h⟩ := ok_of_bind h
  obtain ⟨_, -, h⟩ := ok_of_bind h
  obtain ⟨_, -, h⟩ := ok_of_bind h
  obtain ⟨_, havailable, h⟩ := ok_of_bind h
  obtain ⟨inputs, -, h⟩ := ok_of_bind h
  cases h
  refine ⟨fun id hid => ?_, fun t' x' o htype hx ho => ?_⟩
  · dsimp only at hid
    subst hid
    unfold requestTarget at htarget
    cases hobject : req.objectId with
    | none =>
      rw [hobject] at htarget
      cases htype : req.type <;> rw [htype] at htarget <;> cases htarget
    | some k =>
      rw [hobject] at htarget
      dsimp only at htarget
      cases hget : w.get k with
      | none =>
        rw [hget] at htarget
        cases htarget
      | some o =>
        rw [hget] at htarget
        dsimp only at htarget
        split at htarget
        · cases htarget
          exact ⟨o, hget, Library.isA_self _ _⟩
        · cases htarget
  · unfold requestTransition at htransition
    dsimp only at htype ho
    rw [htype] at htransition
    dsimp only at htransition
    split at htransition
    case h_2 => cases htransition
    case h_1 x'' hfound =>
      cases htransition
      obtain ⟨hfound, -⟩ := Option.filter_eq_some_iff.mp hfound
      rw [hx] at hfound
      cases hfound
      unfold checkAvailable at havailable
      rw [ho] at havailable
      refine ⟨fun hkind => ?_, fun hkind => ?_⟩
      all_goals
        rw [hkind] at havailable
        dsimp only at havailable
        split at havailable
        case isTrue hallowed => exact hallowed
        case isFalse => cases havailable

/-- **A request taken to its end** keeps the links. -/
theorem carried_relinks {r : Readers} (hlib : lib.Superseding r.metrics) {req : Request}
    {a : Asked} (hs : s.Chained lib) (htyped : Typed s a.typeName a.oid)
    (havailable : ∀ t x o, lib.type? a.typeName = some t → t.transition? req.transition = some x →
      s.target a.oid = some o → Available t x o) {v : Verdict} {c : Change}
    (hrun : carried r req a s = (.ok (v, c), t)) :
    Relinks lib s t ∧ ∃ root j, settled root j t = .ok (v, c) := by
  obtain ⟨root, s₁, htaken, hrest⟩ := Program.bind_ok hrun
  have hbelow := take_relinks hlib CALL_DEPTH 1 Nat.one_pos
  have htake := take_unwound_relinks hlib hbelow.1 hbelow.2 hs htyped
    (fun _ t x o htype hx ho => havailable t x o htype hx ho) (Program.tellStop_ok htaken)
  obtain ⟨ctx, s₂, hctx, hrest⟩ := Program.bind_ok hrest
  cases hctx
  obtain ⟨j, s₃, hjudged, hrest⟩ := Program.bind_ok hrest
  have hjudge : Act.Passes (Chained lib) (Relinks lib)
      (judgeAffected r (admissionReason s₁.work.lib a)) :=
    (relinks_walks lib).bind ((relinks_walks lib).reads Act.Reads.context) fun ctx =>
      judgeAll_relinks r _ _ _ _
  have hjudged := htake.1.trans (hjudge s₁ j s₃ hjudged htake.1.chained)
  split at hrest
  · obtain ⟨hsettled, rfl⟩ := Program.check_ok hrest
    exact ⟨hjudged, root, j, hsettled⟩
  · cases hrest

end

end Ctx

/-! ### What is decided to be written -/

namespace World

variable (w : World)

/-- Whether no state of a type is a superseding one. -/
def Plain (tn : String) : Prop := ∀ t, w.lib.type? tn = some t → t.superseding = false

/-- What a change is written from: a world whose links grow from the store's, in
which each row of the change stands as it is written, but one of a type whose
states supersede nothing. -/
structure Links (c : Change) (v : World) : Prop where
  lib : v.lib = w.lib
  sound : v.chains.Sound
  grows : w.chains.Grows v.chains
  rows : ∀ o made e, (o, made, e) ∈ c.writes → w.Plain o.type ∨
    ∃ p, v.get o.id = some p ∧ p.standing = o.standing

end World

theorem Library.Superseding.plain {w : World} {m : MetricReader} (h : w.lib.Superseding m)
    {tn : String} (htn : tn = PROPOSAL ∨ tn = DECLARATION_CHANGE) : w.Plain tn := by
  intro t htype
  rw [FlowType.superseding, List.any_eq_false]
  intro st hst hsuperseding
  have hnone : st.2.superseding = true := hsuperseding
  rw [h.builtIn tn htn t htype st hst] at hnone
  cases hnone

section

variable {r : Readers} {w : World} {alloc alloc' : Counters} {req : Request}
  {answers : Table String String} {checking : Bool} {v : Verdict} {c : Change}
  (hlib : w.lib.Superseding r.metrics) (hw : w.Opens alloc)
  (hsingle : (Table.keys w.objects).Nodup) (hsound : w.chains.Sound)

include hlib hsound

/-- A change of one row of a built-in type. -/
theorem links_single {o : Object} {made : Bool} {e : Event}
    (ho : o.type = PROPOSAL ∨ o.type = DECLARATION_CHANGE) :
    w.Links { writes := [(o, made, e)] } w where
  lib := rfl
  sound := hsound
  grows := .refl _
  rows := by
    intro o' made' e' hmem
    cases List.mem_singleton.mp hmem
    exact .inl (hlib.plain ho)

omit hlib hsound in
theorem storeRow_type (w : World) (t : FlowType) (who : Who) (position : Int)
    (before : Option (List (String × Value))) (o : Object) :
    (storeRow w t who position before o).type = o.type := by
  unfold storeRow
  dsimp only
  cases h : recordSpans w.lib t o before position w.now who.id who.kind with
  | none => rfl
  | some o' =>
      have htype := recordSpans_type h
      exact htype

theorem file_links (h : file r w alloc req = (.ok (v, c), alloc')) : w.Links c w := by
  unfold file at h
  cases hfilable : filable r w req with
  | error stop =>
    rw [hfilable] at h
    cases h
  | ok found =>
    rw [hfilable] at h
    cases h
    exact links_single hlib hsound (.inl (storeRow_type _ _ _ _ _ _))

theorem decideChange_links (h : decideChange r w alloc req = (.ok (v, c), alloc'))
    (hchanging : ∀ o, req.objectId.bind w.get = some o → o.type = DECLARATION_CHANGE) :
    w.Links c w := by
  unfold decideChange at h
  cases hchangeable : changeable r w req with
  | error stop =>
    rw [hchangeable] at h
    cases h
  | ok found =>
    obtain ⟨who, t, attrs, state⟩ := found
    rw [hchangeable] at h
    cases hheld : req.objectId.bind w.get with
    | none =>
      simp only [hheld] at h
      cases h
      exact links_single hlib hsound (.inr (storeRow_type _ _ _ _ _ _))
    | some held =>
      simp only [hheld] at h
      cases h
      exact links_single hlib hsound
        (.inr ((storeRow_type _ _ _ _ _ _).trans (hchanging held hheld)))

include hw hsingle

theorem decideOrStop_links {filedAt cause : Option Int}
    (h : decideOrStop r w alloc req answers checking filedAt cause = (.ok (v, c), alloc')) :
    ∃ v, w.Links c v := by
  unfold decideOrStop at h
  cases hasked : asked r w req with
  | error stop =>
    rw [hasked] at h
    cases h
  | ok a =>
    rw [hasked] at h
    dsimp only at h
    rcases hrun : carried r req a (Ctx.start w alloc req a answers checking filedAt cause) with
      ⟨decided, ctx⟩
    rw [hrun] at h
    obtain ⟨rfl, -⟩ := Prod.mk.inj h
    obtain ⟨htyped, havailable⟩ := Ctx.asked_available hasked
    have hstart : Ctx.Chained w.lib (Ctx.start w alloc req a answers checking filedAt cause) :=
      ⟨hw.named, hsingle, hw.fresh, rfl, hsound⟩
    obtain ⟨hrelinks, root, j, hsettled⟩ :=
      Ctx.carried_relinks hlib hstart htyped havailable hrun
    refine ⟨ctx.work, hrelinks.chained.lib, hrelinks.chained.sound, hrelinks.grows, ?_⟩
    intro o made e hmem
    unfold settled at hsettled
    dsimp only at hsettled
    cases hwrites : eventWrites ctx.work ctx.created []
        (inPositionOrder (ctx.events.map (withReads ctx.readings))) with
    | none =>
      rw [hwrites] at hsettled
      cases hsettled
    | some writes =>
      rw [hwrites] at hsettled
      cases hsettled
      have hheld := (eventWrites_spec hwrites).2 o made e hmem
      refine .inr ⟨o, ?_, rfl⟩
      rw [hrelinks.chained.named _ o hheld]
      exact hheld

theorem decideProposal_links (hdeciding : ∀ o, req.objectId.bind w.get = some o → o.type = PROPOSAL)
    (h : decideProposal r w alloc req answers checking = (.ok (v, c), alloc')) :
    ∃ v, w.Links c v := by
  unfold decideProposal at h
  cases hdecidable : decidable' w req with
  | error stop =>
    rw [hdecidable] at h
    cases h
  | ok found =>
    obtain ⟨who, p, pt, state⟩ := found
    have hp : p.type = PROPOSAL := hdeciding p (decidable'_target hdecidable).1
    rw [hdecidable] at h
    dsimp only at h
    split at h
    · cases h
      exact ⟨w, links_single hlib hsound (.inl ((storeRow_type _ _ _ _ _ _).trans hp))⟩
    · rcases hdecided : decideOrStop r w { alloc with position := alloc.position + 1 }
        (heldRequest r req p) answers checking (p.time "filed_at") (some (alloc.position + 1)) with
        ⟨answer, counters⟩
      rw [hdecided] at h
      cases answer with
      | error stop => cases h
      | ok found =>
        obtain ⟨v', c'⟩ := found
        cases h
        have hopens : w.Opens { alloc with position := alloc.position + 1 } :=
          ⟨hw.named, hw.fresh, hw.unwritten⟩
        obtain ⟨u, hu⟩ := decideOrStop_links hlib hopens hsingle hsound hdecided
        refine ⟨u, hu.lib, hu.sound, hu.grows, fun o made e hmem => ?_⟩
        rcases List.mem_cons.mp hmem with heq | hmem
        · cases heq
          refine .inl (hlib.plain (.inl ?_))
          exact (storeRow_type _ _ _ _ _ _).trans hp
        · exact hu.rows o made e hmem

/-- **What a satisfied request leaves to write** is written from a world whose
links grew from the store's. -/
theorem decide'_links (h : decide' r w alloc req answers checking = (.ok (v, c), alloc')) :
    ∃ v, w.Links c v := by
  unfold decide' at h
  dsimp only at h
  obtain ⟨v', hanswer⟩ := told_created h
  split at hanswer
  · obtain ⟨hrefused, -⟩ := Prod.mk.inj hanswer
    obtain ⟨who, -, hrefused⟩ := ok_of_bind hrefused
    cases hrefused
  split at hanswer
  · exact ⟨w, file_links hlib hsound hanswer⟩
  split at hanswer
  case isTrue hchanging =>
    refine ⟨w, decideChange_links hlib hsound hanswer fun o ho => ?_⟩
    rw [ho, Bool.or_eq_true, Bool.and_eq_true] at hchanging
    rcases hchanging with hchange | ⟨hnone, -⟩
    · exact of_decide_eq_true hchange
    · rw [Option.isNone_iff_eq_none] at hnone
      rw [hnone] at ho
      cases ho
  case isFalse =>
    split at hanswer
    case isTrue hdeciding =>
      refine decideProposal_links hlib hw hsingle hsound (fun o ho => ?_) hanswer
      rw [ho] at hdeciding
      exact of_decide_eq_true hdeciding
    case isFalse => exact decideOrStop_links hlib hw hsingle hsound hanswer

end

/-! ### What is written -/

namespace World

/-- Worlds whose objects stand the same. -/
structure Stands (w w' : World) : Prop where
  lib : w'.lib = w.lib
  keys : Table.keys w'.objects = Table.keys w.objects
  row : ∀ id, (w'.get id).map Object.standing = (w.get id).map Object.standing

namespace Stands

theorem refl (w : World) : Stands w w := ⟨rfl, rfl, fun _ => rfl⟩

theorem trans {w w' w'' : World} (h : Stands w w') (h' : Stands w' w'') : Stands w w'' :=
  ⟨h'.lib.trans h.lib, h'.keys.trans h.keys, fun id => (h'.row id).trans (h.row id)⟩

theorem foldl {α : Type} {f : World → α → World} (hf : ∀ w a, Stands w (f w a)) (as : List α)
    (w : World) : Stands w (as.foldl f w) := by
  induction as generalizing w with
  | nil => exact refl w
  | cons a rest ih => exact (hf w a).trans (ih (f w a))

/-- Rows rewritten one by one, each as it stood. -/
theorem rewritten {w w' : World} {f : String → Object → Object} (hlib : w'.lib = w.lib)
    (hobjects : w'.objects = w.objects.map fun (k, o) => (k, f k o))
    (hf : ∀ k o, (f k o).standing = o.standing) : Stands w w' where
  lib := hlib
  keys := by
    rw [hobjects, Table.keys, Table.keys, List.map_map]
    rfl
  row := by
    intro id
    have hget : w'.get id = (w.get id).map (f id) := by
      rw [World.get, World.get, hobjects, Table.get?_map_entries]
    rw [hget, Option.map_map]
    exact congrArg (Option.map · (w.get id)) (funext (hf id))

theorem rewriteRow (w : World) (id : String) (f : Object → Object)
    (hf : ∀ o, (f o).state = o.state ∧ (f o).supersededBy = o.supersededBy) :
    Stands w (w.rewriteRow id f) := by
  refine rewritten (f := fun k o => if k = id then { f o with id := o.id, type := o.type } else o)
    rfl rfl fun k o => ?_
  split
  · simp only [Object.standing, (hf o).1, (hf o).2]
  · rfl

end Stands

theorem upsertSpans_stands (w : World) (spans : List (String × String × Span)) :
    Stands w (w.upsertSpans spans) :=
  Stands.foldl (fun w _ => Stands.rewriteRow w _ _ (by exact fun _ => ⟨rfl, rfl⟩)) _ w

theorem deleteMerged_stands (w : World) (merged : List (String × String × Int × Int × Int)) :
    Stands w (w.deleteMerged merged) :=
  Stands.foldl (fun w _ => Stands.rewriteRow w _ _ (by exact fun _ => ⟨rfl, rfl⟩)) _ w

theorem writeIndex_stands (w : World) (index : List (String × String × Int)) :
    Stands w (w.writeIndex index) :=
  Stands.foldl (fun w _ => Stands.rewriteRow w _ _ (by exact fun _ => ⟨rfl, rfl⟩)) _ w

theorem writeAdmissions_stands (w : World) (admitted : List (String × String × Int × String))
    (discharged : List (String × String × Int)) :
    Stands w (w.writeAdmissions admitted discharged) :=
  Stands.rewritten (f := fun _ o => { o with admissions := o.admitted admitted discharged })
    rfl rfl fun _ _ => rfl

theorem redact_stands (w : World) (c : Change) : Stands w (w.redact c) :=
  Stands.rewritten (f := fun _ o => { o with
      attrs := c.redactedAttrs w.lib o
      spans := o.spans.map fun s => (s.1, s.2.map (c.redactedSpan o.id s.1)) })
    rfl rfl fun _ _ => rfl

theorem renameActor_stands (r : Readers) (w : World) (rn : Renaming) :
    Stands w (w.renameActor r rn) :=
  Stands.rewritten (f := fun _ o => rn.object r w.lib.identityHeld o) rfl rfl fun _ _ => rfl

theorem noteErasures_stands (w : World) : Stands w w.noteErasures :=
  Stands.rewritten (f := fun _ o => { o with erased := w.stored.any fun e =>
      e.objectId = o.id && e.source = "erased" && e.transition ≠ "redact" &&
        e.transition ≠ "invalidate" }) rfl rfl fun _ _ => rfl

/-- What is written beside a change's rows leaves every object standing as it
did. -/
theorem write_stands {r : Readers} {w w' : World} {c : Change} (h : w.write r c = some w') :
    ∃ rows, w.writeRows c.writes = some rows ∧ Stands rows w' := by
  obtain ⟨rows, hrows, h⟩ := Option.bind_eq_some_iff.mp h
  refine ⟨rows, hrows, ?_⟩
  cases h
  have hspans := upsertSpans_stands rows (c.writes.flatMap fun row => touchedSpans row.1 row.2.2)
  have hmerged := hspans.trans (deleteMerged_stands _ c.merged)
  have hindexed := hmerged.trans (writeIndex_stands _ c.index)
  have hadmitted := hindexed.trans (writeAdmissions_stands _ c.admitted c.discharged)
  have hredacted := hadmitted.trans (redact_stands _ c)
  have hrenamed := hredacted.trans (Stands.foldl
    (fun w (entry : String × String) => renameActor_stands r w ⟨entry.1, entry.2⟩)
      c.renamedActors _)
  exact hrenamed.trans (noteErasures_stands _)

/-- What of its standing a written object has: as the store held it, or as a row
of the change has it. -/
def StandsAs (w : World) (writes : List (Object × Bool × Event)) (id : String) (p : Object) : Prop :=
  (∃ q, w.get id = some q ∧ p.standing = q.standing) ∨
    ∃ o made e t, (o, made, e) ∈ writes ∧ o.id = id ∧ w.lib.type? o.type = some t ∧
      p.standing = (o.id, o.type, o.state, if t.superseding then o.supersededBy else none)

theorem writeRow_left {w w' : World} {o : Object} {made : Bool} {e : Event}
    (h : w.writeRow o made e = some w') (hw : w.Named) {id : String} {p : Object}
    (hp : w'.get id = some p) : w.StandsAs [(o, made, e)] id p := by
  unfold writeRow at h
  cases ht : w.lib.type? o.type with
  | none =>
    rw [ht] at h
    cases h
  | some t =>
    rw [ht] at h
    dsimp only at h
    split at h
    · cases h
    have hput : ∀ row : Object, row.standing =
        (o.id, o.type, o.state, if t.superseding then o.supersededBy else none) →
        Table.get? (Table.put w.objects o.id row) id = some p → w.StandsAs [(o, made, e)] id p := by
      intro row hrow hget
      rw [Table.get?_put] at hget
      split at hget
      case isTrue hid =>
        cases hget
        exact .inr ⟨o, made, e, t, List.mem_singleton_self _, hid, ht, hrow⟩
      case isFalse => exact .inl ⟨p, hget, rfl⟩
    split at h
    · cases h
      exact hput _ rfl hp
    case h_2 held hheld =>
      split at h
      case isTrue htype =>
        cases h
        refine hput _ ?_ hp
        have hid : held.id = o.id := hw o.id held hheld
        simp only [Object.standing, Object.updated, hid, htype]
      case isFalse =>
        cases h
        exact .inl ⟨p, hp, rfl⟩
    · cases h
    · cases h

/-- **Rows written** leave each object standing as it did, or as one of them
does. -/
theorem writeRows_left {w w' : World} {writes : List (Object × Bool × Event)} (hw : w.Named)
    (h : w.writeRows writes = some w') {id : String} {p : Object} (hp : w'.get id = some p) :
    w.StandsAs writes id p := by
  induction writes generalizing w with
  | nil =>
      cases h
      exact .inl ⟨p, hp, rfl⟩
  | cons write rest ih =>
      obtain ⟨o, made, e⟩ := write
      obtain ⟨w₁, hrow, hrest⟩ := Option.bind_eq_some_iff.mp h
      have hspec := writeRow_spec hrow
      have hnamed : w₁.Named := by
        intro k q hq
        rcases writeRow_left hrow hw hq with ⟨q', hq', hstands⟩ | ⟨o', _, _, _, _, hid, _, hstands⟩
        · exact (congrArg Prod.fst hstands).trans (hw k q' hq')
        · exact (congrArg Prod.fst hstands).trans hid
      rcases ih hnamed hrest with ⟨q, hq, hstands⟩ | ⟨o', made', e', t, hmem, hid, htype, hstands⟩
      · rcases writeRow_left hrow hw hq with ⟨q', hq', hstands'⟩ |
          ⟨o', made', e', t, hmem, hid, htype, hstands'⟩
        · exact .inl ⟨q', hq', hstands.trans hstands'⟩
        · cases List.mem_singleton.mp hmem
          exact .inr ⟨o, made, e, t, List.mem_cons_self, hid, htype, hstands.trans hstands'⟩
      · exact .inr ⟨o', made', e', t, List.mem_cons_of_mem _ hmem, hid, hspec.1 ▸ htype, hstands⟩

/-- Rows written keep every object of the store's held, under its id and of its
type. -/
theorem writeRows_kept {w w' : World} {writes : List (Object × Bool × Event)}
    (h : w.writeRows writes = some w') :
    w'.lib = w.lib ∧ ∀ id, (w.get id).isSome →
      (w'.get id).map Object.tag = (w.get id).map Object.tag := by
  induction writes generalizing w with
  | nil =>
      cases h
      exact ⟨rfl, fun _ _ => rfl⟩
  | cons write rest ih =>
      obtain ⟨o, made, e⟩ := write
      obtain ⟨w₁, hrow, hrest⟩ := Option.bind_eq_some_iff.mp h
      obtain ⟨hlib, -, -, -, -, -, hkept, -⟩ := writeRow_spec hrow
      obtain ⟨hlib', hkept'⟩ := ih hrest
      refine ⟨hlib'.trans hlib, fun id hid => ?_⟩
      have hsome : (w₁.get id).isSome := by
        have htag := congrArg Option.isSome (hkept id hid)
        rw [Option.isSome_map, Option.isSome_map] at htag
        rw [htag]
        exact hid
      exact (hkept' id hsome).trans (hkept id hid)

/-- What a state of a type supersedes is told by the library alone. -/
theorem supersedes_congr {w w' : World} {o o' : Object} (hlib : w'.lib = w.lib)
    (h : o'.standing = o.standing) : w'.supersedes o' = w.supersedes o := by
  simp only [Object.standing, Prod.mk.injEq] at h
  rw [supersedes, supersedes, hlib, h.2.1, h.2.2.1]

section

variable {w rows v : World} {c : Change} (hw : w.Named) (hsound : w.chains.Sound)
  (hlinks : w.Links c v) (hrows : w.writeRows c.writes = some rows)

include hw hlinks hrows

/-- A row of a type that supersedes stands as what it is written from. -/
theorem rows_stand {id : String} {p : Object} (hp : rows.get id = some p) :
    (∃ q, w.get id = some q ∧ p.standing = q.standing) ∨
      (∃ q, v.get id = some q ∧ p.standing = q.standing) ∨
        w.Plain p.type ∧ p.supersededBy = none := by
  rcases writeRows_left hw hrows hp with hheld | ⟨o, made, e, t, hmem, rfl, htype, hstands⟩
  · exact .inl hheld
  · by_cases hsuperseding : t.superseding = true
    · rw [if_pos hsuperseding] at hstands
      rcases hlinks.rows o made e hmem with hplain | ⟨q, hq, hsame⟩
      · rw [hplain t htype] at hsuperseding
        cases hsuperseding
      · exact .inr (.inl ⟨q, hq, hstands.trans hsame.symm⟩)
    · rw [if_neg hsuperseding] at hstands
      simp only [Object.standing, Prod.mk.injEq] at hstands
      refine .inr (.inr ⟨fun t' htype' => ?_, hstands.2.2.2⟩)
      rw [hstands.2.1, htype] at htype'
      cases htype'
      exact Bool.eq_false_iff.mpr hsuperseding

include hsound

/-- **Rows written** hold sound chains, grown from the store's. -/
theorem rows_links : rows.chains.Sound ∧ w.chains.Grows rows.chains := by
  obtain ⟨hlib, hkept⟩ := writeRows_kept hrows
  have hplain : ∀ {p : Object}, w.Plain p.type → rows.supersedes p = false := by
    intro p hp
    unfold supersedes
    rw [hlib]
    cases htype : w.lib.type? p.type with
    | none => rfl
    | some t =>
        have hnone := hp t htype
        rw [FlowType.superseding, List.any_eq_false] at hnone
        cases hstate : t.state? p.state with
        | none => simp [hstate]
        | some st =>
            have hst : ¬ st.superseding = true := hnone (p.state, st) (Table.mem_of_get? hstate)
            simp [hstate, hst]
  have hstood : ∀ {u : World} {x y : String} {p q : Object}, u.get x = some q →
      p.standing = q.standing → p.supersededBy = some y → u.chains.Links x y := by
    intro u x y p q hq hstands hnext
    show u.successor x = some y
    rw [successor, hq]
    exact (congrArg (fun row => row.2.2.2) hstands).symm.trans hnext
  have hlinked : ∀ {x y}, rows.chains.Links x y → v.chains.Links x y := by
    intro x y hxy
    obtain ⟨p, hp, hnext⟩ := Option.bind_eq_some_iff.mp hxy
    rcases rows_stand hw hlinks hrows hp with ⟨q, hq, hstands⟩ | ⟨q, hq, hstands⟩ | ⟨-, hnone⟩
    · have hbefore := hstood hq hstands hnext
      exact (hlinks.grows.kept (hsound.ended hbefore)).trans hbefore
    · exact hstood hq hstands hnext
    · rw [hnone] at hnext
      cases hnext
  -- what had ended has a row that stands as it did, or as it was written from
  have hended : ∀ {x}, w.chains.ended x →
      rows.chains.ended x ∧ rows.successor x = w.successor x := by
    rintro x ⟨q, hq, hends⟩
    have htag := hkept x (by rw [hq]; rfl)
    rw [hq] at htag
    obtain ⟨p, hp, hpq⟩ := Option.map_eq_some_iff.mp htag
    have htype : p.type = q.type := congrArg Prod.snd hpq
    rcases rows_stand hw hlinks hrows hp with ⟨q', hq', hstands⟩ | ⟨q', hq', hstands⟩ | ⟨hnone, -⟩
    · rw [hq] at hq'
      cases hq'
      refine ⟨⟨p, hp, (supersedes_congr hlib hstands).trans hends⟩, ?_⟩
      rw [successor, successor, hp, hq]
      exact congrArg (fun row => row.2.2.2) hstands
    · obtain ⟨q'', hq'', hends'⟩ := hlinks.grows.ended (x := x) ⟨q, hq, hends⟩
      rw [hq'] at hq''
      cases hq''
      refine ⟨⟨p, hp, ?_⟩, ?_⟩
      · rw [supersedes_congr (hlib.trans hlinks.lib.symm) hstands]
        exact hends'
      · have hnext := hlinks.grows.kept (x := x) ⟨q, hq, hends⟩
        refine Eq.trans ?_ hnext
        show rows.successor x = v.successor x
        rw [successor, successor, hp, hq']
        exact congrArg (fun row => row.2.2.2) hstands
    · rw [htype] at hnone
      have hfalse := hplain hnone
      rw [supersedes, hlib, ← supersedes, hends] at hfalse
      cases hfalse
  refine ⟨hlinks.sound.fewer ?_ hlinked, fun hx => (hended hx).1, fun hx => (hended hx).2,
    fun hy hxy => hlinks.grows.into hy (hlinked hxy)⟩
  intro x y hxy
  obtain ⟨p, hp, hnext⟩ := Option.bind_eq_some_iff.mp hxy
  rcases rows_stand hw hlinks hrows hp with ⟨q, hq, hstands⟩ | ⟨q, hq, hstands⟩ | ⟨-, hnone⟩
  · exact (hended (hsound.ended (hstood hq hstands hnext))).1
  · obtain ⟨q', hq', hends⟩ := hlinks.sound.ended (hlinked hxy)
    rw [hq] at hq'
    cases hq'
    exact ⟨p, hp, (supersedes_congr (hlib.trans hlinks.lib.symm) hstands).trans hends⟩
  · rw [hnone] at hnext
    cases hnext

end

/-- Each row of a table written once, its keys stay apart. -/
theorem writeRows_single {w w' : World} {writes : List (Object × Bool × Event)}
    (hw : (Table.keys w.objects).Nodup) (h : w.writeRows writes = some w') :
    (Table.keys w'.objects).Nodup := by
  induction writes generalizing w with
  | nil =>
      cases h
      exact hw
  | cons write rest ih =>
      obtain ⟨o, made, e⟩ := write
      obtain ⟨w₁, hrow, hrest⟩ := Option.bind_eq_some_iff.mp h
      refine ih ?_ hrest
      unfold writeRow at hrow
      split at hrow
      · cases hrow
      split at hrow
      · cases hrow
      split at hrow
      · cases hrow
        exact Table.nodup_keys_put _ _ hw
      · split at hrow
        · cases hrow
          exact Table.nodup_keys_put _ _ hw
        · cases hrow
          exact hw
      · cases hrow
      · cases hrow

/-- **A change written** holds sound chains, grown from the store's. -/
theorem write_links {r : Readers} {w w' v : World} {c : Change} (hw : w.Named)
    (hsingle : (Table.keys w.objects).Nodup) (hsound : w.chains.Sound) (hlinks : w.Links c v)
    (h : w.write r c = some w') :
    (Table.keys w'.objects).Nodup ∧ w'.chains.Sound ∧ w.chains.Grows w'.chains := by
  obtain ⟨rows, hrows, hstands⟩ := write_stands h
  rw [chains_congr hstands.lib hstands.row, hstands.keys]
  exact ⟨writeRows_single hsingle hrows, rows_links hw hsound hlinks hrows⟩

end World

/-! ### Any run of requests and batches -/

/-- A step of a store: a request, or a batch of them. -/
inductive KeyedStep where
  | request (now : Int) (attempts : Table String (List Value)) (req : Request)
    (answers : Table String String)
  | batch (now : Int) (attempts : Nat → Table String (List Value))
    (answers : Table String String) (reqs : List Request) (names : List LocalNames)
    (key : Option String)

namespace KeyedStore

section

variable (r : Readers) (sha : String → String) (written : Json → String)

/-- What a step leaves. -/
def step (s : KeyedStore) : KeyedStep → KeyedStore
  | .request now attempts req answers =>
      (s.request r (hexOf sha written) now attempts req answers).2
  | .batch now attempts answers reqs names key =>
      (s.batchNamed r sha written now attempts answers reqs names key).2

/-- What a run of steps leaves. -/
def run (s : KeyedStore) (steps : List KeyedStep) : KeyedStore :=
  steps.foldl (step r sha written) s

end

/-- A sound store whose chains come back to no object of it. -/
structure Linked (s : KeyedStore) : Prop where
  sound : s.Sound
  single : (Table.keys s.world.objects).Nodup
  links : s.world.chains.Sound

/-- What a step leaves of the links: sound chains, grown from those there
were. -/
structure Lengthens (s s' : KeyedStore) : Prop where
  linked : s'.Linked
  lib : s'.world.lib = s.world.lib
  grows : s.world.chains.Grows s'.world.chains

variable {r : Readers} {sha : String → String} {written : Json → String} {hex : Json → String}
  {s s' s'' : KeyedStore}

theorem Lengthens.refl (hs : s.Linked) : Lengthens s s := ⟨hs, rfl, .refl _⟩

theorem Lengthens.trans (h : Lengthens s s') (h' : Lengthens s' s'') : Lengthens s s'' :=
  ⟨h'.linked, h'.lib.trans h.lib, h.grows.trans h'.grows⟩

/-- A change a request applies is the one it was decided to make. -/
theorem applied_decided {w : World} {req : Request} {answers : Table String String} {c : Change}
    (h : PortStore.applied r w (s.outcome r hex w req answers).1 = some c) :
    ∃ v alloc, decide' r w s.drawing req answers false = (.ok (v, c), alloc) := by
  unfold outcome at h
  dsimp only at h
  split at h
  case h_1 =>
    split at h <;> cases h
  case h_2 =>
    rcases hdecided : decide' r w s.drawing req answers false with ⟨_ | ⟨v, c'⟩, alloc⟩
    · rw [hdecided] at h
      cases h
    · rw [hdecided] at h
      obtain ⟨_, -, hc⟩ := Option.map_eq_some_iff.mp h
      exact ⟨v, alloc, by rw [hc]⟩

/-- **One request** lengthens a store's chains at most. -/
theorem Linked.request (hs : s.Linked) (hlib : s.world.lib.Superseding r.metrics) (now : Int)
    (attempts : Table String (List Value)) (req : Request) (answers : Table String String) :
    Lengthens s (s.request r hex now attempts req answers).2 := by
  have hloaded := loaded_sound hs.sound
  have hsound : (s.request r hex now attempts req answers).2.Sound :=
    settled_sound hloaded now attempts req answers
  rcases @settled_world r hex s.loaded now attempts req answers with
    ⟨hsame, -⟩ | ⟨c, hwrite, happlied⟩
  · have hworld : (s.request r hex now attempts req answers).2.world = s.loaded.world := hsame
    refine ⟨⟨hsound, ?_, ?_⟩, ?_, ?_⟩ <;> rw [hworld]
    · exact hs.single
    · exact hs.links
    · rfl
    · exact .refl _
  · obtain ⟨v, alloc, hdecided⟩ := applied_decided happlied
    have hopens : (s.loaded.opened now attempts).Opens s.loaded.drawing :=
      ⟨hs.sound.opens.named, hs.sound.opens.fresh, hs.sound.opens.unwritten⟩
    have hlib : (s.loaded.opened now attempts).lib.Superseding r.metrics := hlib
    have hsingle : (Table.keys (s.loaded.opened now attempts).objects).Nodup := hs.single
    have hlinks : (s.loaded.opened now attempts).chains.Sound := hs.links
    obtain ⟨u, hchange⟩ := decide'_links hlib hopens hsingle hlinks hdecided
    obtain ⟨hsingle, hlinked, hgrows⟩ :=
      World.write_links hopens.named hsingle hlinks hchange hwrite
    have hkept : (s.request r hex now attempts req answers).2.world.lib =
        (s.loaded.opened now attempts).lib := PortStore.write_lib hwrite
    exact ⟨⟨hsound, hsingle, hlinked⟩, hkept, hgrows⟩

/-- Requests taken in turn lengthen a store's chains at most. -/
theorem Linked.inTurn {now : Int} {attempts : Nat → Table String (List Value)}
    {answers : Table String String} {made : Table String String} {index : Nat}
    {reqs : List (Request × LocalNames)} {vs : List Verdict} (hs : s.Linked)
    (hlib : s.world.lib.Superseding r.metrics)
    (h : InTurn r sha written now attempts answers s made index reqs vs s') :
    Lengthens s s' := by
  induction h with
  | done s made index => exact Lengthens.refl hs
  | @next s s₁ s₂ made made₁ index sent n rest id version events created flags replayed refusal vs
      hrequest hnames hrest ih =>
      have hone : Lengthens s (s.request r (hexOf sha written) now (attempts index)
          (resolved written sent n made) answers).2 := hs.request hlib now _ _ answers
      rw [hrequest] at hone
      exact hone.trans (ih hone.linked (hone.lib ▸ hlib))

/-- **A batch** lengthens a store's chains as its requests do in turn, or leaves
them. -/
theorem Linked.batch (hs : s.Linked) (hlib : s.world.lib.Superseding r.metrics) (now : Int)
    (attempts : Nat → Table String (List Value)) (answers : Table String String)
    (reqs : List Request) (names : List LocalNames) (key : Option String) :
    Lengthens s (s.batchNamed r sha written now attempts answers reqs names key).2 := by
  rcases batch_in_turn_or_nothing r sha written now attempts answers s reqs names key with
    ⟨vs, s', -, hturn, records, hafter⟩ | ⟨-, huntouched⟩
  · have hlater := hs.inTurn hlib hturn
    rw [hafter]
    exact ⟨⟨hlater.linked.sound, hlater.linked.single, hlater.linked.links⟩, hlater.lib,
      hlater.grows⟩
  · generalize (s.batchNamed r sha written now attempts answers reqs names key).2 = after
      at huntouched
    have halike : s.world.Alike after.world := by
      rw [huntouched.world]
      exact ⟨rfl, rfl, rfl, fun _ => rfl, rfl⟩
    have hsound : after.Sound := by
      have hsame := hs.sound.alike halike
      have hstore : after.toStore =
          ⟨after.world, s.counters, after.numbers, s.acknowledged, s.restores⟩ := by
        rw [← huntouched.counters, ← huntouched.acknowledged, ← huntouched.restores]
      rw [hstore]
      exact ⟨hsame.opens, hsame.appended, hsame.ordered, hsame.positive, hsame.bounded,
        hsame.started, hsame.held, hsame.restored, hsame.acknowledged⟩
    refine ⟨⟨hsound, ?_, ?_⟩, ?_, ?_⟩ <;> rw [huntouched.world]
    · exact hs.single
    · exact hs.links
    · exact .refl _

/-- **Any run** lengthens a store's chains at most. -/
theorem Linked.run (hs : s.Linked) (hlib : s.world.lib.Superseding r.metrics)
    (steps : List KeyedStep) : Lengthens s (s.run r sha written steps) := by
  induction steps generalizing s with
  | nil => exact Lengthens.refl hs
  | cons st rest ih =>
      have hstep : Lengthens s (s.step r sha written st) := by
        cases st with
        | request now attempts req answers => exact hs.request hlib now attempts req answers
        | batch now attempts answers reqs names key =>
            exact hs.batch hlib now attempts answers reqs names key
      exact hstep.trans (ih hstep.linked (hstep.lib ▸ hlib))

/-- **Supersession comes back to no object, and is of one successor**: over any
run of requests and batches, whatever transitions each nests, no object is
reached again by following what each is superseded by, and an object superseded
at any point of the run is superseded by the same one from then on. -/
theorem supersession_acyclic_linear (hs : s.Linked) (hlib : s.world.lib.Superseding r.metrics)
    (earlier later : List KeyedStep) :
    let midway := s.run r sha written earlier
    let after := s.run r sha written (earlier ++ later)
    (∀ id, ¬ TransGen (fun x y => after.world.successor x = some y) id id) ∧
      ∀ x y, midway.world.successor x = some y → after.world.successor x = some y := by
  have hmidway : Lengthens s (s.run r sha written earlier) := hs.run hlib earlier
  have hafter : Lengthens (s.run r sha written earlier)
      ((s.run r sha written earlier).run r sha written later) :=
    hmidway.linked.run (hmidway.lib ▸ hlib) later
  have hrun : s.run r sha written (earlier ++ later) =
      (s.run r sha written earlier).run r sha written later := List.foldl_append
  dsimp only
  rw [hrun]
  refine ⟨hafter.linked.links.acyclic, fun x y hxy => ?_⟩
  exact (hafter.grows.kept (hmidway.linked.links.ended hxy)).trans hxy

end KeyedStore

namespace Merging

/-- An order that ends merged into another one. -/
def order : FlowType where
  name := "Order"
  states := [("OPEN", {}), ("MERGED", { isFinal := true, superseding := true })]
  transitions := [("make", { kind := .initial, toStates := ["OPEN"] }),
    ("merge", { kind := .external, fromStates := some (.states ["OPEN"]), toStates := ["MERGED"]
                requiredInputs := ["into"]
                inputs := [("into", { declared := .reference "Order" })]
                effect := [.supersede (.path (.name "inputs") "into")] })]

/-- An object's id where a reference is declared, and else a text. -/
def decode (declared : Declared) (raw : Json) : Except InputReason Value :=
  (raw.string?.map fun s => if declared.namesObject then Value.object s else .text s).elim
    (.error .wrongType) .ok

def readers : Readers :=
  { CallingBack.readers with decode := fun _ declared _ raw => decode declared raw }

/-- A store of the one person who merges orders. -/
def store : KeyedStore where
  world :=
    { lib := { types := [("Order", order), ("Person", CallingBack.person)] }
      objects := [(numberedId "person" 1, { id := numberedId "person" 1, type := "Person"
                                            state := "ACTIVE"
                                            attrs := [("identity", .text "ann")] })] }
  counters := { CallingBack.counters with position := 0, object := 1 }

theorem linked : store.Linked where
  sound :=
    { opens := by
        refine ⟨?_, ?_, rfl⟩
        · intro id o h
          simp only [World.get, store, Table.get?] at h
          split at h
          case isTrue hid =>
            cases h
            exact hid
          case isFalse => cases h
        · intro type n hn
          have hpast : 1 < n := hn
          have hnew : numberedId "person" 1 ≠ numberedId type n := by
            intro heq
            have := numberedId_distinct "person" type 1 n heq
            omega
          show (if numberedId "person" 1 = numberedId type n then _ else none) = none
          rw [if_neg hnew]
      appended := rfl
      ordered := by decide +kernel
      positive := by decide +kernel
      bounded := by decide +kernel
      started := by decide
      held := by decide +kernel
      restored := by simp [store]
      acknowledged := by simp [store] }
  single := by decide +kernel
  links := by
    have hnone : ∀ x y, ¬ store.world.chains.Links x y := by
      intro x y h
      obtain ⟨o, ho, hnext⟩ := Option.bind_eq_some_iff.mp h
      simp only [World.get, store, Table.get?] at ho
      split at ho
      · cases ho
        cases hnext
      · cases ho
    refine ⟨fun h => (hnone _ _ h).elim, fun x h => ?_⟩
    obtain ⟨y, h, -⟩ := TransGen.head'_iff.mp h
    exact hnone x y h

theorem superseding : store.world.lib.Superseding readers.metrics where
  final := by decide +kernel
  leaves := by
    intro entry hentry x hx hkind names s hfrom hs
    have htypes : entry = ("Order", order) ∨ entry = ("Person", CallingBack.person) := by
      simpa [store] using hentry
    rcases htypes with rfl | rfl
    · simp only [order, List.mem_cons, List.not_mem_nil, or_false] at hx
      rcases hx with rfl | rfl
      · cases hkind
      · cases hfrom
        cases List.mem_singleton.mp hs
        rfl
    · cases hx
  unextended := by decide +kernel
  enters := by decide +kernel
  names := by decide +kernel
  builtIn := by
    intro tn htn t htype
    rcases htn with rfl | rfl <;> cases htype
  defaults := by
    intro entry hentry x hx hkind input hinput
    have htypes : entry = ("Order", order) ∨ entry = ("Person", CallingBack.person) := by
      simpa [store] using hentry
    rcases htypes with rfl | rfl
    · simp only [order, List.mem_cons, List.not_mem_nil, or_false] at hx
      rcases hx with rfl | rfl
      · cases hinput
      · cases hkind
    · cases hx

/-- A request of one order merged into another. -/
def merge (order into : String) : KeyedStep :=
  .request 200 [] { transition := "merge", actor := "ann", objectId := some order
                    inputs := [("into", .string into)] } []

/-- Two orders made in a batch, the first merged into the second. -/
def earlier : List KeyedStep :=
  [.batch 100 (fun _ => []) []
    [{ transition := "make", actor := "ann", type := some "Order" },
      { transition := "make", actor := "ann", type := some "Order" }] [] none,
    merge (numberedId "order" 2) (numberedId "order" 3)]

/-- The second asked to be merged into the first. -/
def later : List KeyedStep := [merge (numberedId "order" 3) (numberedId "order" 2)]

end Merging

/-- Two orders, the first merged into the second: it stays so once the second is
asked to be merged into the first, and neither chain comes back. -/
theorem orders_merge_one_way :
    let midway := Merging.store.run Merging.readers (fun _ => "") (fun _ => "") Merging.earlier
    let after := Merging.store.run Merging.readers (fun _ => "") (fun _ => "")
      (Merging.earlier ++ Merging.later)
    midway.world.successor (numberedId "order" 2) = some (numberedId "order" 3) ∧
      after.world.successor (numberedId "order" 2) = some (numberedId "order" 3) ∧
        ¬ TransGen (fun x y => after.world.successor x = some y) (numberedId "order" 3)
          (numberedId "order" 3) := by
  intro midway after
  have hmidway : midway.world.successor (numberedId "order" 2) = some (numberedId "order" 3) := by
    decide +kernel
  obtain ⟨hacyclic, hlinear⟩ := @KeyedStore.supersession_acyclic_linear Merging.readers
    (fun _ => "") (fun _ => "") Merging.store Merging.linked Merging.superseding Merging.earlier
    Merging.later
  exact ⟨hmidway, hlinear _ _ hmidway, hacyclic _⟩

end ObjectFlow
