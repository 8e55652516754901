import ObjectFlow.Operations

/-!
# The log replays to the row

A satisfied request's events replay the rows it leaves exactly where no object
was re-entered: no event was recorded on an object while a transition of it was
in progress.
-/

namespace ObjectFlow

open Base

/-! ### The rest of a request -/

theorem Ctx.Kept.goes {mine : List String} {s t : Ctx} (h : Ctx.Kept s t) :
    Ctx.Goes mine s t := by
  intro hs _
  refine ⟨h.sound hs, fun id hid => (h.held id).symm ▸ hid, [], ?_⟩
  refine Journal.Advanced.of_unrecorded (congrArg (List.map Event.entry) h.events) h.underway
    (by rw [show t.journal.position = s.journal.position from congrArg Counters.position h.alloc])
    h.reentered (fun id => by show (t.work.row id).version = _; rw [h.row]; rfl)
    (fun id _ => by show (t.work.row id).state = _; rw [h.row]; rfl) fun id => ?_
  exact SameAttrs.of_eq (congrArg Journal.Row.content (h.row id)).symm

section

variable {mine : List String}

open Act

theorem judge_keeps (r : Readers) (first : Int) (reason id : String) (j : Judged) :
    Keeps mine (judge r first reason id j) := by
  refine Keeps.bind Keeps.context fun ctx => ?_
  split
  · exact Keeps.pure _
  refine Keeps.bind (Keeps.check _) fun found => ?_
  refine Keeps.bind (Keeps.quietly fun s => ?_) fun _ => Keeps.bind Keeps.context fun ctx => ?_
  · exact ⟨rfl, rfl, rfl, rfl, rfl, le_refl _, le_refl _, rfl⟩
  dsimp only
  split
  · exact Keeps.pure _
  · refine Keeps.bind (Keeps.modify fun s => Ctx.Kept.goes ?_) fun _ => Keeps.pure _
    exact Ctx.kept_change rfl (fun _ => rfl) (fun _ => rfl) (fun _ => rfl) (fun _ => rfl) rfl rfl
      rfl rfl

theorem judgeAll_keeps (r : Readers) (first : Int) (reason : String) (ids : List String)
    (j : Judged) : Keeps mine (judgeAll r first reason ids j) := by
  induction ids generalizing j with
  | nil => exact Keeps.pure _
  | cons id rest ih => exact Keeps.bind (judge_keeps r first reason id j) ih

end

/-! ### What a request's context leaves -/

theorem start_sound {w : World} {alloc : Counters} (hw : w.Opens alloc) (req : Request)
    (a : Asked) (answers : Table String String) (checking : Bool) (filedAt cause : Option Int) :
    (Ctx.start w alloc req a answers checking filedAt cause).Sound where
  named := hw.named
  unheld := fun id _ => by
    show Table.get? w.lastWritten id = none
    rw [hw.unwritten]
    rfl
  settled := fun id _ => by
    show SameAttrs (w.baseline id) (w.attrsHeld id)
    rw [World.baseline, hw.unwritten]
    exact SameAttrs.of_eq rfl
  fresh := hw.fresh

/-- A request taken to its end went soundly from its start, and its change is
what its context came to. -/
theorem carried_settled {r : Readers} {req : Request} {a : Asked} {s t : Ctx} (hs : s.Sound)
    {v : Verdict} {c : Change} (hrun : carried r req a s = (.ok (v, c), t)) :
    Ctx.Went s t ∧ ∃ root j, settled root j t = .ok (v, c) := by
  obtain ⟨root, s₁, htaken, hrest⟩ := Program.bind_ok hrun
  have htake : Act.Keeps [] ((take r (CALL_DEPTH + 1) 0 a.typeName req.transition a.oid
      a.inputs).tellStop withRefusedReads) :=
    Act.Keeps.tellStop (take_keeps r _ _ _ _ _ _)
  have hwent := htake s root s₁ htaken hs (by simp)
  obtain ⟨ctx, s₂, hctx, hrest⟩ := Program.bind_ok hrest
  cases hctx
  obtain ⟨j, s₃, hjudged, hrest⟩ := Program.bind_ok hrest
  have hjudge : Act.Keeps [] (judgeAffected r (admissionReason s₁.work.lib a)) :=
    Act.Keeps.bind Act.Keeps.context fun ctx => judgeAll_keeps r _ _ _ _
  have hwent' := hwent.trans (hjudge s₁ j s₃ hjudged hwent.sound (by simp))
  split at hrest
  · obtain ⟨hsettled, rfl⟩ := Program.check_ok hrest
    exact ⟨hwent', root, j, hsettled⟩
  · cases hrest

/-- The events written are those recorded, each with its object as it stands. -/
theorem eventWrites_spec {work : World} {created : List String} {seen : List String}
    {events : List Event} {writes : List (Object × Bool × Event)}
    (h : eventWrites work created seen events = some writes) :
    writes.map (fun (_, _, e) => e) = events ∧
      ∀ o made e, (o, made, e) ∈ writes → work.get e.objectId = some o := by
  induction events generalizing seen writes with
  | nil =>
      cases h
      exact ⟨rfl, by simp⟩
  | cons e rest ih =>
      obtain ⟨o, ho, h⟩ := Option.bind_eq_some_iff.mp h
      obtain ⟨others, hothers, h⟩ := Option.bind_eq_some_iff.mp h
      cases h
      obtain ⟨hevents, hheld⟩ := ih hothers
      refine ⟨by rw [List.map_cons, hevents], ?_⟩
      intro o' made e' hmem
      rcases List.mem_cons.mp hmem with heq | hmem
      · cases heq
        exact ho
      · exact hheld o' made e' hmem

theorem withReads_entry (readings : Table Int Reading) (e : Event) :
    (withReads readings e).entry = e.entry := by
  unfold withReads
  split <;> rfl

/-- Events in the order of their positions are what sorting them gives. -/
theorem inPositionOrder_eq {events sorted : List Event} (hperm : events.Perm sorted)
    (hsorted : sorted.Pairwise fun a b => a.position < b.position) :
    inPositionOrder events = sorted := by
  have hordered : sorted.Pairwise fun a b : Event => a.position ≤ b.position :=
    hsorted.imp le_of_lt
  refine List.Perm.eq_of_pairwise ?_ (List.pairwise_insertionSort _ _) hordered
    ((List.perm_insertionSort _ _).trans hperm)
  intro a b ha hb hab hba
  have hmem : a ∈ sorted := hperm.subset ((List.mem_insertionSort _).mp ha)
  by_contra hne
  rw [List.pairwise_iff_getElem] at hsorted
  obtain ⟨i, hi, rfl⟩ := List.mem_iff_getElem.mp hmem
  obtain ⟨j, hj, rfl⟩ := List.mem_iff_getElem.mp hb
  rcases lt_trichotomy i j with hij | rfl | hji
  · exact absurd (hsorted i j hi hj hij) (not_lt.mpr hba)
  · exact hne rfl
  · exact absurd (hsorted j i hj hi hji) (not_lt.mpr hab)

/-- Events whose entries replay a row are chained from its state. -/
theorem chained_of_replays {F : Folding (Table String Value) (Table String Value)}
    {r r' : Journal.Row String (Table String Value)} {events : List Event}
    (h : Journal.Replays F r (events.map Event.entry) r') : Chained r.state events := by
  induction events generalizing r with
  | nil => trivial
  | cons e rest ih =>
      cases h with
      | cons hseq hsource hrest => exact ⟨hsource, ih hrest⟩

theorem foldl_entries (attrs : Table String Value) (events : List Event) :
    (events.map Event.entry).foldl (fun a e => attrsFolding.apply a e.patch) attrs =
      events.foldl (fun attrs e => replayed attrs e.payload.wrote) attrs := by
  rw [List.foldl_map]
  rfl

/-! ### One request taken -/

/-- What a request's change tells of the objects it touches. -/
structure Change.Records (w : World) (c : Change) : Prop where
  disordered : c.reentered = true → ∃ a ∈ c.events, ∃ b ∈ c.events,
    a.objectId = b.objectId ∧ a.position < b.position ∧ b.objectSeq ≤ a.objectSeq
  replays : c.reentered = false → LogReplays w c
  first : ∀ e ∈ c.events, ∃ f ∈ c.events,
    f.objectId = e.objectId ∧ f.objectSeq = (w.row e.objectId).version + 1

/-- One object's events, whatever their rules read, as the journal holds
them. -/
theorem entries_of (readings : Table Int Reading) (events : List Event) (id : String) :
    ((events.map (withReads readings)).filter fun e => e.objectId = id).map Event.entry =
      Journal.of (events.map Event.entry) id := by
  induction events with
  | nil => rfl
  | cons e rest ih =>
      have hentry := withReads_entry readings e
      have hid : (withReads readings e).objectId = e.objectId :=
        congrArg Journal.Entry.subject hentry
      rw [List.map_cons, List.map_cons, Journal.of, List.filter_cons, List.filter_cons, hid]
      by_cases h : e.objectId = id
      · rw [if_pos (decide_eq_true h), if_pos (decide_eq_true (p := e.entry.subject = id) h),
          List.map_cons, ih, hentry]
        rfl
      · have hdecide : ¬ decide (e.objectId = id) = true := by simpa using h
        rw [if_neg hdecide, if_neg (show ¬ decide (e.entry.subject = id) = true from hdecide), ih]
        rfl

/-- A context's events, in position order and with their reads, tell what its
journal holds. -/
theorem settled_records {w : World} {s t : Ctx} (hwork : s.work = w)
    (hunwritten : w.lastWritten = []) (hidle : s.underway = []) (hnone : s.events = [])
    (hnew : s.reentered = false) (hwent : Ctx.Went s t) {root : String} {j : Judged}
    {v : Verdict} {c : Change} (hsettled : settled root j t = .ok (v, c)) :
    c.Records w := by
  unfold settled at hsettled
  dsimp only at hsettled
  cases hwrites : eventWrites t.work t.created []
      (inPositionOrder (t.events.map (withReads t.readings))) with
  | none =>
    rw [hwrites] at hsettled
    cases hsettled
  | some writes =>
    rw [hwrites] at hsettled
    cases hsettled
    obtain ⟨hevents, hheld⟩ := eventWrites_spec hwrites
    obtain ⟨es, hadvanced⟩ := hwent.advanced
    have hes : t.events.map Event.entry = es := by
      have hentries := hadvanced.entries
      rw [show s.journal.entries = [] from congrArg (List.map Event.entry) hnone,
        List.nil_append] at hentries
      exact hentries
    have hin : ∀ e ∈ t.events, withReads t.readings e ∈
        inPositionOrder (t.events.map (withReads t.readings)) := fun e he =>
      (List.mem_insertionSort _).mpr (List.mem_map.mpr ⟨e, he, rfl⟩)
    have hout : ∀ e ∈ inPositionOrder (t.events.map (withReads t.readings)),
        ∃ f ∈ t.events, f.entry = e.entry := by
      intro e he
      obtain ⟨f, hf, rfl⟩ := List.mem_map.mp ((List.mem_insertionSort _).mp he)
      exact ⟨f, hf, (withReads_entry _ _).symm⟩
    have hentry : ∀ e : Event, (withReads t.readings e).entry = e.entry := withReads_entry _
    refine ⟨?_, ?_, ?_⟩
    · intro hreentered
      obtain ⟨ea, hea, eb, heb, hsame, hposition, hseq⟩ :=
        hadvanced.disordered_of_reentered hidle hnew hreentered
      rw [← hes] at hea heb
      obtain ⟨a, ha, rfl⟩ := List.mem_map.mp hea
      obtain ⟨b, hb, rfl⟩ := List.mem_map.mp heb
      refine ⟨_, hevents ▸ hin a ha, _, hevents ▸ hin b hb, ?_, ?_, ?_⟩
      · show (withReads t.readings a).entry.subject = (withReads t.readings b).entry.subject
        rw [hentry, hentry]
        exact hsame
      · show (withReads t.readings a).entry.position < (withReads t.readings b).entry.position
        rw [hentry, hentry]
        exact hposition
      · show (withReads t.readings b).entry.seq ≤ (withReads t.readings a).entry.seq
        rw [hentry, hentry]
        exact hseq
    · intro hquiet o made e hmem
      generalize hid : e.objectId = id
      have hofs := entries_of t.readings t.events id
      rw [hes] at hofs
      obtain ⟨hordered, hreplays⟩ := hadvanced.replays_of_quiet hidle hquiet id
      rw [← hofs] at hordered hreplays
      have hsorted : ((t.events.map (withReads t.readings)).filter fun e => e.objectId = id).Pairwise
          fun a b => a.position < b.position := (List.pairwise_map (f := Event.entry)).mp hordered
      have heventsOf : inPositionOrder ((writes.map fun (_, _, e) => e).filter
          fun e => e.objectId = id) =
            (t.events.map (withReads t.readings)).filter fun e => e.objectId = id := by
        refine inPositionOrder_eq ?_ hsorted
        rw [hevents]
        exact (List.perm_insertionSort _ _).filter _
      show ReplaysTo (w.get id) (inPositionOrder ((writes.map fun (_, _, e) => e).filter
        fun e => e.objectId = id)) o
      rw [heventsOf]
      have hnow : t.work.get id = some o := hid ▸ hheld o made e hmem
      have hrow : s.journal.rows id = w.row id := by
        show s.work.row id = w.row id
        rw [hwork]
      refine ⟨(List.pairwise_map (f := Event.entry)).mp hreplays.increasing, ?_, ?_⟩
      · have hchained := chained_of_replays hreplays
        rw [hrow] at hchained
        exact hchained
      · have hcontent := hreplays.content
        rw [hrow, foldl_entries] at hcontent
        have hbase : (w.row id).content = ((w.get id).map (·.attrs)).getD [] := by
          show w.baseline id = _
          rw [World.baseline, hunwritten]
          rfl
        rw [hbase] at hcontent
        refine sameAttrs_equivalence.trans hcontent ?_
        have hidleT : id ∉ t.underway := by
          rw [hwent.underway, hidle]
          simp
        have hsame := hwent.sound.settled id hidleT
        rw [World.attrsHeld, hnow] at hsame
        exact hsame
    · intro e he
      obtain ⟨f, hf, hfe⟩ := hout e (hevents ▸ he)
      have hsubject : f.objectId = e.objectId := congrArg Journal.Entry.subject hfe
      have hmem : f.entry ∈ Journal.of es e.objectId :=
        Journal.mem_of.mpr ⟨hes ▸ List.mem_map.mpr ⟨f, hf, rfl⟩, hsubject⟩
      obtain ⟨eg, rest, hof⟩ := List.exists_cons_of_ne_nil (List.ne_nil_of_mem hmem)
      have hfirst := hadvanced.first e.objectId eg rest hof
      obtain ⟨heg, hid⟩ := Journal.mem_of.mp (hof ▸ List.mem_cons_self)
      rw [← hes] at heg
      obtain ⟨g, hg, rfl⟩ := List.mem_map.mp heg
      refine ⟨_, hevents ▸ hin g hg, ?_, ?_⟩
      · show (withReads t.readings g).entry.subject = e.objectId
        rw [hentry]
        exact hid
      · show (withReads t.readings g).entry.seq = (w.row e.objectId).version + 1
        rw [hentry, hfirst]
        show (s.work.row e.objectId).version + 1 = _
        rw [hwork]

theorem decideOrStop_records {r : Readers} {w : World} {alloc alloc' : Counters} {req : Request}
    {answers : Table String String} {checking : Bool} {filedAt cause : Option Int} {v : Verdict}
    {c : Change} (hw : w.Opens alloc)
    (h : decideOrStop r w alloc req answers checking filedAt cause = (.ok (v, c), alloc')) :
    c.Records w := by
  unfold decideOrStop at h
  cases hasked : asked r w req with
  | error stop =>
    rw [hasked] at h
    cases h
  | ok a =>
    rw [hasked] at h
    dsimp only at h
    rcases hrun : carried r req a (Ctx.start w alloc req a answers checking filedAt cause) with
      ⟨decided, ctx⟩
    rw [hrun] at h
    obtain ⟨rfl, -⟩ := Prod.mk.inj h
    obtain ⟨hwent, root, j, hsettled⟩ :=
      carried_settled (start_sound hw req a answers checking filedAt cause) hrun
    exact settled_records rfl hw.unwritten rfl rfl rfl hwent hsettled

/-- The events of a change that replays no object re-entered are in order. -/
theorem Change.Records.iff {w : World} {c : Change} (h : c.Records w) :
    LogReplays w c ↔ c.reentered = false := by
  refine ⟨fun hreplays => ?_, h.replays⟩
  by_contra hreentered
  obtain ⟨a, ha, b, hb, hsame, hposition, hseq⟩ :=
    h.disordered (by simpa using hreentered)
  have := hreplays.ordered ha hb hsame hposition
  omega

/-! ### What the store decides itself -/

theorem storeRow_told (w : World) (t : FlowType) (who : Who) (position : Int)
    (before : Option (List (String × Value))) (o : Object) :
    (storeRow w t who position before o).id = o.id ∧
      (storeRow w t who position before o).version = o.version + 1 ∧
      (storeRow w t who position before o).attrs = o.attrs := by
  unfold storeRow
  dsimp only
  cases h : recordSpans w.lib t o before position w.now who.id who.kind with
  | none => exact ⟨rfl, rfl, rfl⟩
  | some o' =>
    obtain ⟨hid, hversion, -, hattrs⟩ := recordSpans_kept h
    exact ⟨hid, congrArg (· + 1) hversion, hattrs⟩

/-- A change of one event that tells where its object was and what changed. -/
theorem logReplays_single {w : World} {o : Object} {made : Bool} {e : Event}
    (hfrom : e.fromState = (w.get e.objectId).map (·.state))
    (hwrote : e.payload.wrote =
      wroteBetween (((w.get e.objectId).map (·.attrs)).getD []) o.attrs) :
    LogReplays w { writes := [(o, made, e)] } := by
  intro o' made' e' hmem
  cases List.mem_singleton.mp hmem
  have heventsOf : Change.eventsOf { writes := [(o, made, e)] } e.objectId = [e] := by
    simp [Change.eventsOf, Change.events, inPositionOrder]
  rw [heventsOf]
  exact replaysTo_single hfrom hwrote

/-- A built-in object's row and its event: from what was held under its id, and
with what changed since. -/
theorem storeRow_replays {w : World} {t : FlowType} {who : Who} {position : Int}
    {before : Option (List (String × Value))} {o : Object} {made : Bool} {transition : String}
    (was : Option Object) {payload : Payload} (hwas : w.get o.id = was)
    (hwrote : payload.wrote = wroteBetween ((was.map (·.attrs)).getD []) o.attrs) :
    LogReplays w { writes := [(storeRow w t who position before o, made,
      storeEvent w who transition position (was.map (·.state))
        (storeRow w t who position before o) payload)] } := by
  obtain ⟨hid, -, hattrs⟩ := storeRow_told w t who position before o
  refine logReplays_single ?_ ?_
  · show was.map (·.state) = (w.get (storeRow w t who position before o).id).map (·.state)
    rw [hid, hwas]
  · show payload.wrote = wroteBetween
      (((w.get (storeRow w t who position before o).id).map (·.attrs)).getD [])
      (storeRow w t who position before o).attrs
    rw [hid, hwas, hattrs, hwrote]

theorem World.Opens.get_mint {w : World} {alloc : Counters} (hw : w.Opens alloc) (type : String) :
    w.get (alloc.mintId type (alloc.object + 1)) = none :=
  hw.fresh type _ (Nat.lt_succ_self _)

theorem file_replays {r : Readers} {w : World} {alloc alloc' : Counters} {req : Request}
    {v : Verdict} {c : Change} (hw : w.Opens alloc)
    (h : file r w alloc req = (.ok (v, c), alloc')) : LogReplays w c ∧ c.reentered = false := by
  unfold file at h
  cases hfilable : filable r w req with
  | error stop =>
    rw [hfilable] at h
    cases h
  | ok found =>
    rw [hfilable] at h
    cases h
    exact ⟨storeRow_replays none (hw.get_mint PROPOSAL) rfl, rfl⟩

theorem decideChange_replays {r : Readers} {w : World} {alloc alloc' : Counters} {req : Request}
    {v : Verdict} {c : Change} (hw : w.Opens alloc)
    (h : decideChange r w alloc req = (.ok (v, c), alloc')) :
    LogReplays w c ∧ c.reentered = false := by
  unfold decideChange at h
  cases hchangeable : changeable r w req with
  | error stop =>
    rw [hchangeable] at h
    cases h
  | ok found =>
    obtain ⟨who, t, attrs, state⟩ := found
    rw [hchangeable] at h
    cases hheld : req.objectId.bind w.get with
    | none =>
      simp only [hheld] at h
      cases h
      exact ⟨storeRow_replays none (hw.get_mint DECLARATION_CHANGE) rfl, rfl⟩
    | some held =>
      simp only [hheld] at h
      cases h
      obtain ⟨id, -, hget⟩ := Option.bind_eq_some_iff.mp hheld
      have hid : w.get held.id = some held := by
        rw [hw.named id held hget]
        exact hget
      exact ⟨storeRow_replays (some held) hid rfl, rfl⟩

/-- An answer told what it created is of the same change. -/
theorem told_created {answer : Answer × Counters} {alloc' : Counters} {v : Verdict} {c : Change}
    (h : (answer.1.map fun told => (withCreated told.2 told.1, told.2), answer.2) =
      (.ok (v, c), alloc')) :
    ∃ v', answer = (.ok (v', c), alloc') := by
  obtain ⟨_ | ⟨v', c'⟩, counters⟩ := answer
  · cases h
  · cases h
    exact ⟨v', rfl⟩

/-! ### An approval -/

/-- A decision is on the proposal its request names, pending. -/
theorem decidable'_target {w : World} {req : Request} {who : Who} {p : Object} {pt : FlowType}
    {state : String} (h : decidable' w req = .ok (who, p, pt, state)) :
    req.objectId.bind w.get = some p ∧ p.state = "PENDING" := by
  obtain ⟨asker, -, h⟩ := ok_of_bind h
  cases hget : req.objectId.bind w.get with
  | none =>
    rw [hget] at h
    cases h
  | some held =>
    rw [hget] at h
    dsimp only at h
    split at h
    · cases h
    cases hpt : w.lib.type? PROPOSAL with
    | none =>
      rw [hpt] at h
      cases h
    | some found =>
      rw [hpt] at h
      dsimp only at h
      obtain ⟨decided, -, h⟩ := ok_of_bind h
      obtain ⟨_, -, h⟩ := ok_of_bind h
      split at h
      · cases h
      case isFalse hpending =>
        obtain ⟨_, -, h⟩ := ok_of_bind h
        obtain ⟨_, -, h⟩ := ok_of_bind h
        cases h
        exact ⟨rfl, by simpa using hpending⟩

/-- A decision is on a pending proposal, which stands under its id. -/
theorem decidable'_pending {w : World} {alloc : Counters} (hw : w.Opens alloc) {req : Request}
    {who : Who} {p : Object} {pt : FlowType} {state : String}
    (h : decidable' w req = .ok (who, p, pt, state)) :
    w.get p.id = some p ∧ p.state = "PENDING" := by
  obtain ⟨hget, hpending⟩ := decidable'_target h
  obtain ⟨id, -, hid⟩ := Option.bind_eq_some_iff.mp hget
  refine ⟨?_, hpending⟩
  rw [hw.named id p hid]
  exact hid

/-- A proposal's own event before those of the request it holds: where the event
table takes both, the proposal has no other. -/
theorem approval_iff {w : World} {c : Change} {p o : Object} {e : Event}
    (hrecords : c.Records w) (hget : w.get p.id = some p) (hid : e.objectId = p.id)
    (hseq : e.objectSeq = p.version + 1) (hfrom : e.fromState = some p.state)
    (hwrote : e.payload.wrote = wroteBetween p.attrs o.attrs)
    (hstorable : Change.Storable { c with writes := (o, false, e) :: c.writes }) :
    LogReplays w { c with writes := (o, false, e) :: c.writes } ↔ c.reentered = false := by
  have hevents : Change.events { c with writes := (o, false, e) :: c.writes } = e :: c.events := rfl
  have halone : ∀ f ∈ c.events, f.objectId ≠ p.id := by
    intro f hf hfid
    obtain ⟨g, hg, hgid, hgseq⟩ := hrecords.first f hf
    rw [hfid] at hgid hgseq
    rw [(World.row_of_get hget).1] at hgseq
    rw [Change.Storable, hevents, List.map_cons, List.nodup_cons] at hstorable
    refine hstorable.1 (List.mem_map.mpr ⟨g, hg, ?_⟩)
    rw [hgid, hgseq, hid, hseq]
  constructor
  · intro hreplays
    by_contra hreentered
    obtain ⟨a, ha, b, hb, hsame, hposition, hlate⟩ :=
      hrecords.disordered (by simpa using hreentered)
    have hordered := hreplays.ordered (hevents ▸ List.mem_cons_of_mem _ ha)
      (hevents ▸ List.mem_cons_of_mem _ hb) hsame hposition
    omega
  · intro hquiet o' made f hmem
    rcases List.mem_cons.mp hmem with heq | hmem
    · cases heq
      have hnone : c.events.filter (fun f => f.objectId = e.objectId) = [] := by
        rw [List.filter_eq_nil_iff]
        intro f hf
        simpa [hid] using halone f hf
      have heventsOf : Change.eventsOf { c with writes := (o, false, e) :: c.writes }
          e.objectId = [e] := by
        rw [Change.eventsOf, hevents, List.filter_cons_of_pos (by simp), hnone]
        rfl
      rw [heventsOf, hid, hget]
      exact replaysTo_single hfrom hwrote
    · have hf : f ∈ c.events := List.mem_map.mpr ⟨_, hmem, rfl⟩
      have hne : e.objectId ≠ f.objectId := by
        rw [hid]
        exact (halone f hf).symm
      have heventsOf : Change.eventsOf { c with writes := (o, false, e) :: c.writes }
          f.objectId = c.eventsOf f.objectId := by
        rw [Change.eventsOf, hevents, List.filter_cons_of_neg (by simpa using hne)]
        rfl
      rw [heventsOf]
      exact hrecords.replays hquiet o' made f hmem

theorem decideProposal_iff {r : Readers} {w : World} {alloc alloc' : Counters} {req : Request}
    {answers : Table String String} {checking : Bool} {v : Verdict} {c : Change}
    (hw : w.Opens alloc)
    (h : decideProposal r w alloc req answers checking = (.ok (v, c), alloc'))
    (hstorable : c.Storable) : LogReplays w c ↔ c.reentered = false := by
  unfold decideProposal at h
  cases hdecidable : decidable' w req with
  | error stop =>
    rw [hdecidable] at h
    cases h
  | ok found =>
    obtain ⟨who, p, pt, state⟩ := found
    obtain ⟨hget, hpending⟩ := decidable'_pending hw hdecidable
    rw [hdecidable] at h
    dsimp only at h
    obtain ⟨hid, hversion, hattrs⟩ := storeRow_told w pt who (alloc.position + 1)
      (some (trackedValues w.lib pt p)) { p with state }
    split at h
    · cases h
      rw [← hpending, hattrs]
      exact iff_of_true (storeRow_replays (o := { p with state }) (some p) hget rfl) rfl
    · rcases hdecided : decideOrStop r w { alloc with position := alloc.position + 1 }
        (heldRequest r req p) answers checking (p.time "filed_at") (some (alloc.position + 1)) with
        ⟨answer, counters⟩
      rw [hdecided] at h
      cases answer with
      | error stop => cases h
      | ok found =>
        obtain ⟨v', c'⟩ := found
        cases h
        have hopens : w.Opens { alloc with position := alloc.position + 1 } :=
          ⟨hw.named, hw.fresh, hw.unwritten⟩
        exact approval_iff (decideOrStop_records hopens hdecided) hget hid hversion
          (congrArg some hpending.symm) rfl hstorable

/-- **The log replays to the row** exactly where no object was re-entered: of
any satisfied request whose events the store takes, each object's events stand
in one order by position and by their place among its own, each is taken from
where the one before went, and what they wrote, folded over the object's
attributes before the request, gives those after it, if and only if no event
was recorded on an object while a transition of it was in progress. -/
theorem log_replays_iff (r : Readers) (w : World) (alloc : Counters) (req : Request)
    (answers : Table String String) (checking : Bool) (v : Verdict) (c : Change)
    (alloc' : Counters) (hw : w.Opens alloc)
    (h : decide' r w alloc req answers checking = (.ok (v, c), alloc'))
    (hstorable : c.Storable) : LogReplays w c ↔ c.reentered = false := by
  unfold decide' at h
  dsimp only at h
  obtain ⟨v', hanswer⟩ := told_created h
  split at hanswer
  · obtain ⟨hrefused, -⟩ := Prod.mk.inj hanswer
    obtain ⟨who, -, hrefused⟩ := ok_of_bind hrefused
    cases hrefused
  split at hanswer
  · obtain ⟨hreplays, hquiet⟩ := file_replays hw hanswer
    exact iff_of_true hreplays hquiet
  split at hanswer
  · obtain ⟨hreplays, hquiet⟩ := decideChange_replays hw hanswer
    exact iff_of_true hreplays hquiet
  split at hanswer
  · exact decideProposal_iff hw hanswer hstorable
  · exact (decideOrStop_records hw hanswer).iff

/-! ### A transition that calls back -/

namespace CallingBack

/-- An item whose `outer` calls its own `tag` before it sets its size. -/
def item : FlowType where
  name := "Item"
  attributes := [("note", { declared := .scalar (.named "string"), optional := true }),
    ("size", { declared := .scalar (.named "int"), optional := true })]
  states := [("OPEN", {}), ("DONE", { isFinal := true })]
  transitions := [
    ("outer", { kind := .external, fromStates := some (.states ["OPEN"]), toStates := ["DONE"]
                effect := [.call (.name "this") "tag" [], .assign "size" (.num (.int 3))] }),
    ("tag", { kind := .internal, fromStates := some (.states ["OPEN", "DONE"])
              effect := [.assign "note" (.str "seen")] })]

def person : FlowType where
  name := "Person"
  attributes := [("identity",
    { declared := .scalar (.named "identity"), actorKind := some "human" })]
  states := [("ACTIVE", {})]

def store : World where
  lib := { types := [("Item", item), ("Person", person)] }
  objects := [("item-1", { id := "item-1", type := "Item", state := "OPEN" }),
    ("person-2", { id := "person-2", type := "Person", state := "ACTIVE"
                   attrs := [("identity", .text "ann")] })]

def counters : Counters where
  position := 10
  object := 2
  numbers := { sequences := [], drawn := [], floor := 0 }
  mintId := numberedId
  distinct := numberedId_distinct

def readers : Readers where
  metrics := { find := fun _ _ _ _ => .error (.unsupported "a metric"), typedDerived := fun _ _ _ v => v }
  decode := fun _ _ _ _ => .error .wrongType
  inputsText := fun _ => "\x7b\x7d"
  inputsOf := fun _ => none
  inputNames := fun _ => none
  withoutInputs := fun held _ => held
  changed := fun _ _ o => .ok o.attrs

/-- What a request of a transition of the item is answered. -/
def answer (transition : String) : Answer × Counters :=
  decide' readers store counters { transition, actor := "ann", objectId := some "item-1" } [] false

/-- A change's condition, of what a request is answered where it is satisfied. -/
def satisfying (p : Change → Bool) : Answer × Counters → Bool
  | (.ok (_, c), _) => p c
  | _ => false

theorem satisfying_spec {p : Change → Bool} {a : Answer × Counters} (h : satisfying p a = true) :
    ∃ v c alloc, a = (.ok (v, c), alloc) ∧ p c = true := by
  rcases a with ⟨_ | ⟨v, c⟩, alloc⟩
  · cases h
  · exact ⟨v, c, alloc, rfl, h⟩

theorem opens : store.Opens counters where
  named := by
    intro id o h
    simp only [World.get, store, Table.get?] at h
    split at h
    case isTrue hid =>
      cases h
      exact hid
    case isFalse =>
      split at h
      case isTrue hid =>
        cases h
        exact hid
      case isFalse => cases h
  fresh := by
    intro type n hn
    have hpast : 2 < n := hn
    have hitem : "item-1" ≠ numberedId type n := by
      intro h
      have hone : 1 = n := numberedId_distinct "item" type 1 n
        ((by decide +kernel : numberedId "item" 1 = "item-1").trans h)
      omega
    have hperson : "person-2" ≠ numberedId type n := by
      intro h
      have htwo : 2 = n := numberedId_distinct "person" type 2 n
        ((by decide +kernel : numberedId "person" 2 = "person-2").trans h)
      omega
    show (if "item-1" = numberedId type n then _ else if "person-2" = numberedId type n then _
      else none) = none
    rw [if_neg hitem, if_neg hperson]
  unwritten := rfl

end CallingBack

/-- The item tagged by itself: the log replays its row. -/
theorem log_replays_iff_tagged : ∃ v c alloc, CallingBack.answer "tag" = (.ok (v, c), alloc) ∧
    LogReplays CallingBack.store c := by
  have hrun : CallingBack.satisfying
      (fun c => !c.reentered && decide (c.events.map fun e => (e.objectId, e.objectSeq)).Nodup)
      (CallingBack.answer "tag") = true := by decide +kernel
  obtain ⟨v, c, alloc, h, hc⟩ := CallingBack.satisfying_spec hrun
  simp only [Bool.and_eq_true, Bool.not_eq_true', decide_eq_true_eq] at hc
  exact ⟨v, c, alloc, h, (log_replays_iff _ _ _ _ _ _ v c alloc CallingBack.opens h hc.2).mpr hc.1⟩

/-- Its `outer`, which calls `tag` on the item itself, takes position 11 and
records its event second: position 11 is the item's third and position 12 its
second, and the log does not replay its row. -/
theorem calling_back_breaks_the_log : ∃ v c alloc,
    CallingBack.answer "outer" = (.ok (v, c), alloc) ∧ c.Storable ∧
      c.events.map (fun e => (e.objectId, e.position, e.objectSeq)) =
        [("item-1", 11, 3), ("item-1", 12, 2)] ∧
      ¬ LogReplays CallingBack.store c := by
  have hrun : CallingBack.satisfying
      (fun c => decide (c.events.map (fun e => (e.objectId, e.objectSeq))).Nodup &&
        decide (c.events.map (fun e => (e.objectId, e.position, e.objectSeq)) =
          [("item-1", 11, 3), ("item-1", 12, 2)]))
      (CallingBack.answer "outer") = true := by decide +kernel
  obtain ⟨v, c, alloc, h, hc⟩ := CallingBack.satisfying_spec hrun
  simp only [Bool.and_eq_true, decide_eq_true_eq] at hc
  refine ⟨v, c, alloc, h, hc.1, hc.2, fun hreplays => ?_⟩
  obtain ⟨a, rest, hevents, ha, hrest⟩ := List.map_eq_cons_iff.mp hc.2
  obtain ⟨b, _, hlast, hb, -⟩ := List.map_eq_cons_iff.mp hrest
  simp only [Prod.mk.injEq] at ha hb
  have hordered := hreplays.ordered (a := a) (b := b) (hevents ▸ List.mem_cons_self)
    (hevents ▸ List.mem_cons_of_mem _ (hlast ▸ List.mem_cons_self)) (by rw [ha.1, hb.1])
    (by rw [ha.2.1, hb.2.1]; decide)
  rw [ha.2.2, hb.2.2] at hordered
  exact absurd hordered (by decide)

end ObjectFlow
