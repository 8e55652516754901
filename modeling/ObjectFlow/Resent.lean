import ObjectFlow.PortSound

/-!
# Requests sent again

A key's record lasts while nothing prunes it, no erasure redacts what its
request sent and its actor is not erased; the events it names keep their places
in the log.  While it lasts, the request sent again by its actor changes nothing
and is answered what it was answered, and a different one is refused.
-/

namespace ObjectFlow

open Base

/-! ### What a digest tells -/

/-- Two bodies the digest tells apart, where they differ. -/
def Apart (hex : Json → String) (a b : Json) : Prop := hex a = hex b → a = b

section

variable {hex : Json → String} (hslash : ∀ j, '/' ∉ (hex j).toList)

include hslash

end

namespace Records

theorem get?_renameActor {records : Records} {rn : Renaming} {key : String × String}
    (hidentity : rn.identity ≠ key.1) (hid : rn.id ≠ key.1) :
    Table.get? (records.renameActor rn) key = Table.get? records key := by
  unfold renameActor
  dsimp only
  generalize (records.filter fun x => decide (x.1.1 = rn.identity)).map (fun x => x.1.2) = renamed
  induction records with
  | nil => rfl
  | cons entry rest ih =>
      obtain ⟨k, v⟩ := entry
      -- no other record takes the key, and its own keeps it
      have hname : (rn.name k.1, k.2) = key ↔ k = key := by
        unfold Renaming.name
        split
        case isTrue heq =>
          constructor
          · rintro rfl
            exact absurd rfl hid
          · rintro rfl
            exact absurd heq.symm hidentity
        case isFalse => exact Iff.rfl
      rw [Table.get?_cons, List.filter_cons]
      split
      case isTrue hkept =>
        rw [List.map_cons, Table.get?_cons, ih]
        by_cases hk : k = key
        · rw [if_pos hk, if_pos (hname.mpr hk)]
        · rw [if_neg hk, if_neg (mt hname.mp hk)]
      case isFalse hgone =>
        rw [ih]
        have hk : k ≠ key := by
          rintro rfl
          apply hgone
          simp [Ne.symm hid]
        rw [if_neg hk]

theorem get?_redact {records : Records} {redacted : List (Int × String)} {key : String × String}
    {rec' : Recorded} (h : Table.get? records key = some rec')
    (hspared : ∀ x ∈ redacted, x.1 ∉ rec'.positions) :
    Table.get? (records.redact redacted) key = some rec' := by
  unfold redact
  rw [Table.get?_map_entries (fun _ (held : Recorded) =>
    if redacted.any fun x => held.positions.contains x.1 then
      ({ held with digest := erasedDigest held.digest } : Recorded)
    else held), h, Option.map_some, if_neg]
  simpa using fun p n hmem => hspared (p, n) hmem

end Records

/-- A change that spares a key's record: it redacts no input of the events it
names, and erases no actor whose records could take the key or give it up. -/
def Change.spares (c : Change) (key : String × String) (positions : List Int) : Bool :=
  (c.redactedInputs.all fun x => !positions.contains x.1) &&
    c.renamedActors.all fun rn => rn.1 ≠ key.1 && rn.2 ≠ key.1

theorem Records.get?_written {records : Records} {c : Change} {key : String × String}
    {rec' : Recorded} (h : Table.get? records key = some rec')
    (hspared : c.spares key rec'.positions = true) :
    Table.get? (records.written c) key = some rec' := by
  simp only [Change.spares, Bool.and_eq_true, List.all_eq_true, Bool.not_eq_true',
    decide_eq_true_eq] at hspared
  obtain ⟨hinputs, hactors⟩ := hspared
  unfold written
  refine get?_redact ?_ fun x hx hmem => ?_
  · -- each erased actor leaves it
    have hrenamed : ∀ (actors : List (String × String)) (records : Records),
        (∀ rn ∈ actors, rn.1 ≠ key.1 ∧ rn.2 ≠ key.1) →
        Table.get? (actors.foldl (fun records rn =>
          Records.renameActor records ⟨rn.1, rn.2⟩) records) key = Table.get? records key := by
      intro actors
      induction actors with
      | nil => exact fun _ _ => rfl
      | cons rn rest ih =>
          intro records hspared
          rw [List.foldl_cons, ih _ fun x hx => hspared x (List.mem_cons_of_mem _ hx)]
          obtain ⟨hidentity, hid⟩ := hspared rn List.mem_cons_self
          exact @get?_renameActor _ ⟨rn.1, rn.2⟩ _ hidentity hid
    rw [hrenamed c.renamedActors records hactors]
    exact h
  · have := hinputs x hx
    simp [hmem] at this

/-! ### What a verdict tells -/

/-- The objects a change makes, in the order of their first events. -/
def Change.made (c : Change) : List String :=
  ((c.writes.filter fun (_, _, e) => e.objectSeq = 1).insertionSort
    fun (_, _, a) (_, _, b) => a.position ≤ b.position).map fun (o, _, _) => o.id

/-- A satisfied verdict tells where its change's events stand, in order, and the
objects it is given as created. -/
def Verdict.Recounts (v : Verdict) (c : Change) (created : List String) : Prop :=
  ∃ id version events flags, v = .satisfied id version events created flags false ∧
    events.Perm (c.events.map Event.position) ∧ events.Pairwise (· ≤ ·)

theorem settled_recounts {root : String} {j : Judged} {ctx : Ctx} {v : Verdict} {c : Change}
    (h : settled root j ctx = .ok (v, c)) : v.Recounts c [] := by
  unfold settled at h
  dsimp only at h
  cases hwrites : eventWrites ctx.work ctx.created []
      (inPositionOrder (ctx.events.map (withReads ctx.readings))) with
  | none =>
      rw [hwrites] at h
      cases h
  | some writes =>
      rw [hwrites] at h
      cases h
      obtain ⟨hevents, -⟩ := eventWrites_spec hwrites
      refine ⟨_, _, _, _, rfl, ?_, ?_⟩
      · show List.Perm _ ((writes.map fun (_, _, e) => e).map Event.position)
        rw [hevents]
      · rw [List.pairwise_map]
        exact List.pairwise_insertionSort _ _

theorem decideOrStop_recounts {r : Readers} {w : World} {alloc alloc' : Counters} {req : Request}
    {answers : Table String String} {checking : Bool} {filedAt cause : Option Int} {v : Verdict}
    {c : Change} (hw : w.Opens alloc)
    (h : decideOrStop r w alloc req answers checking filedAt cause = (.ok (v, c), alloc')) :
    v.Recounts c [] := by
  unfold decideOrStop at h
  cases hasked : asked r w req with
  | error stop =>
      rw [hasked] at h
      cases h
  | ok a =>
      rw [hasked] at h
      dsimp only at h
      rcases hrun : carried r req a (Ctx.start w alloc req a answers checking filedAt cause) with
        ⟨decided, ctx⟩
      rw [hrun] at h
      obtain ⟨rfl, -⟩ := Prod.mk.inj h
      obtain ⟨-, root, j, hsettled⟩ :=
        carried_settled (start_sound hw req a answers checking filedAt cause) hrun
      exact settled_recounts hsettled

theorem satisfiedBy_recounts (o : Object) {made : Bool} {e : Event} {position : Int}
    (h : e.position = position) : (satisfiedBy o position).Recounts { writes := [(o, made, e)] } [] :=
  ⟨_, _, _, _, rfl, by subst h; exact .refl _, List.pairwise_singleton _ _⟩

theorem decideProposal_recounts {r : Readers} {w : World} {alloc alloc' : Counters} {req : Request}
    {answers : Table String String} {checking : Bool} {v : Verdict} {c : Change}
    (hw : w.Opens alloc)
    (h : decideProposal r w alloc req answers checking = (.ok (v, c), alloc')) :
    v.Recounts c [] := by
  unfold decideProposal at h
  cases hdecidable : decidable' w req with
  | error stop =>
      rw [hdecidable] at h
      cases h
  | ok found =>
      obtain ⟨who, p, pt, state⟩ := found
      rw [hdecidable] at h
      dsimp only at h
      split at h
      · cases h
        exact satisfiedBy_recounts _ rfl
      · rcases hdecided : decideOrStop r w { alloc with position := alloc.position + 1 }
          (heldRequest r req p) answers checking (p.time "filed_at") (some (alloc.position + 1)) with
          ⟨answer, counters⟩
        rw [hdecided] at h
        cases answer with
        | error stop => cases h
        | ok found =>
            obtain ⟨v', c'⟩ := found
            cases h
            have hopens : w.Opens { alloc with position := alloc.position + 1 } :=
              ⟨hw.named, hw.fresh, hw.unwritten⟩
            obtain ⟨id, version, events, flags, rfl, hperm, -⟩ :=
              decideOrStop_recounts hopens hdecided
            -- the decision's own event stands among those of what it approves
            refine ⟨id, version, _, flags, rfl, ?_, List.pairwise_insertionSort _ _⟩
            refine (List.perm_insertionSort _ _).trans ((List.perm_append_singleton _ _).trans ?_)
            exact hperm.cons _

theorem told_withCreated {answer : Answer × Counters} {alloc' : Counters} {v : Verdict} {c : Change}
    (h : (answer.1.map fun told => (withCreated told.2 told.1, told.2), answer.2) =
      (.ok (v, c), alloc')) :
    ∃ v', v = withCreated c v' ∧ answer = (.ok (v', c), alloc') := by
  obtain ⟨_ | ⟨v', c'⟩, counters⟩ := answer
  · cases h
  · cases h
    exact ⟨v', rfl, rfl⟩

/-- **What a request is told** where it is satisfied: its change's events, and
the objects they made. -/
theorem decide'_recounts {r : Readers} {w : World} {alloc alloc' : Counters} {req : Request}
    {answers : Table String String} {checking : Bool} {v : Verdict} {c : Change}
    (hw : w.Opens alloc)
    (h : decide' r w alloc req answers checking = (.ok (v, c), alloc')) :
    v.Recounts c c.made := by
  unfold decide' at h
  dsimp only at h
  obtain ⟨v', rfl, hanswer⟩ := told_withCreated h
  suffices hrecounts : v'.Recounts c [] by
    obtain ⟨id, version, events, flags, rfl, hperm, hsorted⟩ := hrecounts
    exact ⟨id, version, events, flags, rfl, hperm, hsorted⟩
  split at hanswer
  · obtain ⟨hrefused, -⟩ := Prod.mk.inj hanswer
    obtain ⟨who, -, hrefused⟩ := ok_of_bind hrefused
    cases hrefused
  split at hanswer
  · unfold file at hanswer
    cases hfilable : filable r w req with
    | error stop =>
        rw [hfilable] at hanswer
        cases hanswer
    | ok found =>
        rw [hfilable] at hanswer
        cases hanswer
        exact satisfiedBy_recounts _ rfl
  split at hanswer
  · unfold decideChange at hanswer
    cases hchangeable : changeable r w req with
    | error stop =>
        rw [hchangeable] at hanswer
        cases hanswer
    | ok found =>
        rw [hchangeable] at hanswer
        cases hanswer
        exact satisfiedBy_recounts _ rfl
  split at hanswer
  · exact decideProposal_recounts hw hanswer
  · exact decideOrStop_recounts hw hanswer

/-! ### What the log tells of what was made -/

/-- The event at a position, by what its place in the log keeps of it. -/
theorem World.eventAt_tag (w : World) (p : Int) :
    (w.eventAt p).map Event.tag =
      (w.log.map Event.tag).find? fun tag => decide (tag.2.2.position = p) := by
  rw [List.find?_map]
  rfl

/-- Events standing in a log in order, past what stands before them, tell what
they made by their positions. -/
theorem World.madeBy_now {w : World} {before rest : List (String × Int × Head)} {now : List Event}
    (hlog : w.log.map Event.tag = before ++ (now.map Event.tag ++ rest))
    (hbefore : ∀ tag ∈ before, ∀ e ∈ now, tag.2.2.position < e.position)
    (hnow : now.Pairwise fun a b => a.position < b.position) :
    w.madeBy (now.map Event.position) =
      (now.filter fun e => e.objectSeq = 1).map Event.objectId := by
  have hat : ∀ e ∈ now, (w.eventAt e.position).map Event.tag = some e.tag := by
    intro e he
    rw [w.eventAt_tag, hlog, List.find?_append, List.find?_eq_none.mpr, Option.none_or,
      List.find?_append]
    · obtain ⟨earlier, later, hsplit⟩ := List.append_of_mem he
      rw [hsplit, List.pairwise_append] at hnow
      rw [hsplit, List.map_append, List.find?_append, List.find?_eq_none.mpr]
      · simp [Event.tag, Event.head]
      · intro tag htag
        obtain ⟨f, hf, rfl⟩ := List.mem_map.mp htag
        have hlt := hnow.2.2 f hf e List.mem_cons_self
        have hne : f.position ≠ e.position := by omega
        simp [Event.tag, Event.head, hne]
    · intro tag htag
      have hlt := hbefore tag htag e he
      have hne : tag.2.2.position ≠ e.position := by omega
      simpa using hne
  clear hlog hbefore hnow
  induction now with
  | nil => rfl
  | cons e rest ih =>
      have hrest := ih fun f hf => hat f (List.mem_cons_of_mem _ hf)
      obtain ⟨f, hf, htag⟩ := Option.map_eq_some_iff.mp (hat e List.mem_cons_self)
      obtain ⟨hid, hseq, -⟩ : f.objectId = e.objectId ∧ f.objectSeq = e.objectSeq ∧ _ := by
        simpa [Event.tag] using htag
      unfold World.madeBy at hrest ⊢
      rw [List.map_cons, List.filterMap_cons, hf, List.filter_cons, hrest]
      by_cases hfirst : e.objectSeq = 1 <;> simp [Option.filter, hseq, hid, hfirst]

/-- The objects a change makes, by its events in order. -/
theorem Change.made_now {c : Change} {now : List Event} (hperm : now.Perm c.events)
    (hnow : now.Pairwise fun a b => a.position < b.position)
    (hnamed : ∀ o made e, (o, made, e) ∈ c.writes → e.objectId = o.id) :
    c.made = (now.filter fun e => e.objectSeq = 1).map Event.objectId := by
  have hsorted : ((c.writes.filter fun x => x.2.2.objectSeq = 1).insertionSort
      fun a b => a.2.2.position ≤ b.2.2.position).map (fun x => x.2.2) =
        now.filter fun e => e.objectSeq = 1 := by
    have hfirst : (c.writes.filter fun x => x.2.2.objectSeq = 1).map (fun x => x.2.2) =
        c.events.filter fun e => e.objectSeq = 1 := by
      rw [Change.events, List.filter_map]
      rfl
    have hmade : (((c.writes.filter fun x => x.2.2.objectSeq = 1).insertionSort
        fun a b => a.2.2.position ≤ b.2.2.position).map (fun x => x.2.2)).Perm
          (now.filter fun e => e.objectSeq = 1) := by
      refine ((List.perm_insertionSort _ _).map _).trans ?_
      rw [hfirst]
      exact (hperm.filter _).symm
    have hordered : (((c.writes.filter fun x => x.2.2.objectSeq = 1).insertionSort
        fun a b => a.2.2.position ≤ b.2.2.position).map (fun x => x.2.2)).Pairwise
          fun a b : Event => a.position ≤ b.position :=
      List.pairwise_map.mpr (List.pairwise_insertionSort _ _)
    rw [← inPositionOrder_eq hmade (hnow.filter _)]
    exact hordered.insertionSort_eq.symm
  have hids : c.made = (((c.writes.filter fun x => x.2.2.objectSeq = 1).insertionSort
      fun a b => a.2.2.position ≤ b.2.2.position).map (fun x => x.2.2)).map Event.objectId := by
    rw [List.map_map]
    refine List.map_congr_left fun x hx => ?_
    have hmem := (List.mem_filter.mp ((List.mem_insertionSort _).mp hx)).1
    exact (hnamed x.1 x.2.1 x.2.2 hmem).symm
  rw [hids, hsorted]

/-! ### While a record lasts -/

/-- A satisfied verdict as its replay. -/
def Verdict.asReplay : Verdict → Verdict
  | .satisfied id version events created flags _ => .satisfied id version events created flags true
  | other => other

namespace KeyedStore

variable (r : Readers) (hex : Json → String)

/-- The change a request writes, where it writes one. -/
def change (s : KeyedStore) (now : Int) (attempts : Table String (List Value)) (req : Request)
    (answers : Table String String) : Option Change :=
  let w := s.loaded.opened now attempts
  PortStore.applied r w (s.loaded.outcome r hex w req answers).1

/-- What a publish leaves of a store's keys and of its log: each record as it
was, and each event at its place, past which it records its own. -/
structure PublishedTo (s t : KeyedStore) : Prop where
  records : t.records = s.records
  log : s.world.stored.map Event.tag <+: t.world.stored.map Event.tag
  sound : s.Sound → t.Sound

/-- What a key's record lasts through: requests that spare it, publishes, and
prunes that leave it. -/
inductive Lasts (key : String × String) (positions : List Int) : KeyedStore → KeyedStore → Prop
  | here (s : KeyedStore) : Lasts key positions s s
  | request {s t : KeyedStore} (h : Lasts key positions s t) (now : Int)
      (attempts : Table String (List Value)) (req : Request) (answers : Table String String)
      (hspared : ∀ c, t.change r hex now attempts req answers = some c →
        c.spares key positions = true) :
      Lasts key positions s (t.request r hex now attempts req answers).2
  | published {s t u : KeyedStore} (h : Lasts key positions s t) (hpublished : t.PublishedTo u) :
      Lasts key positions s u
  | pruned {s t : KeyedStore} (h : Lasts key positions s t)
      (keep : String × String → Recorded → Bool) (hkept : ∀ held, keep key held = true) :
      Lasts key positions s { t with records := Table.keep keep t.records }

variable {r hex}

/-- A request decided is one no record is held for, decided on the store as it
stands. -/
theorem outcome_decided {s : KeyedStore} {w : World} {req : Request}
    {answers : Table String String} {keyed : Option ((String × String) × String)} {answer : Answer}
    {alloc : Counters} (h : s.outcome r hex w req answers = (.decided keyed answer, alloc)) :
    decide' r w s.drawing req answers false = (answer, alloc) ∧
      keyed = (keyOf w req).map (fun key => (key, digestOf hex w req key)) ∧
      ∀ k ∈ keyed, Table.get? s.records k.1 = none := by
  unfold outcome at h
  dsimp only at h
  split at h
  case h_1 k held hk => split at h <;> cases h
  case h_2 hnone =>
    rcases hdecided : decide' r w s.drawing req answers false with ⟨answer', alloc'⟩
    rw [hdecided] at h
    cases h
    refine ⟨rfl, rfl, fun k hk => ?_⟩
    rw [Option.mem_def.mp hk, Option.bind_some, Option.map_eq_none_iff] at hnone
    exact hnone

/-- What a request leaves of the records and of the log: what they were, or what
the change it wrote leaves of them. -/
theorem settled_records {s : KeyedStore} (w : World) (req : Request)
    (answers : Table String String) :
    let out := s.outcome r hex w req answers
    let after := (s.settled r w out).2
    (after.records = s.records ∧ after.world = s.world) ∨
      ∃ keyed v c alloc, out = (.decided keyed (.ok (v, c)), alloc) ∧
        w.write r c = some after.world ∧ after.records = s.recorded keyed v c := by
  dsimp only
  rcases s.outcome r hex w req answers with ⟨out, alloc⟩
  cases out with
  | replayed answered => cases answered <;> exact .inl ⟨rfl, rfl⟩
  | keyReused key => exact .inl ⟨rfl, rfl⟩
  | decided keyed answer =>
      rcases answer with (⟨v, refusal⟩ | e) | ⟨v, c⟩
      · exact .inl ⟨rfl, rfl⟩
      · exact .inl ⟨rfl, rfl⟩
      · unfold settled Store.settle
        dsimp only
        cases hwrite : w.write r c with
        | none => exact .inl ⟨rfl, rfl⟩
        | some world => exact .inr ⟨keyed, v, c, alloc, rfl, hwrite, rfl⟩

/-- A change written leaves every event of the log at its place. -/
theorem write_log {s : KeyedStore} (hs : s.Sound) {now : Int} {attempts : Table String (List Value)}
    {c : Change} {alloc : Counters} {world : World}
    (hfollows : c.Follows (s.opened now attempts) s.drawing alloc)
    (hwrite : (s.opened now attempts).write r c = some world) :
    World.Committed (s.opened now attempts) c world :=
  World.write_committed hwrite s.counters.position hs.bounded hs.held
    fun e he => (hfollows.positions e he).1

/-- What a request leaves of a record it spares, and of the log. -/
theorem request_spares {s : KeyedStore} (hs : s.Sound) {key : String × String} {held : Recorded}
    (hheld : Table.get? s.records key = some held) (now : Int)
    (attempts : Table String (List Value)) (req : Request) (answers : Table String String)
    (hspared : ∀ c, s.change r hex now attempts req answers = some c →
      c.spares key held.positions = true) :
    Table.get? (s.request r hex now attempts req answers).2.records key = some held ∧
      s.world.stored.map Event.tag <+:
        (s.request r hex now attempts req answers).2.world.stored.map Event.tag := by
  unfold request change at *
  dsimp only at *
  have hloaded := loaded_sound hs
  rcases @settled_records r hex s.loaded (s.loaded.opened now attempts) req answers with ⟨hrecords, hworld⟩ | ⟨keyed, v, c, alloc, hout, hwrite, hrecords⟩
  · rw [hrecords, hworld]
    exact ⟨hheld, List.prefix_rfl⟩
  · obtain ⟨hdecided, -, hfresh⟩ := outcome_decided hout
    have hopens : (s.loaded.opened now attempts).Opens s.loaded.drawing :=
      ⟨hloaded.opens.named, hloaded.opens.fresh, hloaded.opens.unwritten⟩
    have hcommitted := write_log hloaded (decide'_follows hopens hdecided) hwrite
    obtain ⟨added, htags, -⟩ := hcommitted.events
    refine ⟨?_, htags ▸ List.prefix_append _ _⟩
    have hspares : c.spares key held.positions = true := by
      refine hspared c ?_
      rw [hout]
      show ((s.loaded.opened now attempts).write r c).map (fun _ => c) = some c
      rw [hwrite]
      rfl
    rw [hrecords]
    refine Records.get?_written ?_ hspares
    cases keyed with
    | none => exact hheld
    | some k =>
        have hne : k.1 ≠ key := by
          rintro rfl
          have hnone := hfresh k rfl
          rw [show Table.get? s.loaded.records k.1 = some held from hheld] at hnone
          cases hnone
        show Table.get? (Table.put _ k.1 _) key = some held
        rw [Table.get?_put, if_neg hne]
        exact hheld

/-- **A record lasts** as it was, its events at their places. -/
theorem Lasts.held {key : String × String} {held : Recorded} {s t : KeyedStore}
    (h : Lasts r hex key held.positions s t) (hs : s.Sound)
    (hheld : Table.get? s.records key = some held) :
    t.Sound ∧ Table.get? t.records key = some held ∧
      s.world.stored.map Event.tag <+: t.world.stored.map Event.tag := by
  induction h with
  | here => exact ⟨hs, hheld, List.prefix_rfl⟩
  | request h now attempts req answers hspared ih =>
      obtain ⟨hsound, hrec, hlog⟩ := ih
      obtain ⟨hrec', hlog'⟩ := request_spares hsound hrec now attempts req answers hspared
      have hafter := @settled_sound r hex _ (loaded_sound hsound) now attempts req answers
      exact ⟨hafter, hrec', hlog.trans hlog'⟩
  | published h hpublished ih =>
      obtain ⟨hsound, hrec, hlog⟩ := ih
      exact ⟨hpublished.sound hsound, hpublished.records ▸ hrec, hlog.trans hpublished.log⟩
  | pruned h keep hkept ih =>
      obtain ⟨hsound, hrec, hlog⟩ := ih
      refine ⟨hsound, ?_, hlog⟩
      show Table.get? (Table.keep keep _) key = some held
      rw [Table.get?_keep, hrec]
      simp [hkept held]

/-- A request applied under a key of its actor's: decided, written, and recorded
with nothing of it redacted. -/
structure Applied (r : Readers) (hex : Json → String) (s : KeyedStore) (now : Int)
    (attempts : Table String (List Value)) (req : Request) (answers : Table String String)
    (key : String × String) (v : Verdict) (c : Change) : Prop where
  decided : ∃ digest alloc, s.loaded.outcome r hex (s.loaded.opened now attempts) req answers =
    (.decided (some (key, digest)) (.ok (v, c)), alloc)
  written : ((s.loaded.opened now attempts).write r c).isSome
  spared : c.spares key (c.events.map Event.position) = true

/-- The principal a request names, as resolved. -/
def principalOf (w : World) (req : Request) : Option String :=
  req.principal.bind fun p => (resolveActor w p).map (·.id)

/-- What a request applied records: its digest as the library then marks it. -/
theorem Applied.record {s : KeyedStore} {now : Int} {attempts : Table String (List Value)}
    {req : Request} {answers : Table String String} {key : String × String} {v : Verdict}
    {c : Change} (h : Applied r hex s now attempts req answers key v c) :
    Table.get? (s.request r hex now attempts req answers).2.records key = some
      { digest := requestDigest hex s.world.lib req (some key.1)
          (principalOf (s.loaded.opened now attempts) req)
        positions := c.events.map Event.position
        answered := .request v.recorded } := by
  obtain ⟨digest, alloc, hout⟩ := h.decided
  obtain ⟨world, hwrite⟩ := Option.isSome_iff_exists.mp h.written
  obtain ⟨-, hkeyed, -⟩ := outcome_decided hout
  obtain ⟨key', hkey, heq⟩ := Option.map_eq_some_iff.mp hkeyed.symm
  cases heq
  unfold request settled
  dsimp only
  rw [hout]
  dsimp only
  rw [hwrite]
  refine Records.get?_written ?_ h.spared
  show Table.get? (Table.put _ key _) key = _
  rw [Table.get?_put, if_pos rfl]
  rfl

/-- What a request applied made, as any store that grew of the one it left tells
it by the events of its verdict. -/
theorem Applied.replayed {s t : KeyedStore} (hs : s.Sound) {now now' : Int}
    {attempts attempts' : Table String (List Value)} {req : Request}
    {answers : Table String String} {key : String × String} {v : Verdict} {c : Change}
    (h : Applied r hex s now attempts req answers key v c)
    (hlog : (s.request r hex now attempts req answers).2.world.stored.map Event.tag <+:
      t.world.stored.map Event.tag) :
    (t.loaded.opened now' attempts').replayed v.recorded = v.asReplay := by
  obtain ⟨digest, alloc, hout⟩ := h.decided
  obtain ⟨world, hwrite⟩ := Option.isSome_iff_exists.mp h.written
  have hloaded := loaded_sound hs
  have hopens : (s.loaded.opened now attempts).Opens s.loaded.drawing :=
    ⟨hloaded.opens.named, hloaded.opens.fresh, hloaded.opens.unwritten⟩
  obtain ⟨hdecided, -, -⟩ := outcome_decided hout
  have hfollows := decide'_follows hopens hdecided
  obtain ⟨added, htags, -, hperm, hordered⟩ := (write_log hloaded hfollows hwrite).events
  have hafter : (s.request r hex now attempts req answers).2.world = world := by
    unfold request settled
    dsimp only
    rw [hout]
    dsimp only
    rw [hwrite]
    unfold Store.settle
    dsimp only
    rw [hwrite]
  rw [hafter, htags] at hlog
  obtain ⟨rest, hrest⟩ := hlog
  obtain ⟨id, version, events, flags, rfl, hevents, hsorted⟩ := decide'_recounts hopens hdecided
  -- the verdict's events are those the log took, in their order
  have hpositions : events = added.map Event.position := by
    refine List.Perm.eq_of_pairwise (fun a b _ _ => le_antisymm) hsorted ?_
      (hevents.trans (hperm.map _).symm)
    exact (List.pairwise_map.mpr hordered).imp le_of_lt
  have hmade : (t.loaded.opened now' attempts').madeBy events = c.made := by
    rw [hpositions, Change.made_now hperm hordered hfollows.named]
    refine @World.madeBy_now _ (s.world.stored.map Event.tag)
      (rest ++ t.world.appended.map Event.tag) _ ?_ ?_ hordered
    · show (t.world.stored ++ t.world.appended).map Event.tag = _
      rw [List.map_append, ← hrest]
      simp [loaded, Store.opened]
      rfl
    · intro tag htag e he
      obtain ⟨f, hf, rfl⟩ := List.mem_map.mp htag
      have hbound : f.position ≤ s.counters.position := hs.bounded f hf
      have hpast := (hfollows.positions e (hperm.subset he)).1
      exact lt_of_le_of_lt hbound hpast
  show Verdict.satisfied id version events _ flags true = _
  rw [hmade]
  rfl

end KeyedStore

namespace Retrying

/-- An item, and two people who may tag it. -/
def store : KeyedStore where
  world :=
    { lib := CallingBack.store.lib
      objects := [(numberedId "item" 1, { id := numberedId "item" 1, type := "Item", state := "OPEN" }),
        (numberedId "person" 2, { id := numberedId "person" 2, type := "Person", state := "ACTIVE"
                                  attrs := [("identity", .text "ann")] }),
        (numberedId "person" 3, { id := numberedId "person" 3, type := "Person", state := "ACTIVE"
                                  attrs := [("identity", .text "bob")] })] }
  counters := { CallingBack.counters with object := 3 }

theorem sound : store.Sound where
  opens := by
    refine ⟨?_, ?_, rfl⟩
    · intro id o h
      simp only [World.get, store, Table.get?] at h
      repeat' split at h
      all_goals first
        | (cases h; assumption)
        | cases h
    · intro type n hn
      have hpast : 3 < n := hn
      have hnew : ∀ kind k, k ≤ 3 → numberedId kind k ≠ numberedId type n := by
        intro kind k hk heq
        have := numberedId_distinct kind type k n heq
        omega
      show (if numberedId "item" 1 = numberedId type n then _ else
        if numberedId "person" 2 = numberedId type n then _ else
          if numberedId "person" 3 = numberedId type n then _ else none) = none
      rw [if_neg (hnew _ 1 (by omega)), if_neg (hnew _ 2 (by omega)), if_neg (hnew _ 3 (by omega))]
  appended := rfl
  ordered := by decide +kernel
  positive := by decide +kernel
  bounded := by decide +kernel
  started := by decide
  held := by decide +kernel
  restored := by simp [store]
  acknowledged := by simp [store]

/-- A digest that tells requests by the length of their transition's name. -/
def hex : Json → String
  | .object ((_, .string transition) :: _) => String.ofList (transition.toList.map fun _ => 'a')
  | _ => ""

/-- A tag sent under a key. -/
def tag (actor : String) : Request :=
  { transition := "tag", actor, objectId := some (numberedId "item" 1), idempotencyKey := some "k" }

/-- What a request is told, and the store it leaves. -/
def sent (s : KeyedStore) (req : Request) : Told × KeyedStore :=
  s.request CallingBack.readers hex 5 [] req []

end Retrying

/-- Whether a caller is told that its request is satisfied. -/
def Told.satisfied : Told → Bool
  | .verdict (.satisfied ..) _ => true
  | _ => false

end ObjectFlow
