import ObjectFlow.LogReplays
import ObjectFlow.Subscription

/-!
# What a commit leaves of the log

A satisfied request's events stand past every event before them, and what its
change writes beside them leaves every event its place, its object and what it
did, and every object its type.  So the log, read by what no commit changes of
an event, grows at its end.
-/

namespace ObjectFlow

open Base

/-! ### Alike stores -/

/-- What of a row no commit changes. -/
def Object.tag (o : Object) : String × String := (o.id, o.type)

/-- What of an event no commit changes, its object's type aside. -/
def Event.tag (e : Event) : String × Int × Head := (e.objectId, e.objectSeq, e.head)

/-- An event as a feed chooses it: its head, and its object's type. -/
structure Mark where
  head : Head
  type : Option String
deriving DecidableEq

namespace World

variable (w : World)

def mark (e : Event) : Mark := ⟨e.head, (w.get e.objectId).map (·.type)⟩

/-- The log, as feeds choose from it. -/
def marks : List Mark := w.stored.map w.mark

/-- Two stores alike but for what a row or an event holds. -/
structure Alike (w w' : World) : Prop where
  lib : w'.lib = w.lib
  appended : w'.appended = w.appended
  lastWritten : w'.lastWritten = w.lastWritten
  row : ∀ id, (w'.get id).map Object.tag = (w.get id).map Object.tag
  events : w'.stored.map Event.tag = w.stored.map Event.tag

namespace Alike

theorem refl (w : World) : Alike w w := ⟨rfl, rfl, rfl, fun _ => rfl, rfl⟩

theorem trans {w w' w'' : World} (h : Alike w w') (h' : Alike w' w'') : Alike w w'' where
  lib := h'.lib.trans h.lib
  appended := h'.appended.trans h.appended
  lastWritten := h'.lastWritten.trans h.lastWritten
  row := fun id => (h'.row id).trans (h.row id)
  events := h'.events.trans h.events

theorem foldl {α : Type} {f : World → α → World} (hf : ∀ w a, Alike w (f w a)) (as : List α)
    (w : World) : Alike w (as.foldl f w) := by
  induction as generalizing w with
  | nil => exact refl w
  | cons a rest ih => exact (hf w a).trans (ih (f w a))

theorem type {w w' : World} (h : Alike w w') (id : String) :
    (w'.get id).map (·.type) = (w.get id).map (·.type) := by
  have hrow := congrArg (Option.map Prod.snd) (h.row id)
  rw [Option.map_map, Option.map_map] at hrow
  exact hrow

theorem isSome {w w' : World} (h : Alike w w') (id : String) :
    (w'.get id).isSome = (w.get id).isSome := by
  have hrow := congrArg Option.isSome (h.row id)
  rw [Option.isSome_map, Option.isSome_map] at hrow
  exact hrow

theorem marks {w w' : World} (h : Alike w w') : w'.marks = w.marks := by
  let read (w : World) (tag : String × Int × Head) : Mark :=
    ⟨tag.2.2, (w.get tag.1).map (·.type)⟩
  have hread : ∀ w : World, w.marks = (w.stored.map Event.tag).map (read w) := by
    intro w
    rw [List.map_map]
    rfl
  have hsame : read w' = read w := by
    funext tag
    exact congrArg (Mark.mk tag.2.2) (h.type tag.1)
  rw [hread, hread, h.events, hsame]

theorem positions {w w' : World} (h : Alike w w') :
    w'.stored.map (·.position) = w.stored.map (·.position) := by
  have hevents := congrArg (List.map fun tag : String × Int × Head => tag.2.2.position) h.events
  rw [List.map_map, List.map_map] at hevents
  exact hevents

end Alike

/-- Rows and events rewritten one by one, each keeping what no commit
changes. -/
theorem alike_rewritten {w w' : World} {f : String → Object → Object} {g : Event → Event}
    (hlib : w'.lib = w.lib) (happended : w'.appended = w.appended)
    (hlast : w'.lastWritten = w.lastWritten)
    (hobjects : w'.objects = w.objects.map fun (k, o) => (k, f k o))
    (hstored : w'.stored = w.stored.map g) (hf : ∀ k o, (f k o).tag = o.tag)
    (hg : ∀ e, (g e).tag = e.tag) : Alike w w' where
  lib := hlib
  appended := happended
  lastWritten := hlast
  row := by
    intro id
    have hget : w'.get id = (w.get id).map (f id) := by
      rw [World.get, World.get, hobjects, Table.get?_map_entries]
    rw [hget, Option.map_map]
    exact congrArg (Option.map · (w.get id)) (funext (hf id))
  events := by
    rw [hstored, List.map_map]
    exact List.map_congr_left fun e _ => hg e

theorem rewriteRow_alike (w : World) (id : String) (f : Object → Object) :
    Alike w (w.rewriteRow id f) := by
  refine alike_rewritten (f := fun k o =>
      if k = id then { f o with id := o.id, type := o.type } else o) (g := fun e => e)
    rfl rfl rfl ?_ (List.map_id _).symm ?_ fun _ => rfl
  · rfl
  · intro k o
    split <;> rfl

theorem upsertSpans_alike (w : World) (spans : List (String × String × Span)) :
    Alike w (w.upsertSpans spans) :=
  Alike.foldl (fun w _ => rewriteRow_alike w _ _) _ w

theorem deleteMerged_alike (w : World) (merged : List (String × String × Int × Int × Int)) :
    Alike w (w.deleteMerged merged) :=
  Alike.foldl (fun w _ => rewriteRow_alike w _ _) _ w

theorem writeIndex_alike (w : World) (index : List (String × String × Int)) :
    Alike w (w.writeIndex index) :=
  Alike.foldl (fun w _ => rewriteRow_alike w _ _) _ w

theorem writeAdmissions_alike (w : World) (admitted : List (String × String × Int × String))
    (discharged : List (String × String × Int)) :
    Alike w (w.writeAdmissions admitted discharged) :=
  alike_rewritten (f := fun _ o => { o with admissions := o.admitted admitted discharged })
    (g := fun e => e) rfl rfl rfl rfl (List.map_id _).symm (fun _ _ => rfl) fun _ => rfl

theorem redact_alike (w : World) (c : Change) : Alike w (w.redact c) :=
  alike_rewritten (f := fun _ o => { o with
      attrs := c.redactedAttrs w.lib o
      spans := o.spans.map fun s => (s.1, s.2.map (c.redactedSpan o.id s.1)) })
    rfl rfl rfl rfl rfl (fun _ _ => rfl) fun _ => rfl

theorem renameActor_alike (r : Readers) (w : World) (rn : Renaming) :
    Alike w (w.renameActor r rn) :=
  alike_rewritten (f := fun _ o => rn.object r w.lib.identityHeld o)
    rfl rfl rfl rfl rfl (fun _ _ => rfl) fun _ => rfl

theorem noteErasures_alike (w : World) : Alike w w.noteErasures :=
  alike_rewritten (f := fun _ o => { o with erased := w.stored.any fun e =>
      e.objectId = o.id && e.source = "erased" && e.transition ≠ "redact" &&
        e.transition ≠ "invalidate" }) (g := fun e => e)
    rfl rfl rfl rfl (List.map_id _).symm (fun _ _ => rfl) fun _ => rfl

/-! ### Rows and events written -/

/-- What rows and their events leave: each object held keeps its id and its
type, each new one is of the writes, and the events join those written before
them, past every event of the log as it was. -/
structure Wrote (w : World) (old events : List Event) (writes : List (Object × Bool × Event))
    (w' : World) : Prop where
  lib : w'.lib = w.lib
  appended : w'.appended = w.appended
  lastWritten : w'.lastWritten = w.lastWritten
  kept : ∀ id, (w.get id).isSome → (w'.get id).map Object.tag = (w.get id).map Object.tag
  new : ∀ id p, w.get id = none → w'.get id = some p →
    p.id = id ∧ ∃ o made e, (o, made, e) ∈ writes ∧ o.id = id
  held : ∀ o made e, (o, made, e) ∈ writes → (w'.get o.id).isSome
  stored : ∃ now, w'.stored = old ++ now ∧ now.Perm (events ++ writes.map fun (_, _, e) => e) ∧
    now.Pairwise fun a b => a.position < b.position

theorem Wrote.isSome {w w' : World} {old events : List Event}
    {writes : List (Object × Bool × Event)} (h : Wrote w old events writes w') {id : String}
    (hid : (w.get id).isSome) : (w'.get id).isSome := by
  have htag := congrArg Option.isSome (h.kept id hid)
  rw [Option.isSome_map, Option.isSome_map] at htag
  rw [htag]
  exact hid

theorem orderedInsert_past {old new : List Event} {e : Event}
    (hold : ∀ f ∈ old, f.position < e.position) :
    (old ++ new).orderedInsert (fun a b => a.position ≤ b.position) e =
      old ++ new.orderedInsert (fun a b => a.position ≤ b.position) e := by
  induction old with
  | nil => rfl
  | cons f rest ih =>
      have hf : ¬ e.position ≤ f.position := not_le.mpr (hold f List.mem_cons_self)
      rw [List.cons_append, List.orderedInsert_cons, if_neg hf,
        ih fun g hg => hold g (List.mem_cons_of_mem _ hg), List.cons_append]

/-- An event of a position of its own, in its place. -/
theorem orderedInsert_increasing {events : List Event} {e : Event}
    (hsorted : events.Pairwise fun a b => a.position < b.position)
    (hown : ∀ f ∈ events, f.position ≠ e.position) :
    (events.orderedInsert (fun a b => a.position ≤ b.position) e).Pairwise
      fun a b => a.position < b.position := by
  induction events with
  | nil => exact List.pairwise_singleton _ _
  | cons f rest ih =>
      have hrest : ∀ g ∈ rest, f.position < g.position := fun g =>
        List.rel_of_pairwise_cons hsorted
      have hne := hown f List.mem_cons_self
      rw [List.orderedInsert_cons]
      split
      case isTrue hle =>
        refine List.Pairwise.cons ?_ hsorted
        intro g hg
        rcases List.mem_cons.mp hg with rfl | hg
        · omega
        · have := hrest g hg
          omega
      case isFalse hlt =>
        refine List.Pairwise.cons ?_
          (ih hsorted.of_cons fun g hg => hown g (List.mem_cons_of_mem _ hg))
        intro g hg
        rcases (List.mem_orderedInsert _).mp hg with rfl | hg
        · omega
        · exact hrest g hg

/-- One row and its event. -/
theorem writeRow_spec {w w' : World} {o : Object} {made : Bool} {e : Event}
    (h : w.writeRow o made e = some w') :
    w'.lib = w.lib ∧ w'.appended = w.appended ∧ w'.lastWritten = w.lastWritten ∧
      w'.stored = (w.logged e).stored ∧ w.takesEvent e = true ∧ (w'.get o.id).isSome ∧
      (∀ id, (w.get id).isSome → (w'.get id).map Object.tag = (w.get id).map Object.tag) ∧
      ∀ id p, w.get id = none → w'.get id = some p → p.id = id ∧ o.id = id := by
  unfold writeRow at h
  cases ht : w.lib.type? o.type with
  | none =>
    rw [ht] at h
    cases h
  | some t =>
    rw [ht] at h
    dsimp only at h
    cases htakes : w.takesEvent e with
    | false =>
      rw [htakes] at h
      cases h
    | true =>
      rw [htakes, Bool.not_true, if_neg Bool.false_ne_true] at h
      cases hget : w.get o.id with
      | none =>
        cases made with
        | false =>
          simp only [hget] at h
          cases h
        | true =>
          simp only [hget] at h
          cases h
          have hgets : ∀ id, Table.get? (Table.put w.objects o.id (o.inserted t)) id =
              if o.id = id then some (o.inserted t) else w.get id :=
            fun id => Table.get?_put _ _ _ _
          refine ⟨rfl, rfl, rfl, rfl, rfl, ?_, ?_, ?_⟩
          · show (Table.get? (Table.put w.objects o.id (o.inserted t)) o.id).isSome = true
            rw [hgets, if_pos rfl]
            rfl
          · intro id hid
            show (Table.get? (Table.put w.objects o.id (o.inserted t)) id).map _ = _
            rw [hgets, if_neg]
            rintro rfl
            rw [hget] at hid
            cases hid
          · intro id p hid hp
            change Table.get? (Table.put w.objects o.id (o.inserted t)) id = some p at hp
            rw [hgets] at hp
            split at hp
            case isTrue heq =>
              cases hp
              exact ⟨heq, heq⟩
            case isFalse =>
              rw [hid] at hp
              cases hp
      | some held =>
        cases made with
        | true =>
          simp only [hget] at h
          cases h
        | false =>
          simp only [hget] at h
          split at h
          · cases h
            have hgets : ∀ id, Table.get? (Table.put w.objects o.id (held.updated o t)) id =
                if o.id = id then some (held.updated o t) else w.get id :=
              fun id => Table.get?_put _ _ _ _
            refine ⟨rfl, rfl, rfl, rfl, rfl, ?_, ?_, ?_⟩
            · show (Table.get? (Table.put w.objects o.id (held.updated o t)) o.id).isSome = true
              rw [hgets, if_pos rfl]
              rfl
            · intro id hid
              show (Table.get? (Table.put w.objects o.id (held.updated o t)) id).map _ = _
              rw [hgets]
              split
              case isTrue heq =>
                subst heq
                rw [hget]
                rfl
              case isFalse => rfl
            · intro id p hid hp
              change Table.get? (Table.put w.objects o.id (held.updated o t)) id = some p at hp
              rw [hgets, if_neg, hid] at hp
              · cases hp
              · rintro rfl
                rw [hget] at hid
                cases hid
          · cases h
            refine ⟨rfl, rfl, rfl, rfl, rfl, ?_, fun _ _ => rfl, ?_⟩
            · show (w.get o.id).isSome = true
              rw [hget]
              rfl
            · intro id p hid hp
              change w.get id = some p at hp
              rw [hid] at hp
              cases hp

theorem takesEvent_position {w : World} {e : Event} (h : w.takesEvent e = true) :
    ∀ f ∈ w.stored, f.position ≠ e.position := by
  intro f hf heq
  simp only [takesEvent, Bool.not_eq_true', List.any_eq_false] at h
  exact h f hf (by simp [heq])

/-- The rows and the events of a change, one after another. -/
theorem writeRows_wrote {w w' : World} {writes : List (Object × Bool × Event)} {bound : Int}
    (h : w.writeRows writes = some w') {old events : List Event} (hstored : w.stored = old ++ events)
    (hold : ∀ f ∈ old, f.position ≤ bound)
    (hsorted : events.Pairwise fun a b => a.position < b.position)
    (hnew : ∀ o made e, (o, made, e) ∈ writes → bound < e.position) :
    Wrote w old events writes w' := by
  induction writes generalizing w events with
  | nil =>
      cases h
      refine ⟨rfl, rfl, rfl, fun _ _ => rfl, ?_, by simp, events, hstored, by simp, hsorted⟩
      intro id p hnone hp
      rw [hnone] at hp
      cases hp
  | cons write rest ih =>
      obtain ⟨o, made, e⟩ := write
      obtain ⟨w₁, hrow, hrest⟩ := Option.bind_eq_some_iff.mp h
      obtain ⟨hlib, happended, hlast, hlogged, htakes, hheld, hkept, hmade⟩ := writeRow_spec hrow
      have hpast : bound < e.position := hnew o made e List.mem_cons_self
      have hown := takesEvent_position htakes
      rw [hstored] at hown
      have hstored₁ : w₁.stored =
          old ++ events.orderedInsert (fun a b => a.position ≤ b.position) e := by
        rw [hlogged, logged, hstored]
        exact orderedInsert_past fun f hf => (hold f hf).trans_lt hpast
      have hafter := ih hrest hstored₁
        (orderedInsert_increasing hsorted fun f hf => hown f (List.mem_append_right _ hf))
        fun o' made' e' hmem => hnew o' made' e' (List.mem_cons_of_mem _ hmem)
      have hsome : ∀ id, (w.get id).isSome → (w₁.get id).isSome := by
        intro id hid
        have htag := congrArg Option.isSome (hkept id hid)
        rw [Option.isSome_map, Option.isSome_map] at htag
        rw [htag]
        exact hid
      obtain ⟨now, hnow, hperm, hinc⟩ := hafter.stored
      refine ⟨hafter.lib.trans hlib, hafter.appended.trans happended,
        hafter.lastWritten.trans hlast, ?_, ?_, ?_, now, hnow, ?_, hinc⟩
      · intro id hid
        rw [hafter.kept id (hsome id hid), hkept id hid]
      · intro id p hnone hp
        cases hmid : w₁.get id with
        | none =>
            obtain ⟨hpid, o', made', e', hmem, hoid⟩ := hafter.new id p hmid hp
            exact ⟨hpid, o', made', e', List.mem_cons_of_mem _ hmem, hoid⟩
        | some q =>
            obtain ⟨hqid, hoid⟩ := hmade id q hnone hmid
            have htag := hafter.kept id (by rw [hmid]; rfl)
            rw [hp, hmid, Option.map_some, Option.map_some, Option.some.injEq] at htag
            exact ⟨(congrArg Prod.fst htag).trans hqid, o, made, e, List.mem_cons_self, hoid⟩
      · intro o' made' e' hmem
        rcases List.mem_cons.mp hmem with heq | hmem
        · cases heq
          exact hafter.isSome hheld
        · exact hafter.held o' made' e' hmem
      · refine hperm.trans ?_
        rw [List.map_cons]
        refine ((List.perm_orderedInsert _ e events).append_right _).trans ?_
        exact List.perm_middle.symm

/-- What a change written leaves of a store: each object held keeps its id and
its type, each new one is of the change, and the log grows at its end, by events
of the change. -/
structure Committed (w : World) (c : Change) (w' : World) : Prop where
  lib : w'.lib = w.lib
  appended : w'.appended = w.appended
  lastWritten : w'.lastWritten = w.lastWritten
  kept : ∀ id, (w.get id).isSome → (w'.get id).map Object.tag = (w.get id).map Object.tag
  new : ∀ id p, w.get id = none → w'.get id = some p →
    p.id = id ∧ ∃ o made e, (o, made, e) ∈ c.writes ∧ o.id = id
  held : ∀ o made e, (o, made, e) ∈ c.writes → (w'.get o.id).isSome
  events : ∃ now : List Event, w'.stored.map Event.tag = w.stored.map Event.tag ++ now.map Event.tag ∧
    w'.marks = w.marks ++ now.map w'.mark ∧ now.Perm c.events ∧
    now.Pairwise fun a b => a.position < b.position

theorem Committed.isSome {w w' : World} {c : Change} (h : Committed w c w') {id : String}
    (hid : (w.get id).isSome) : (w'.get id).isSome := by
  have htag := congrArg Option.isSome (h.kept id hid)
  rw [Option.isSome_map, Option.isSome_map] at htag
  rw [htag]
  exact hid

/-- What is written beside the rows and the events changes nothing a feed
reads. -/
theorem write_alike {r : Readers} {w w' : World} {c : Change} (h : w.write r c = some w') :
    ∃ rows, w.writeRows c.writes = some rows ∧ Alike rows w' := by
  obtain ⟨rows, hrows, h⟩ := Option.bind_eq_some_iff.mp h
  refine ⟨rows, hrows, ?_⟩
  cases h
  have hspans := upsertSpans_alike rows (c.writes.flatMap fun (o, _, e) => touchedSpans o e)
  have hmerged := hspans.trans (deleteMerged_alike _ c.merged)
  have hindexed := hmerged.trans (writeIndex_alike _ c.index)
  have hadmitted := hindexed.trans (writeAdmissions_alike _ c.admitted c.discharged)
  have hredacted := hadmitted.trans (redact_alike _ c)
  have hrenamed := hredacted.trans
    (Alike.foldl (fun w (entry : String × String) => renameActor_alike r w ⟨entry.1, entry.2⟩)
      c.renamedActors _)
  exact hrenamed.trans (noteErasures_alike _)

/-- **A change written** past every event of the log leaves it grown at its
end. -/
theorem write_committed {r : Readers} {w w' : World} {c : Change} (h : w.write r c = some w')
    (bound : Int) (hbound : ∀ e ∈ w.stored, e.position ≤ bound)
    (hheld : ∀ e ∈ w.stored, (w.get e.objectId).isSome)
    (hpast : ∀ e ∈ c.events, bound < e.position) : Committed w c w' := by
  obtain ⟨rows, hrows, halike⟩ := write_alike h
  have hwrote := writeRows_wrote hrows (List.append_nil w.stored).symm hbound List.Pairwise.nil
    fun o made e hmem => hpast e (List.mem_map.mpr ⟨_, hmem, rfl⟩)
  obtain ⟨now, hstored, hperm, hinc⟩ := hwrote.stored
  have htypes : ∀ id, (w.get id).isSome → (w'.get id).map (·.type) = (w.get id).map (·.type) := by
    intro id hid
    have htag := congrArg (Option.map Prod.snd) (hwrote.kept id hid)
    rw [Option.map_map, Option.map_map] at htag
    exact (halike.type id).trans htag
  refine
    { lib := halike.lib.trans hwrote.lib
      appended := halike.appended.trans hwrote.appended
      lastWritten := halike.lastWritten.trans hwrote.lastWritten
      kept := fun id hid => (halike.row id).trans (hwrote.kept id hid)
      new := ?_
      held := fun o made e hmem => (halike.isSome o.id).trans (hwrote.held o made e hmem)
      events := ⟨now, ?_, ?_, hperm, hinc⟩ }
  · intro id p hnone hp
    cases hrow : rows.get id with
    | none =>
        have hsome := halike.isSome id
        rw [hp, hrow] at hsome
        cases hsome
    | some q =>
        obtain ⟨hqid, hmade⟩ := hwrote.new id q hnone hrow
        have htag := halike.row id
        rw [hp, hrow, Option.map_some, Option.map_some, Option.some.injEq] at htag
        exact ⟨(congrArg Prod.fst htag).trans hqid, hmade⟩
  · rw [halike.events, hstored, List.map_append]
  · rw [halike.marks, marks, hstored, List.map_append]
    have hmark : rows.mark = w'.mark := by
      funext e
      exact congrArg (Mark.mk e.head) (halike.type e.objectId).symm
    rw [hmark]
    refine congrArg (· ++ _) (List.map_congr_left fun e he => ?_)
    exact congrArg (Mark.mk e.head) (htypes e.objectId (hheld e he))

end World

/-! ### What a decision leaves to write -/

/-- What a satisfied request's change is to be written after: its events stand
past the counters as it began and within those it leaves, each row is its
event's object, and no id still to be minted is held or written. -/
structure Change.Follows (w : World) (alloc : Counters) (c : Change) (alloc' : Counters) :
    Prop where
  advanced : alloc.position ≤ alloc'.position
  positions : ∀ e ∈ c.events, alloc.position < e.position ∧ e.position ≤ alloc'.position
  named : ∀ o made e, (o, made, e) ∈ c.writes → e.objectId = o.id
  fresh : ∀ type n, alloc'.object < n → w.get (alloc'.mintId type n) = none ∧
    ∀ o made e, (o, made, e) ∈ c.writes → o.id ≠ alloc'.mintId type n

theorem settled_follows {w : World} {s t : Ctx} (hwork : s.work = w) (hnone : s.events = [])
    (hwent : Ctx.Went s t) {root : String} {j : Judged} {v : Verdict} {c : Change}
    (hsettled : settled root j t = .ok (v, c)) : c.Follows w s.alloc t.alloc := by
  unfold settled at hsettled
  dsimp only at hsettled
  cases hwrites : eventWrites t.work t.created []
      (inPositionOrder (t.events.map (withReads t.readings))) with
  | none =>
    rw [hwrites] at hsettled
    cases hsettled
  | some writes =>
    rw [hwrites] at hsettled
    cases hsettled
    obtain ⟨hevents, hheld⟩ := eventWrites_spec hwrites
    obtain ⟨es, hadvanced⟩ := hwent.advanced
    have hes : t.events.map Event.entry = es := by
      have hentries := hadvanced.entries
      rw [show s.journal.entries = [] from congrArg (List.map Event.entry) hnone,
        List.nil_append] at hentries
      exact hentries
    refine ⟨hadvanced.position, ?_, ?_, ?_⟩
    · intro e he
      change e ∈ writes.map (fun (_, _, e) => e) at he
      rw [hevents] at he
      obtain ⟨f, hf, rfl⟩ := List.mem_map.mp ((List.mem_insertionSort _).mp he)
      have hpositions := hadvanced.positions f.entry (hes ▸ List.mem_map.mpr ⟨f, hf, rfl⟩)
      have hposition : (withReads t.readings f).position = f.entry.position :=
        congrArg Journal.Entry.position (withReads_entry t.readings f)
      rw [hposition]
      exact hpositions
    · intro o made e hmem
      exact (hwent.sound.named _ _ (hheld o made e hmem)).symm
    · intro type n hn
      have hunheld := hwent.sound.fresh type n hn
      refine ⟨?_, ?_⟩
      · rw [← hwork]
        by_contra hsome
        have hkept := hwent.held _ (Option.isSome_iff_ne_none.mpr hsome)
        rw [hunheld] at hkept
        cases hkept
      · intro o made e hmem heq
        have hget := hheld o made e hmem
        rw [← hwent.sound.named _ _ hget, heq, hunheld] at hget
        cases hget

theorem decideOrStop_follows {r : Readers} {w : World} {alloc alloc' : Counters} {req : Request}
    {answers : Table String String} {checking : Bool} {filedAt cause : Option Int} {v : Verdict}
    {c : Change} (hw : w.Opens alloc)
    (h : decideOrStop r w alloc req answers checking filedAt cause = (.ok (v, c), alloc')) :
    c.Follows w alloc alloc' := by
  unfold decideOrStop at h
  cases hasked : asked r w req with
  | error stop =>
    rw [hasked] at h
    cases h
  | ok a =>
    rw [hasked] at h
    dsimp only at h
    rcases hrun : carried r req a (Ctx.start w alloc req a answers checking filedAt cause) with
      ⟨decided, ctx⟩
    rw [hrun] at h
    obtain ⟨rfl, rfl⟩ := Prod.mk.inj h
    obtain ⟨hwent, root, j, hsettled⟩ :=
      carried_settled (start_sound hw req a answers checking filedAt cause) hrun
    exact settled_follows rfl rfl hwent hsettled

/-- A change of one event of the next position. -/
theorem follows_single {w : World} {alloc alloc' : Counters} {o : Object} {made : Bool} {e : Event}
    (hposition : e.position = alloc.position + 1) (hnext : alloc'.position = alloc.position + 1)
    (hid : e.objectId = o.id)
    (hfresh : ∀ type n, alloc'.object < n → w.get (alloc'.mintId type n) = none ∧
      o.id ≠ alloc'.mintId type n) :
    Change.Follows w alloc { writes := [(o, made, e)] } alloc' := by
  refine ⟨by omega, ?_, ?_, ?_⟩
  · intro f hf
    obtain rfl : f = e := List.mem_singleton.mp hf
    omega
  · intro o' made' e' hmem
    cases List.mem_singleton.mp hmem
    exact hid
  · intro type n hn
    obtain ⟨hnone, hne⟩ := hfresh type n hn
    refine ⟨hnone, fun o' made' e' hmem => ?_⟩
    cases List.mem_singleton.mp hmem
    exact hne

theorem file_follows {r : Readers} {w : World} {alloc alloc' : Counters} {req : Request}
    {v : Verdict} {c : Change} (hw : w.Opens alloc)
    (h : file r w alloc req = (.ok (v, c), alloc')) : c.Follows w alloc alloc' := by
  unfold file at h
  cases hfilable : filable r w req with
  | error stop =>
    rw [hfilable] at h
    cases h
  | ok found =>
    rw [hfilable] at h
    cases h
    refine follows_single rfl rfl rfl fun type n hn => ?_
    have hpast : alloc.object + 1 < n := hn
    refine ⟨hw.fresh type n (by omega), ?_⟩
    rw [(storeRow_told _ _ _ _ _ _).1]
    intro heq
    have hsame : alloc.object + 1 = n := alloc.distinct _ _ _ _ heq
    omega

theorem decideChange_follows {r : Readers} {w : World} {alloc alloc' : Counters} {req : Request}
    {v : Verdict} {c : Change} (hw : w.Opens alloc)
    (h : decideChange r w alloc req = (.ok (v, c), alloc')) : c.Follows w alloc alloc' := by
  unfold decideChange at h
  cases hchangeable : changeable r w req with
  | error stop =>
    rw [hchangeable] at h
    cases h
  | ok found =>
    obtain ⟨who, t, attrs, state⟩ := found
    rw [hchangeable] at h
    cases hheld : req.objectId.bind w.get with
    | none =>
      simp only [hheld] at h
      cases h
      refine follows_single rfl rfl rfl fun type n hn => ?_
      have hpast : alloc.object + 1 < n := hn
      refine ⟨hw.fresh type n (by omega), ?_⟩
      rw [(storeRow_told _ _ _ _ _ _).1]
      intro heq
      have hsame : alloc.object + 1 = n := alloc.distinct _ _ _ _ heq
      omega
    | some held =>
      simp only [hheld] at h
      cases h
      obtain ⟨id, -, hget⟩ := Option.bind_eq_some_iff.mp hheld
      refine follows_single rfl rfl rfl fun type n hn => ?_
      have hnone := hw.fresh type n hn
      refine ⟨hnone, ?_⟩
      rw [(storeRow_told _ _ _ _ _ _).1]
      intro heq
      change held.id = alloc.mintId type n at heq
      rw [← heq, hw.named id held hget, hget] at hnone
      cases hnone

theorem decideProposal_follows {r : Readers} {w : World} {alloc alloc' : Counters} {req : Request}
    {answers : Table String String} {checking : Bool} {v : Verdict} {c : Change}
    (hw : w.Opens alloc)
    (h : decideProposal r w alloc req answers checking = (.ok (v, c), alloc')) :
    c.Follows w alloc alloc' := by
  unfold decideProposal at h
  cases hdecidable : decidable' w req with
  | error stop =>
    rw [hdecidable] at h
    cases h
  | ok found =>
    obtain ⟨who, p, pt, state⟩ := found
    obtain ⟨hget, -⟩ := decidable'_pending hw hdecidable
    rw [hdecidable] at h
    dsimp only at h
    have hid : (storeRow w pt who (alloc.position + 1) (some (trackedValues w.lib pt p))
        { p with state }).id = p.id := (storeRow_told _ _ _ _ _ _).1
    have hunminted : ∀ (alloc' : Counters) type n, w.get (alloc'.mintId type n) = none →
        p.id ≠ alloc'.mintId type n := by
      intro alloc' type n hnone heq
      rw [← heq, hget] at hnone
      cases hnone
    split at h
    · cases h
      refine follows_single rfl rfl rfl fun type n hn => ⟨hw.fresh type n hn, ?_⟩
      rw [hid]
      exact hunminted alloc type n (hw.fresh type n hn)
    · rcases hdecided : decideOrStop r w { alloc with position := alloc.position + 1 }
        (heldRequest r req p) answers checking (p.time "filed_at") (some (alloc.position + 1)) with
        ⟨answer, counters⟩
      rw [hdecided] at h
      cases answer with
      | error stop => cases h
      | ok found =>
        obtain ⟨v', c'⟩ := found
        cases h
        have hopens : w.Opens { alloc with position := alloc.position + 1 } :=
          ⟨hw.named, hw.fresh, hw.unwritten⟩
        have hrest := decideOrStop_follows hopens hdecided
        have hadvanced : alloc.position + 1 ≤ counters.position := hrest.advanced
        refine ⟨show alloc.position ≤ counters.position by omega, ?_, ?_, ?_⟩
        · intro e he
          rcases List.mem_cons.mp he with rfl | he
          · exact ⟨Int.lt_succ _, hadvanced⟩
          · have hpositions := hrest.positions e he
            have : alloc.position + 1 < e.position := hpositions.1
            exact ⟨by omega, hpositions.2⟩
        · intro o made e hmem
          rcases List.mem_cons.mp hmem with heq | hmem
          · cases heq
            rfl
          · exact hrest.named o made e hmem
        · intro type n hn
          obtain ⟨hnone, hne⟩ := hrest.fresh type n hn
          refine ⟨hnone, fun o made e hmem => ?_⟩
          rcases List.mem_cons.mp hmem with heq | hmem
          · cases heq
            rw [hid]
            exact hunminted counters type n hnone
          · exact hne o made e hmem

/-- **What a satisfied request leaves to write** follows the store it was decided
on. -/
theorem decide'_follows {r : Readers} {w : World} {alloc alloc' : Counters} {req : Request}
    {answers : Table String String} {checking : Bool} {v : Verdict} {c : Change}
    (hw : w.Opens alloc)
    (h : decide' r w alloc req answers checking = (.ok (v, c), alloc')) :
    c.Follows w alloc alloc' := by
  unfold decide' at h
  dsimp only at h
  obtain ⟨v', hanswer⟩ := told_created h
  split at hanswer
  · obtain ⟨hrefused, -⟩ := Prod.mk.inj hanswer
    obtain ⟨who, -, hrefused⟩ := ok_of_bind hrefused
    cases hrefused
  split at hanswer
  · exact file_follows hw hanswer
  split at hanswer
  · exact decideChange_follows hw hanswer
  split at hanswer
  · exact decideProposal_follows hw hanswer
  · exact decideOrStop_follows hw hanswer

/-! ### Any run of requests -/

/-- A position of the log's: 0, or one at most its last, and in no gap a restore
skipped. -/
def Store.Handed (s : Store) (p : Int) : Prop :=
  0 ≤ p ∧ (p = 0 ∨ ∃ m ∈ s.world.marks, p ≤ m.head.position) ∧ s.skippedPosition p = false

/-- A store between requests: its counters account for its objects and its log,
each event is of an object held, no event stands in a gap a restore skipped, and
a reader acknowledged a position of the log's. -/
structure Store.Sound (s : Store) : Prop where
  opens : s.world.Opens s.counters
  appended : s.world.appended = []
  ordered : s.world.marks.Pairwise fun a b => a.head.position < b.head.position
  positive : ∀ e ∈ s.world.stored, 0 < e.position
  bounded : ∀ e ∈ s.world.stored, e.position ≤ s.counters.position
  started : 0 ≤ s.counters.position
  held : ∀ e ∈ s.world.stored, (s.world.get e.objectId).isSome
  restored : ∀ gap ∈ s.restores, 0 ≤ gap.copied ∧ gap.advanced ≤ s.counters.position ∧
    ∀ e ∈ s.world.stored, gap.skippedPosition e.position = false
  acknowledged : ∀ id p, Table.get? s.acknowledged id = some p → s.Handed p

namespace Store

/-- What a request leaves of the log: what it held, and events past the
counters. -/
structure Grew (s s' : Store) : Prop where
  lib : s'.world.lib = s.world.lib
  position : s.counters.position ≤ s'.counters.position
  restores : s'.restores = s.restores
  acknowledged : s'.acknowledged = s.acknowledged
  kept : ∀ id, (s.world.get id).isSome →
    (s'.world.get id).map Object.tag = (s.world.get id).map Object.tag
  marks : ∃ new, s'.world.marks = s.world.marks ++ new ∧
    ∀ m ∈ new, s.counters.position < m.head.position

theorem Grew.refl (s : Store) : Grew s s :=
  ⟨rfl, le_refl _, rfl, rfl, fun _ _ => rfl, [], (List.append_nil _).symm, by simp⟩

/-- A position of a log's is one of what it grows to. -/
theorem Grew.handed {s s' : Store} (h : Grew s s') {p : Int} (hp : s.Handed p) : s'.Handed p := by
  obtain ⟨hzero, hreached, hskipped⟩ := hp
  obtain ⟨new, hmarks, -⟩ := h.marks
  refine ⟨hzero, hreached.imp_right ?_, ?_⟩
  · rintro ⟨m, hm, hle⟩
    exact ⟨m, by rw [hmarks]; exact List.mem_append_left _ hm, hle⟩
  · rw [skippedPosition, h.restores]
    exact hskipped

/-- The events of a sound store, read by their marks. -/
theorem mem_marks {w : World} {m : Mark} (hm : m ∈ w.marks) :
    ∃ e ∈ w.stored, m.head = e.head := by
  obtain ⟨e, he, rfl⟩ := List.mem_map.mp hm
  exact ⟨e, he, rfl⟩

/-- A change decided on a sound store and written leaves it sound, its log
grown. -/
theorem Sound.committed {s : Store} (hs : s.Sound) {now : Int}
    {attempts : Table String (List Value)} {r : Readers} {c : Change} {alloc : Counters}
    {w' : World} (hfollows : c.Follows (s.opened now attempts) s.drawing alloc)
    (hwrite : (s.opened now attempts).write r c = some w') (numbers : NumberRows) :
    Sound { s with world := w', counters := alloc, numbers } ∧
      Grew s { s with world := w', counters := alloc, numbers } := by
  have hpast : ∀ e ∈ c.events, s.counters.position < e.position :=
    fun e he => (hfollows.positions e he).1
  have hcommitted := World.write_committed hwrite s.counters.position hs.bounded hs.held
    hpast
  obtain ⟨now', htags, hmarks, hperm, hinc⟩ := hcommitted.events
  have hadvanced : s.counters.position ≤ alloc.position := hfollows.advanced
  -- each event of the log is an earlier one rewritten, or one of the change
  have hevent : ∀ e ∈ w'.stored, (∃ f ∈ s.world.stored, f.tag = e.tag) ∨
      ∃ f ∈ c.events, f.tag = e.tag := by
    intro e he
    have hmem : e.tag ∈ w'.stored.map Event.tag := List.mem_map.mpr ⟨e, he, rfl⟩
    rw [htags] at hmem
    rcases List.mem_append.mp hmem with hmem | hmem
    · obtain ⟨f, hf, htag⟩ := List.mem_map.mp hmem
      exact .inl ⟨f, hf, htag⟩
    · obtain ⟨f, hf, htag⟩ := List.mem_map.mp hmem
      exact .inr ⟨f, hperm.subset hf, htag⟩
  have hposition : ∀ {e f : Event}, f.tag = e.tag → e.position = f.position :=
    fun htag => congrArg (fun tag : String × Int × Head => tag.2.2.position) htag.symm
  have hobject : ∀ {e f : Event}, f.tag = e.tag → e.objectId = f.objectId :=
    fun htag => congrArg (fun tag : String × Int × Head => tag.1) htag.symm
  have hgrown : ∀ m ∈ now'.map w'.mark, s.counters.position < m.head.position := by
    intro m hm
    obtain ⟨e, he, rfl⟩ := List.mem_map.mp hm
    exact hpast e (hperm.subset he)
  have hgrew : Grew s { s with world := w', counters := alloc, numbers } :=
    ⟨hcommitted.lib, hadvanced, rfl, rfl, hcommitted.kept, now'.map w'.mark, hmarks, hgrown⟩
  refine ⟨?_, hgrew⟩
  refine
    { opens := ⟨?_, ?_, hcommitted.lastWritten.trans hs.opens.unwritten⟩
      appended := hcommitted.appended.trans hs.appended
      ordered := ?_
      positive := ?_
      bounded := ?_
      started := hs.started.trans hadvanced
      held := ?_
      restored := ?_
      acknowledged := fun id p hp => hgrew.handed (hs.acknowledged id p hp) }
  · intro id o ho
    cases hwas : (s.opened now attempts).get id with
    | none => exact (hcommitted.new id o hwas ho).1
    | some p =>
        have htag := hcommitted.kept id (by rw [hwas]; rfl)
        rw [ho, hwas, Option.map_some, Option.map_some, Option.some.injEq] at htag
        exact (congrArg Prod.fst htag).trans (hs.opens.named id p hwas)
  · intro type n hn
    obtain ⟨hnone, hne⟩ := hfollows.fresh type n hn
    cases hget : w'.get (alloc.mintId type n) with
    | none => rfl
    | some p =>
        obtain ⟨-, o, made, e, hmem, hid⟩ := hcommitted.new _ p hnone hget
        exact absurd hid (hne o made e hmem)
  · show w'.marks.Pairwise _
    rw [hmarks, List.pairwise_append]
    refine ⟨hs.ordered, ?_, ?_⟩
    · rw [List.pairwise_map]
      exact hinc
    · intro a ha b hb
      obtain ⟨e, he, hhead⟩ := mem_marks ha
      have hle : e.position ≤ s.counters.position := hs.bounded e he
      have hlt := hgrown b hb
      rw [hhead]
      exact lt_of_le_of_lt hle hlt
  · intro e he
    rcases hevent e he with ⟨f, hf, htag⟩ | ⟨f, hf, htag⟩
    · rw [hposition htag]
      exact hs.positive f hf
    · rw [hposition htag]
      have := hpast f hf
      have := hs.started
      omega
  · intro e he
    rcases hevent e he with ⟨f, hf, htag⟩ | ⟨f, hf, htag⟩
    · rw [hposition htag]
      exact (hs.bounded f hf).trans hadvanced
    · rw [hposition htag]
      exact (hfollows.positions f hf).2
  · intro e he
    rcases hevent e he with ⟨f, hf, htag⟩ | ⟨f, hf, htag⟩
    · rw [hobject htag]
      exact hcommitted.isSome (hs.held f hf)
    · rw [hobject htag]
      obtain ⟨⟨o, made, e'⟩, hmem, rfl⟩ := List.mem_map.mp hf
      rw [hfollows.named o made e' hmem]
      exact hcommitted.held o made e' hmem
  · intro gap hgap
    obtain ⟨hcopied, hreached, houtside⟩ := hs.restored gap hgap
    refine ⟨hcopied, hreached.trans hadvanced, fun e he => ?_⟩
    rcases hevent e he with ⟨f, hf, htag⟩ | ⟨f, hf, htag⟩
    · rw [hposition htag]
      exact houtside f hf
    · rw [hposition htag]
      have := hpast f hf
      simp only [Restore.skippedPosition, Bool.and_eq_false_iff, decide_eq_false_iff_not]
      right
      omega

/-- **One request** leaves a sound store sound, its log grown at its end. -/
theorem Sound.request {s : Store} (hs : s.Sound) (r : Readers) (now : Int)
    (attempts : Table String (List Value)) (req : Request) (answers : Table String String) :
    (s.request r now attempts req answers).Sound ∧
      Grew s (s.request r now attempts req answers) := by
  have hopens : (s.opened now attempts).Opens s.drawing :=
    ⟨hs.opens.named, hs.opens.fresh, hs.opens.unwritten⟩
  have hnumbers : ∀ numbers, Sound { s with numbers } ∧ Grew s { s with numbers } := fun numbers =>
    ⟨⟨hs.opens, hs.appended, hs.ordered, hs.positive, hs.bounded, hs.started, hs.held,
      hs.restored, hs.acknowledged⟩, rfl, le_refl _, rfl, rfl, fun _ _ => rfl, [], (List.append_nil _).symm, by simp⟩
  unfold Store.request
  dsimp only
  rcases hdecided : decide' r (s.opened now attempts) s.drawing req answers false with
    ⟨(_ | _) | ⟨v, c⟩, alloc⟩
  · exact hnumbers _
  · exact ⟨hs, Grew.refl s⟩
  · have hfollows := decide'_follows hopens hdecided
    unfold settle
    dsimp only
    cases hwrite : (s.opened now attempts).write r c with
    | none => exact ⟨hs, Grew.refl s⟩
    | some w' => exact hs.committed hfollows hwrite _

end Store

end ObjectFlow
