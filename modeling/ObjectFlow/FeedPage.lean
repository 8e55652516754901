import ObjectFlow.Feeding

/-!
# A page of a feed

A page answered is a stretch of the log: what the feed selects past the position
it was read from, up to the one to ask after next.  Nothing selected stands
between that position and the one answered as settled, and where no more is
answered nothing selected is left.
-/

namespace ObjectFlow

open Base

/-- What a reader reads: a subscription, or an export of the log or of a type's
transitions. -/
inductive Feed where
  | subscription (id : String)
  | log
  | transitions (type : String)

/-- What a page answered: where it was read from and what of the log was
selected, its events, the position to ask after next, the furthest that is
settled, and whether the next may hold more now. -/
structure Answered where
  after : Int
  selects : Mark → Bool
  events : List Event
  next : Int
  settled : Int
  more : Bool

/-- The stretch of the log a page covers. -/
def Answered.stretch (a : Answered) : Stretch Mark := ⟨a.after, a.next, a.selects⟩

/-- Whether an event is of an object of one of the types, or of any. -/
def Mark.ofTypes (types : Option (List String)) (m : Mark) : Bool :=
  types.all fun ts => m.type.any ts.contains

/-- A page of an export, as its reader takes it. -/
def ExportPage.answered (page : ExportPage) (after : Int) (selects : Mark → Bool) :
    Option Answered :=
  match page.refused with
  | some _ => none
  | none => some
      { after, selects, events := page.rows, next := page.cursor, settled := page.cursor
        more := page.more }

/-- A page of a feed, and none where it is refused. -/
def Store.readPage (s : Store) (feed : Feed) (bytes : Event → Nat) (pageBytes : Nat)
    (cursor : Option Int) (limit : Nat) : Option Answered :=
  match feed with
  | .subscription id =>
      let page := s.pullPage bytes pageBytes id cursor limit
      match s.subscription id, page.refused with
      | .ok sub, none => some
          { after := (s.pulledFrom sub cursor).getD 0
            selects := s.world.chosen sub
            events := page.events
            -- its last row, or the settled position of a page that selects none
            next := (page.events.getLast?.map (·.position)).getD page.settled
            settled := page.settled
            more := page.more }
      | _, _ => none
  | .log =>
      (s.exportPage bytes pageBytes none cursor limit).answered (cursor.getD 0) (Mark.ofTypes none)
  | .transitions t =>
      (s.exportPage bytes pageBytes (some t) cursor limit).answered (cursor.getD 0)
        (Mark.ofTypes (some (s.world.family t)))

/-- What a feed selects of a store's log. -/
def Store.selection (s : Store) : Feed → Mark → Bool
  | .subscription id =>
      match s.subscription id with
      | .ok sub => s.world.chosen sub
      | .error _ => fun _ => false
  | .log => Mark.ofTypes none
  | .transitions t => Mark.ofTypes (some (s.world.family t))

/-- Whether a position is one of the store's log, in no gap a restore
skipped. -/
def Store.hands (s : Store) (c : Int) : Bool :=
  decide (0 ≤ c) && decide (c ≤ s.world.lastPosition) && !s.skippedPosition c

/-- Whether a store answers a page of a feed after a position. -/
def Store.answers (s : Store) (feed : Feed) (cursor : Option Int) : Bool :=
  match feed with
  | .subscription id => (s.subscription id).isOk && cursor.all s.hands
  | .log => s.hands (cursor.getD 0)
  | .transitions t => s.hands (cursor.getD 0) && (s.world.lib.type? t).isSome

/-- A page is asked at a limit of at least one, and an export's bytes hold
something. -/
def Feed.Asks (feed : Feed) (pageBytes limit : Nat) : Prop :=
  0 < limit ∧ match feed with
    | .subscription _ => True
    | _ => 0 < pageBytes

/-! ### What one page is -/

/-- A page answered of a store: a stretch of its log, ending at a position of
the store's that nothing selected stands between and the settled one. -/
structure Answered.Of (s : Store) (a : Answered) : Prop where
  forward : a.after ≤ a.next
  settles : a.next ≤ a.settled
  reached : a.settled ≤ s.world.lastPosition
  valid : 0 ≤ a.next ∧ s.skippedPosition a.next = false
  rows : a.events.map (·.position) =
    (a.stretch.rows Mark.position s.world.marks).map Mark.position
  settled : ∀ m ∈ s.world.marks, m.position ≤ a.settled → a.selects m = true →
    m.position ≤ a.next
  whole : a.more = false → ∀ m ∈ s.world.marks, a.selects m = true → m.position ≤ a.next
  more : a.more = true →
    ∃ m ∈ s.world.marks, a.after < m.position ∧ m.position ≤ a.next ∧ a.selects m = true

namespace Store

theorem Sound.increasing {s : Store} (hs : s.Sound) :
    s.world.stored.Pairwise fun a b => a.position < b.position :=
  (List.pairwise_map (f := s.world.mark)).mp hs.ordered

theorem le_lastPosition {s : Store} (hs : s.Sound) {e : Event} (he : e ∈ s.world.stored) :
    e.position ≤ s.world.lastPosition := by
  have hmem : e.position ∈ s.world.stored.map (·.position) := List.mem_map.mpr ⟨e, he, rfl⟩
  obtain ⟨last, hlast⟩ : ∃ last, (s.world.stored.map (·.position)).max? = some last := by
    cases hmax : (s.world.stored.map (·.position)).max? with
    | some last => exact ⟨last, rfl⟩
    | none =>
        rw [List.max?_eq_none_iff] at hmax
        rw [hmax] at hmem
        cases hmem
  rw [World.lastPosition, hs.appended, hlast]
  exact (List.max?_eq_some_iff.mp hlast).2 _ hmem

/-- The log's last position is an event's, or 0 where there is none. -/
theorem lastPosition_of {s : Store} (hs : s.Sound) :
    s.world.lastPosition = 0 ∨ ∃ e ∈ s.world.stored, s.world.lastPosition = e.position := by
  rw [World.lastPosition, hs.appended]
  dsimp only [List.getLast?_nil]
  cases hmax : (s.world.stored.map (·.position)).max? with
  | none => exact .inl rfl
  | some last =>
      obtain ⟨e, he, hlast⟩ := List.mem_map.mp (List.max?_eq_some_iff.mp hmax).1
      exact .inr ⟨e, he, hlast.symm⟩

theorem lastPosition_le {s : Store} (hs : s.Sound) :
    0 ≤ s.world.lastPosition ∧ s.world.lastPosition ≤ s.counters.position := by
  rcases lastPosition_of hs with h | ⟨e, he, h⟩
  · rw [h]
    exact ⟨le_refl _, hs.started⟩
  · rw [h]
    exact ⟨(hs.positive e he).le, hs.bounded e he⟩

/-- No gap a restore skipped holds an event's position, nor 0. -/
theorem skippedPosition_event {s : Store} (hs : s.Sound) {e : Event} (he : e ∈ s.world.stored) :
    s.skippedPosition e.position = false := by
  rw [skippedPosition, List.any_eq_false]
  intro gap hgap
  simpa using (hs.restored gap hgap).2.2 e he

theorem skippedPosition_zero {s : Store} (hs : s.Sound) : s.skippedPosition 0 = false := by
  rw [skippedPosition, List.any_eq_false]
  intro gap hgap
  have := (hs.restored gap hgap).1
  simp only [Restore.skippedPosition, Bool.and_eq_true, decide_eq_true_eq, not_and]
  intro h
  omega

theorem skippedPosition_last {s : Store} (hs : s.Sound) :
    s.skippedPosition s.world.lastPosition = false := by
  rcases lastPosition_of hs with h | ⟨e, he, h⟩
  · rw [h]
    exact skippedPosition_zero hs
  · rw [h]
    exact skippedPosition_event hs he

end Store

/-- What is selected of the log, read by its events. -/
theorem between_marks (w : World) (selects : Mark → Bool) (after upto : Int) :
    between Mark.position selects after upto w.marks =
      (between Event.position (fun e => selects (w.mark e)) after upto w.stored).map w.mark := by
  rw [between, World.marks, List.filter_map]
  rfl

/-- The first of what is selected past a position, at least one where there is
any, as a page whose position is its last event's or, of none, one given. -/
theorem answered_of {s : Store} (hs : s.Sound) (after settled : Int) {selects : Mark → Bool}
    {events : List Event} (n : Nat) (more : Bool)
    (hevents : events = (past Event.position (fun e => selects (s.world.mark e)) after
      s.world.stored).take n)
    (hsome : past Event.position (fun e => selects (s.world.mark e)) after s.world.stored ≠ [] →
      0 < n)
    (hempty : events = [] → after ≤ settled ∧ 0 ≤ settled ∧ settled ≤ s.world.lastPosition ∧
      s.skippedPosition settled = false)
    (hsettled : ∀ x, events.getLast? = some x → settled = x.position ∨
      (settled = s.world.lastPosition ∧ more = false))
    (hmore : more = true → events ≠ [])
    (hwhole : more = false → events =
      past Event.position (fun e => selects (s.world.mark e)) after s.world.stored) :
    Answered.Of s
      { after, selects, events, settled, more
        next := (events.getLast?.map (·.position)).getD settled } := by
  have hsorted := hs.increasing
  generalize hall : past Event.position (fun e => selects (s.world.mark e)) after
    s.world.stored = all at hevents hsome hwhole
  have hin : ∀ m ∈ s.world.marks, selects m = true → after < m.position →
      ∃ e ∈ all, e.position = m.position := by
    intro m hm hselects hpast
    obtain ⟨e, he, rfl⟩ := List.mem_map.mp hm
    exact ⟨e, hall ▸ mem_past.mpr ⟨he, hpast, hselects⟩, rfl⟩
  cases hlast : events.getLast? with
  | none =>
      have hnone : events = [] := List.getLast?_eq_none_iff.mp hlast
      obtain ⟨hforward, hzero, hreached, hskipped⟩ := hempty hnone
      have hallnone : all = [] := by
        by_contra hne
        have hpos := hsome hne
        rw [hevents, List.take_eq_nil_iff] at hnone
        rcases hnone with h | h
        · omega
        · exact hne h
      have hnothing : ∀ m ∈ s.world.marks, selects m = true → m.position ≤ after := by
        intro m hm hselects
        by_contra hpast
        obtain ⟨e, he, -⟩ := hin m hm hselects (not_le.mp hpast)
        rw [hallnone] at he
        cases he
      refine
        { forward := hforward, settles := le_refl _, reached := hreached
          valid := ⟨hzero, hskipped⟩
          rows := ?_
          settled := fun m _ hm _ => hm
          whole := fun _ m hm hselects => (hnothing m hm hselects).trans hforward
          more := fun h => absurd hnone (hmore h) }
      have hnil : between Mark.position selects after settled s.world.marks = [] := by
        rw [between, List.filter_eq_nil_iff]
        intro m hm
        simp only [Bool.and_eq_true, decide_eq_true_eq, not_and]
        intro hbounds hselects
        have := hnothing m hm hselects
        omega
      show events.map _ = (between Mark.position selects after settled s.world.marks).map _
      rw [hnone, hnil]
      rfl
  | some x =>
      have hx : (all.take n).getLast? = some x := hevents ▸ hlast
      have hmem : x ∈ all := List.mem_of_mem_take (List.mem_of_getLast? hx)
      rw [← hall] at hmem
      obtain ⟨hstored, hpast, hselects⟩ := mem_past.mp hmem
      have hstretch : events = between Event.position (fun e => selects (s.world.mark e)) after
          x.position s.world.stored := by
        rw [hevents]
        rw [← hall] at hx ⊢
        exact take_past hsorted hx
      have hlastEvent := Store.le_lastPosition hs hstored
      have hwholeLe : more = false → ∀ m ∈ s.world.marks, selects m = true →
          m.position ≤ x.position := by
        intro hdone m hm hselects
        by_cases hafterm : after < m.position
        · obtain ⟨e, he, hposition⟩ := hin m hm hselects hafterm
          rw [← hwhole hdone, hstretch] at he
          rw [← hposition]
          exact (mem_between.mp he).2.2.1
        · omega
      refine
        { forward := hpast.le
          settles := ?_
          reached := ?_
          valid := ⟨(hs.positive x hstored).le, Store.skippedPosition_event hs hstored⟩
          rows := ?_
          settled := ?_
          whole := hwholeLe
          more := fun _ => ⟨s.world.mark x, List.mem_map.mpr ⟨x, hstored, rfl⟩, hpast, le_refl _,
            hselects⟩ }
      · show x.position ≤ settled
        rcases hsettled x hlast with h | ⟨h, -⟩
        · exact h.ge
        · rw [h]
          exact hlastEvent
      · show settled ≤ s.world.lastPosition
        rcases hsettled x hlast with h | ⟨h, -⟩
        · rw [h]
          exact hlastEvent
        · exact h.le
      · show events.map _ = (between Mark.position selects after x.position s.world.marks).map _
        rw [between_marks, List.map_map, hstretch]
        rfl
      · intro m hm hle hselects
        rcases hsettled x hlast with h | ⟨-, hdone⟩
        · exact hle.trans h.le
        · exact hwholeLe hdone m hm hselects

namespace Store

theorem Handed.le_last {s : Store} (hs : s.Sound) {p : Int} (hp : s.Handed p) :
    p ≤ s.world.lastPosition := by
  rcases hp.2.1 with rfl | ⟨m, hm, hle⟩
  · exact (lastPosition_le hs).1
  · obtain ⟨e, he, hhead⟩ := mem_marks hm
    have := le_lastPosition hs he
    rw [hhead] at hle
    exact hle.trans this

theorem acknowledgedAt_le {s : Store} (hs : s.Sound) (sub : Object) :
    s.acknowledgedAt sub ≤ s.world.lastPosition := by
  unfold acknowledgedAt
  cases hheld : Table.get? s.acknowledged sub.id with
  | some p => exact (hs.acknowledged sub.id p hheld).le_last hs
  | none =>
      dsimp only
      rw [World.firstPosition, World.log, hs.appended, List.append_nil]
      cases hfirst : s.world.stored.find? (·.objectId = sub.id) with
      | none => exact (lastPosition_le hs).1
      | some e => exact le_lastPosition hs (List.mem_of_find?_eq_some hfirst)

/-- A page is read from the position asked after, one at most the log's last. -/
theorem pulledFrom_spec {s : Store} (hs : s.Sound) {sub : Object} {cursor : Option Int}
    {after : Int} (h : s.pulledFrom sub cursor = some after) :
    after ≤ s.world.lastPosition ∧ ∀ c, cursor = some c → after = c := by
  unfold pulledFrom at h
  cases cursor with
  | none =>
      cases h
      exact ⟨acknowledgedAt_le hs sub, by simp⟩
  | some c =>
      dsimp only at h
      split at h
      · cases h
      case isFalse hvalid =>
        cases h
        refine ⟨?_, fun c' hc' => Option.some.inj hc'⟩
        by_contra hpast
        exact hvalid (.inr (.inl (not_le.mp hpast)))

/-- **A page pulled** is a page of the log. -/
theorem pullPage_of {s : Store} (hs : s.Sound) {bytes : Event → Nat} {pageBytes : Nat}
    {id : String} {cursor : Option Int} {limit : Nat} (hlimit : 0 < limit) {a : Answered}
    (h : s.readPage (.subscription id) bytes pageBytes cursor limit = some a) :
    a.Of s ∧ (∀ c, cursor = some c → a.after = c) ∧ a.selects = s.selection (.subscription id) := by
  unfold readPage at h
  dsimp only at h
  rw [selection]
  cases hsub : s.subscription id with
  | error why =>
    rw [hsub] at h
    cases h
  | ok sub =>
    rw [hsub] at h
    unfold pullPage at h
    rw [hsub] at h
    dsimp only at h
    cases hafter : s.pulledFrom sub cursor with
    | none =>
      rw [hafter] at h
      cases h
    | some after =>
      rw [hafter] at h
      dsimp only at h
      rw [hafter, Option.getD_some] at h
      obtain ⟨hle, hcursor⟩ := pulledFrom_spec hs hafter
      rw [selected_eq hs.appended hs.increasing] at h
      generalize hall : past Event.position
        (fun e => s.world.chosen sub (s.world.mark e)) after s.world.stored = all at h
      rw [← List.map_take, List.take_take, min_eq_left (Nat.le_succ limit)] at h
      have hheld : ∀ e ∈ all.take limit, s.world.eventAt e.position = some e := by
        intro e he
        have hmem := List.mem_of_mem_take he
        rw [← hall] at hmem
        exact eventAt_self hs.appended hs.increasing (mem_past.mp hmem).1
      obtain ⟨n, hpos, hwithin, hpage⟩ := pageEvents_eq bytes pageBytes hheld 0
      rw [hpage] at h
      dsimp only at h
      have htake : (all.take limit).take n = all.take (min n limit) := List.take_take
      -- more is answered where not all of what is selected was
      have hmore : (decide (limit < (all.take (limit + 1)).length) ||
          decide (n < (all.take limit).length)) = decide (min n limit < all.length) := by
        rw [Bool.eq_iff_iff, Bool.or_eq_true, decide_eq_true_eq, decide_eq_true_eq,
          decide_eq_true_eq, List.length_take, List.length_take]
        rw [List.length_take] at hwithin
        omega
      rw [List.length_map, hmore, htake] at h
      obtain rfl := Option.some.inj h
      refine ⟨?_, fun c hc => hcursor c hc, rfl⟩
      have hpositive : all ≠ [] → 0 < min n limit := by
        intro hne
        have : all.take limit ≠ [] := by
          rw [ne_eq, List.take_eq_nil_iff, not_or]
          exact ⟨by omega, hne⟩
        have := hpos this
        omega
      have hlast := lastPosition_le hs
      refine answered_of hs _ _ (min n limit) _ (by rw [hall]) (by rw [hall]; exact hpositive) ?_ ?_
        ?_ ?_
      · intro hnone
        have hmoreFalse : decide (min n limit < all.length) = false := by
          rw [decide_eq_false_iff_not]
          intro hlt
          rw [List.take_eq_nil_iff] at hnone
          rcases hnone with hzero | hnil
          · have := hpositive (List.ne_nil_of_length_pos (by omega))
            omega
          · rw [hnil] at hlt
            cases hlt
        rw [hmoreFalse]
        exact ⟨hle, hlast.1, le_refl _, skippedPosition_last hs⟩
      · intro x hx
        cases hm : decide (min n limit < all.length) with
        | true =>
            left
            rw [if_pos rfl, hx]
            rfl
        | false => exact .inr ⟨if_neg Bool.false_ne_true, rfl⟩
      · intro hm hnone
        rw [decide_eq_true_eq] at hm
        rw [List.take_eq_nil_iff] at hnone
        rcases hnone with hzero | hnil
        · have := hpositive (List.ne_nil_of_length_pos (by omega))
          omega
        · rw [hnil] at hm
          cases hm
      · intro hm
        rw [decide_eq_false_iff_not, not_lt] at hm
        rw [hall]
        exact List.take_of_length_le hm

/-- Rows read within the limit, the page's bytes reached by the last of them if
by any, are the page. -/
theorem exportedPage_eq {bytes : Event → Nat} {pageBytes limit : Nat} {after : Int}
    {rows : List Event} (hsorted : rows.Pairwise fun a b => a.position < b.position)
    (hwithin : rows.length ≤ limit)
    (hlast : ∀ e, fitsAt bytes pageBytes 0 rows = some e → rows.getLast? = some e) :
    exportedPage bytes pageBytes after limit rows =
      { rows
        cursor := (rows.getLast?.map (·.position)).getD after
        more := (fitsAt bytes pageBytes 0 rows).isSome ||
          (decide (limit ≤ rows.length) && decide (0 < limit)) } := by
  have horder : inPositionOrder rows = rows := inPositionOrder_eq (List.Perm.refl _) hsorted
  have hcut : cutAtLimit limit rows = rows := by
    rw [cutAtLimit]
    split
    · exact if_neg fun h => absurd h.1 (not_lt.mpr hwithin)
    · rfl
  have hnone : ∀ e, fitsAt bytes pageBytes 0 rows = some e →
      (rows.any fun f => decide (e.position < f.position)) = false := by
    intro e he
    obtain ⟨first, hfirst⟩ := List.getLast?_eq_some_iff.mp (hlast e he)
    rw [List.any_eq_false]
    intro f hf
    rw [hfirst, List.pairwise_append] at hsorted
    rw [hfirst] at hf
    rcases List.mem_append.mp hf with hf | hf
    · have := hsorted.2.2 f hf e List.mem_cons_self
      simp only [decide_eq_true_eq]
      omega
    · rw [List.mem_singleton.mp hf]
      simp
  unfold exportedPage
  dsimp only
  rw [horder, hcut]
  cases hfits : fitsAt bytes pageBytes 0 rows with
  | none => rfl
  | some e =>
      dsimp only
      rw [hnone e hfits]
      rfl

/-- The rows of the log read for a page are a page of it. -/
theorem exportedRows_of {s : Store} (hs : s.Sound) {bytes : Event → Nat} {pageBytes : Nat}
    {types : Option (List String)} {after : Int} {limit : Nat} (hlimit : 0 < limit)
    (hbytes : 0 < pageBytes) (hzero : 0 ≤ after) (hle : after ≤ s.world.lastPosition)
    (hskipped : s.skippedPosition after = false) {a : Answered}
    (h : (exportedPage bytes pageBytes after limit
      (logRows s.world bytes pageBytes types after limit)).answered after (Mark.ofTypes types) =
        some a) :
    a.Of s ∧ a.after = after ∧ a.selects = Mark.ofTypes types := by
  have hsorted := hs.increasing
  have htypes : s.world.ofTypes types = fun e => Mark.ofTypes types (s.world.mark e) := by
    funext e
    cases hget : s.world.get e.objectId <;> simp [World.ofTypes, Mark.ofTypes, World.mark, hget]
  have hshort : (past Event.position (s.world.ofTypes types) after s.world.stored).length <
      s.world.log.length + 1 := by
    have := List.length_filter_le (fun e => decide (after < e.position) &&
      s.world.ofTypes types e) s.world.stored
    rw [past, World.log, hs.appended, List.append_nil]
    omega
  obtain ⟨n, hread, hto⟩ := logRowsFrom_eq hs.appended hsorted bytes pageBytes types
    (Nat.zero_le limit) (show 0 = bytesOf bytes [] from rfl) hbytes rfl hshort
  obtain ⟨hwithin, hwhole, hlast⟩ := hto
  rw [logRows, hread] at h
  rw [List.nil_append] at h hwithin hwhole hlast
  generalize hall : past Event.position (s.world.ofTypes types) after s.world.stored = all
    at h hwithin hwhole hlast
  have hincreasing : (all.take n).Pairwise fun a b => a.position < b.position := by
    rw [← hall]
    exact (past_increasing hsorted).sublist (List.take_sublist _ _)
  rw [exportedPage_eq hincreasing hwithin hlast] at h
  obtain rfl := Option.some.inj h
  have hnext : ((all.take n).getLast?.map (·.position)).getD after =
      ((all.take n).getLast?.map (·.position)).getD
        (((all.take n).getLast?.map (·.position)).getD after) := by
    cases (all.take n).getLast? <;> rfl
  rw [htypes] at hall
  have hpositive : all ≠ [] → 0 < n := by
    intro hne
    by_contra hzeroRows
    have hn : n = 0 := by omega
    rw [hn, List.take_zero] at hwhole
    rcases hwhole rfl with hreached | hend
    · exact absurd hreached (not_le.mpr hlimit)
    · exact hne hend.symm
  have hpage := answered_of hs after (((all.take n).getLast?.map (·.position)).getD after) n
    ((fitsAt bytes pageBytes 0 (all.take n)).isSome ||
      (decide (limit ≤ (all.take n).length) && decide (0 < limit)))
    (by rw [hall]) (by rw [hall]; exact hpositive) ?_ ?_ ?_ ?_
  · rw [← hnext] at hpage
    exact ⟨hpage, rfl, rfl⟩
  · intro hnone
    rw [hnone]
    exact ⟨le_refl _, hzero, hle, hskipped⟩
  · intro x hx
    left
    rw [hx]
    rfl
  · intro hmore hnone
    rw [hnone] at hmore
    simp [fitsAt, hlimit.ne'] at hmore
  · intro hmore
    rw [Bool.or_eq_false_iff, Option.isSome_eq_false_iff, Option.isNone_iff_eq_none] at hmore
    rw [hall]
    rcases hwhole hmore.1 with hreached | hend
    · rw [decide_eq_true hreached, decide_eq_true hlimit] at hmore
      exact absurd hmore.2 Bool.noConfusion
    · exact hend

/-- **A page exported** is a page of the log. -/
theorem exportPage_of {s : Store} (hs : s.Sound) {bytes : Event → Nat} {pageBytes : Nat}
    (type : Option String) {cursor : Option Int} {limit : Nat} (hlimit : 0 < limit)
    (hbytes : 0 < pageBytes) {a : Answered}
    (h : (s.exportPage bytes pageBytes type cursor limit).answered (cursor.getD 0)
      (Mark.ofTypes (type.map s.world.family)) = some a) :
    a.Of s ∧ a.after = cursor.getD 0 ∧
      a.selects = Mark.ofTypes (type.map s.world.family) := by
  unfold exportPage at h
  dsimp only at h
  split at h
  case isTrue => cases h
  case isFalse hzero =>
    split at h
    case isTrue => cases h
    case isFalse hvalid =>
      rw [not_or, not_lt, Bool.not_eq_true] at hvalid
      cases type with
      | none => exact exportedRows_of hs hlimit hbytes (not_lt.mp hzero) hvalid.1 hvalid.2 h
      | some t =>
          dsimp only at h
          split at h
          case isTrue => cases h
          case isFalse =>
            exact exportedRows_of hs hlimit hbytes (not_lt.mp hzero) hvalid.1 hvalid.2 h

/-- A page a reader asked for is a page of the log, read from its cursor. -/
theorem readPage_of {s : Store} (hs : s.Sound) {feed : Feed} {bytes : Event → Nat}
    {pageBytes limit : Nat} (hasks : feed.Asks pageBytes limit)
    {cursor : Option Int} {a : Answered}
    (h : s.readPage feed bytes pageBytes cursor limit = some a) :
    a.Of s ∧ (∀ c, cursor = some c → a.after = c) ∧ a.selects = s.selection feed := by
  have hgiven : ∀ c, cursor = some c → cursor.getD 0 = c := by
    rintro c rfl
    rfl
  cases feed with
  | subscription id => exact pullPage_of hs hasks.1 h
  | log =>
      obtain ⟨hof, hafter, hselects⟩ := exportPage_of hs none hasks.1 hasks.2 h
      exact ⟨hof, fun c hc => hafter.trans (hgiven c hc), hselects⟩
  | transitions t =>
      obtain ⟨hof, hafter, hselects⟩ := exportPage_of hs (some t) hasks.1 hasks.2 h
      exact ⟨hof, fun c hc => hafter.trans (hgiven c hc), hselects⟩

/-- A page is answered of a feed the store answers, whatever its limit and its
bytes. -/
theorem readPage_isSome (s : Store) (feed : Feed) (bytes : Event → Nat) (pageBytes limit : Nat)
    (cursor : Option Int) :
    (s.readPage feed bytes pageBytes cursor limit).isSome = s.answers feed cursor := by
  have hhands : ∀ c, s.hands c = false ↔
      c < 0 ∨ s.world.lastPosition < c ∨ s.skippedPosition c = true := by
    intro c
    simp only [hands, Bool.and_eq_false_iff, decide_eq_false_iff_not, not_le, Bool.not_eq_false',
      or_assoc]
  have hexport : ∀ type, ((s.exportPage bytes pageBytes type cursor limit).answered
      (cursor.getD 0) (Mark.ofTypes (type.map s.world.family))).isSome =
        (s.hands (cursor.getD 0) && type.all fun t => (s.world.lib.type? t).isSome) := by
    intro type
    unfold exportPage ExportPage.answered
    dsimp only
    cases hvalid : s.hands (cursor.getD 0) with
    | false =>
        rcases (hhands _).mp hvalid with h | h
        · simp [h]
        · simp [h]
    | true =>
        have hin : ¬ (cursor.getD 0 < 0) ∧ ¬ (s.world.lastPosition < cursor.getD 0 ∨
            s.skippedPosition (cursor.getD 0) = true) := by
          rw [← not_or]
          exact fun h => absurd ((hhands _).mpr h) (by simp [hvalid])
        rw [if_neg hin.1, if_neg hin.2]
        cases type with
        | none => rfl
        | some t => cases ht : s.world.lib.type? t <;> simp [ht, exportedPage]
  cases feed with
  | log => exact (hexport none).trans (Bool.and_true _)
  | transitions t => exact hexport (some t)
  | subscription id =>
      unfold readPage answers
      dsimp only
      cases hsub : s.subscription id with
      | error why => rfl
      | ok sub =>
          unfold pullPage pulledFrom
          rw [hsub]
          cases cursor with
          | none => rfl
          | some c =>
              dsimp only
              cases hvalid : s.hands c with
              | false =>
                  rw [if_pos ((hhands c).mp hvalid)]
                  simp [hvalid]
              | true =>
                  rw [if_neg fun h => absurd ((hhands c).mpr h) (by simp [hvalid])]
                  simp [hvalid, Except.isOk, Except.toBool]

/-- A page's position is one the store answers a page after. -/
theorem answers_next {s : Store} {feed : Feed} {cursor : Option Int} {a : Answered}
    (hof : a.Of s) (h : s.answers feed cursor = true) : s.answers feed (some a.next) = true := by
  have hnext : s.hands a.next = true := by
    simp [hands, hof.valid, hof.settles.trans hof.reached]
  cases feed with
  | subscription id =>
      simp only [answers, Bool.and_eq_true] at h ⊢
      exact ⟨h.1, hnext⟩
  | log => exact hnext
  | transitions t =>
      simp only [answers, Bool.and_eq_true] at h ⊢
      exact ⟨hnext, h.2⟩
end Store

end ObjectFlow
