import ObjectFlow.FeedPage

/-!
# A reader of a feed, between requests

A reader keeps the position the last page answered and asks the next page after
it; requests commit between its pages.  Whatever the pages' limits and bytes,
what it has been given is what the feed selects up to the position it keeps, and
it comes to the log's end once it reads on.
-/

namespace ObjectFlow

open Base

/-- What happens to a store one reader reads: a request, or a page read at a
limit and a byte cut of its own. -/
inductive FeedStep where
  | request (now : Int) (attempts : Table String (List Value)) (req : Request)
      (answers : Table String String)
  | read (bytes : Event → Nat) (pageBytes limit : Nat)

/-- The pages a reader asks are asked as they may be. -/
def FeedStep.Asks (feed : Feed) : FeedStep → Prop
  | .request .. => True
  | .read _ pageBytes limit => feed.Asks pageBytes limit

/-- A page asked as it may be. -/
def FeedStep.Reads (feed : Feed) : FeedStep → Prop
  | .request .. => False
  | .read _ pageBytes limit => feed.Asks pageBytes limit

/-- A store and one reader of it: the position it asks after, none before its
first page, and the pages it was answered. -/
structure FeedReader where
  store : Store
  cursor : Option Int
  pages : List Answered := []

namespace FeedReader

/-- The events the reader was given. -/
def given (rd : FeedReader) : List Event := rd.pages.flatMap (·.events)

def step (r : Readers) (feed : Feed) (rd : FeedReader) : FeedStep → FeedReader
  | .request now attempts req answers =>
      { rd with store := rd.store.request r now attempts req answers }
  | .read bytes pageBytes limit =>
      match rd.store.readPage feed bytes pageBytes rd.cursor limit with
      | none => rd
      | some a => { rd with cursor := some a.next, pages := rd.pages ++ [a] }

def run (r : Readers) (feed : Feed) (rd : FeedReader) (steps : List FeedStep) : FeedReader :=
  steps.foldl (step r feed) rd

/-- Where the reader's first page was read from, or the next one will be. -/
def start (rd : FeedReader) : Int := (rd.pages.head?.map (·.after)).getD (rd.cursor.getD 0)

/-- What holds of a reader between two steps: its pages follow one another to
its cursor, each is what the store's log still holds of its stretch, and each
settled position is the log's. -/
structure Reads (rd : FeedReader) : Prop where
  sound : rd.store.Sound
  follow : Follow rd.start (rd.pages.map Answered.stretch) (rd.cursor.getD rd.start)
  asked : rd.pages = [] ∨ rd.cursor.isSome
  rows : ∀ a ∈ rd.pages, a.events.map (·.position) =
    (a.stretch.rows Mark.position rd.store.world.marks).map Mark.position
  reached : ∀ a ∈ rd.pages, a.next ≤ a.settled ∧ a.settled ≤ rd.store.world.lastPosition
  settled : ∀ a ∈ rd.pages, ∀ m ∈ rd.store.world.marks, m.position ≤ a.settled →
    a.selects m = true → m.position ≤ a.next

theorem Reads.start {s : Store} (hs : s.Sound) (cursor : Option Int) :
    Reads { store := s, cursor } where
  sound := hs
  follow := by
    cases cursor <;> rfl
  asked := .inl rfl
  rows := by simp
  reached := by simp
  settled := by simp

/-- A log grown at its end holds of a stretch reached what it held. -/
theorem rows_grown {s s' : Store} (hs : s.Sound) (hgrew : Store.Grew s s') {a : Answered}
    (hreached : a.next ≤ s.world.lastPosition) :
    a.stretch.rows Mark.position s'.world.marks = a.stretch.rows Mark.position s.world.marks := by
  obtain ⟨new, hmarks, hnew⟩ := hgrew.marks
  rw [hmarks]
  refine between_log_append fun m hm => ?_
  have hpast : s.counters.position < m.position := hnew m hm
  have := (Store.lastPosition_le hs).2
  have hupto : a.stretch.upto = a.next := rfl
  omega

theorem lastPosition_grown {s s' : Store} (hs : s.Sound) (hs' : s'.Sound)
    (hgrew : Store.Grew s s') : s.world.lastPosition ≤ s'.world.lastPosition := by
  rcases Store.lastPosition_of hs with hzero | ⟨e, he, heq⟩
  · rw [hzero]
    exact (Store.lastPosition_le hs').1
  · obtain ⟨new, hmarks, -⟩ := hgrew.marks
    have hmem : s.world.mark e ∈ s'.world.marks := by
      rw [hmarks]
      exact List.mem_append_left _ (List.mem_map.mpr ⟨e, he, rfl⟩)
    obtain ⟨e', he', hhead⟩ := Store.mem_marks hmem
    have hle := Store.le_lastPosition hs' he'
    rw [heq]
    have : e.position = e'.position := congrArg Head.position hhead
    omega

/-- A request leaves what a reader was given what its store's log holds. -/
theorem Reads.request {rd : FeedReader} (h : rd.Reads) {s' : Store} (hs' : s'.Sound)
    (hgrew : Store.Grew rd.store s') : Reads { rd with store := s' } where
  sound := hs'
  follow := h.follow
  asked := h.asked
  rows := by
    intro a ha
    obtain ⟨hnext, hlast⟩ := h.reached a ha
    rw [h.rows a ha, rows_grown h.sound hgrew (hnext.trans hlast)]
  reached := by
    intro a ha
    obtain ⟨hnext, hlast⟩ := h.reached a ha
    exact ⟨hnext, hlast.trans (lastPosition_grown h.sound hs' hgrew)⟩
  settled := by
    intro a ha m hm hle hselects
    obtain ⟨new, hmarks, hnew⟩ := hgrew.marks
    have hm' : m ∈ rd.store.world.marks ++ new := hmarks ▸ hm
    rcases List.mem_append.mp hm' with hold | hadded
    · exact h.settled a ha m hold hle hselects
    · -- a new event is past what was settled
      have hpast : rd.store.counters.position < m.position := hnew m hadded
      have := (h.reached a ha).2
      have := (Store.lastPosition_le h.sound).2
      omega

/-- A page follows those before it. -/
theorem Reads.page {rd : FeedReader} (h : rd.Reads) {a : Answered} (ha : a.Of rd.store)
    (hafter : ∀ c, rd.cursor = some c → a.after = c) :
    Reads { rd with cursor := some a.next, pages := rd.pages ++ [a] } where
  sound := h.sound
  follow := by
    rcases h.asked with hnone | hsome
    · show Follow ((rd.pages ++ [a]).head?.map (·.after) |>.getD _) _ _
      rw [hnone]
      exact ⟨rfl, ha.forward, rfl⟩
    · obtain ⟨c, hc⟩ := Option.isSome_iff_exists.mp hsome
      have hstart : FeedReader.start { rd with cursor := some a.next, pages := rd.pages ++ [a] } =
          rd.start := by
        unfold FeedReader.start
        cases hpages : rd.pages with
        | nil =>
            rw [hc]
            exact hafter c hc
        | cons b rest => rfl
      have hfollow := h.follow
      rw [hc] at hfollow
      rw [hstart]
      show Follow rd.start ((rd.pages ++ [a]).map Answered.stretch) a.next
      rw [List.map_append]
      exact hfollow.snoc (s := a.stretch) (hafter c hc) (hafter c hc ▸ ha.forward)
  asked := .inr rfl
  rows := by
    intro b hb
    rcases List.mem_append.mp hb with hb | hb
    · exact h.rows b hb
    · rw [List.mem_singleton.mp hb]
      exact ha.rows
  reached := by
    intro b hb
    rcases List.mem_append.mp hb with hb | hb
    · exact h.reached b hb
    · rw [List.mem_singleton.mp hb]
      exact ⟨ha.settles, ha.reached⟩
  settled := by
    intro b hb
    rcases List.mem_append.mp hb with hb | hb
    · exact h.settled b hb
    · rw [List.mem_singleton.mp hb]
      exact ha.settled

/-- **One step** keeps what holds of a reader. -/
theorem Reads.step {rd : FeedReader} (h : rd.Reads) (r : Readers) {feed : Feed} {st : FeedStep}
    (hasks : st.Asks feed) : (rd.step r feed st).Reads := by
  cases st with
  | request now attempts req answers =>
      obtain ⟨hsound, hgrew⟩ := h.sound.request r now attempts req answers
      exact h.request hsound hgrew
  | read bytes pageBytes limit =>
      rw [FeedReader.step]
      cases hread : rd.store.readPage feed bytes pageBytes rd.cursor limit with
      | none => exact h
      | some a =>
          obtain ⟨hof, hafter, -⟩ := Store.readPage_of h.sound hasks hread
          exact h.page hof hafter

/-- **A run** keeps what holds of a reader. -/
theorem Reads.run {rd : FeedReader} (h : rd.Reads) (r : Readers) {feed : Feed}
    {steps : List FeedStep} (hasks : ∀ st ∈ steps, st.Asks feed) : (rd.run r feed steps).Reads := by
  induction steps generalizing rd with
  | nil => exact h
  | cons st rest ih =>
      exact ih (h.step r (hasks st List.mem_cons_self)) fun st' hst' =>
        hasks st' (List.mem_cons_of_mem _ hst')

/-! ### What a reader was given -/

/-- The positions of the events a reader was given. -/
def positions (rd : FeedReader) : List Int := rd.given.map (·.position)

/-- The events a reader was given are what its pages' stretches select of its
store's log. -/
theorem Reads.positions_eq {rd : FeedReader} (h : rd.Reads) : rd.positions =
    (delivered Mark.position (rd.pages.map Answered.stretch) rd.store.world.marks).map
      Mark.position := by
  have hrows := h.rows
  rw [positions, given, delivered, List.flatMap_map]
  generalize rd.pages = pages at hrows
  induction pages with
  | nil => rfl
  | cons a rest ih =>
      have ih := ih fun b hb => hrows b (List.mem_cons_of_mem _ hb)
      rw [List.flatMap_cons, List.flatMap_cons, List.map_append, List.map_append, ih,
        hrows a List.mem_cons_self]

/-- What a feed owes its reader: the events given stand in order, each once;
they are those each page's filter selects of the positions it covers, and the
pages cover every position from the first page's to the reader's; none settled
is still to come; and a filter that stays the same is given whole. -/
structure Served (rd : FeedReader) : Prop where
  inOrder : rd.positions.Pairwise (· < ·)
  covered : ∀ p, rd.start < p → p ≤ rd.cursor.getD rd.start →
    ∃ a ∈ rd.pages, a.after < p ∧ p ≤ a.next
  exact : ∀ p, p ∈ rd.positions ↔ ∃ m ∈ rd.store.world.marks, m.position = p ∧
    ∃ a ∈ rd.pages, a.after < p ∧ p ≤ a.next ∧ a.selects m = true
  settled : ∀ before a rest, rd.pages = before ++ a :: rest →
    ∀ m ∈ rd.store.world.marks, m.position ≤ a.settled → a.selects m = true →
      (a.after < m.position → m.position ∈ a.events.map (·.position)) ∧
        ∀ b ∈ rest, ∀ e ∈ b.events, m.position < e.position
  whole : ∀ selects : Mark → Bool,
    (∀ a ∈ rd.pages, ∀ m ∈ rd.store.world.marks, a.selects m = selects m) →
      rd.positions = (between Mark.position selects rd.start (rd.cursor.getD rd.start)
        rd.store.world.marks).map Mark.position

theorem Reads.served {rd : FeedReader} (h : rd.Reads) : rd.Served where
  inOrder := by
    rw [h.positions_eq, List.pairwise_map]
    exact h.follow.increasing h.sound.ordered
  covered := by
    intro p hstart hfinish
    obtain ⟨t, ht, hcovers⟩ := h.follow.covers hstart hfinish
    obtain ⟨a, ha, rfl⟩ := List.mem_map.mp ht
    exact ⟨a, ha, hcovers⟩
  exact := by
    intro p
    rw [h.positions_eq, List.mem_map]
    constructor
    · rintro ⟨m, hm, rfl⟩
      obtain ⟨hm, t, ht, hcovers⟩ := mem_delivered.mp hm
      obtain ⟨a, ha, rfl⟩ := List.mem_map.mp ht
      exact ⟨m, hm, rfl, a, ha, hcovers⟩
    · rintro ⟨m, hm, rfl, a, ha, hcovers⟩
      exact ⟨m, mem_delivered.mpr ⟨hm, a.stretch, List.mem_map_of_mem ha, hcovers⟩, rfl⟩
  settled := by
    intro before a rest hpages m hm hle hselects
    have ha : a ∈ rd.pages := hpages ▸ List.mem_append_right _ List.mem_cons_self
    have hnext := h.settled a ha m hm hle hselects
    constructor
    · intro hafter
      rw [h.rows a ha]
      exact List.mem_map_of_mem (mem_between.mpr ⟨hm, hafter, hnext, hselects⟩)
    · intro b hb e he
      have hbpages : b ∈ rd.pages :=
        hpages ▸ List.mem_append_right _ (List.mem_cons_of_mem _ hb)
      -- a later page is read from where this one ended, or past it
      have hfollow := h.follow
      rw [hpages, List.map_append] at hfollow
      obtain ⟨middle, -, hrest⟩ := hfollow.split
      have hafter : a.next ≤ b.after :=
        (hrest.2.2.mem_bounds (s := b.stretch) (List.mem_map_of_mem hb)).1
      have hmem : e.position ∈ b.events.map (·.position) := List.mem_map_of_mem he
      rw [h.rows b hbpages, List.mem_map] at hmem
      obtain ⟨m', hm', hposition⟩ := hmem
      have : b.after < m'.position := (mem_between.mp hm').2.1
      omega
  whole := by
    intro selects hsame
    rw [h.positions_eq]
    refine congrArg (List.map Mark.position) (h.follow.delivered_eq h.sound.ordered ?_)
    intro t ht m hm
    obtain ⟨a, ha, rfl⟩ := List.mem_map.mp ht
    exact hsame a ha m hm

/-! ### Coming to the log's end -/

/-- How many events a feed may still give its reader. -/
def left (feed : Feed) (rd : FeedReader) : Nat :=
  match rd.cursor with
  | none => rd.store.world.marks.length
  | some c => (past Mark.position (rd.store.selection feed) c rd.store.world.marks).length

/-- A page leaves fewer events to come, or none. -/
theorem left_page (feed : Feed) {rd : FeedReader} {a : Answered} (hof : a.Of rd.store)
    (hafter : ∀ c, rd.cursor = some c → a.after = c)
    (hselects : a.selects = rd.store.selection feed) :
    left feed { rd with cursor := some a.next, pages := rd.pages ++ [a] } = 0 ∨
      left feed { rd with cursor := some a.next, pages := rd.pages ++ [a] } < left feed rd := by
  have hleft : (past Mark.position (rd.store.selection feed) a.after
      rd.store.world.marks).length ≤ left feed rd := by
    unfold left
    cases hcursor : rd.cursor with
    | none => exact List.length_filter_le _ _
    | some c => exact hafter c hcursor ▸ le_refl _
  cases hmore : a.more with
  | false =>
      left
      rw [left, List.length_eq_zero_iff, past, List.filter_eq_nil_iff]
      intro m hm hpast
      rw [Bool.and_eq_true, decide_eq_true_eq, ← hselects] at hpast
      have := hof.whole hmore m hm hpast.2
      omega
  | true =>
      right
      obtain ⟨m, hm, hpast, hupto, hselected⟩ := hof.more hmore
      refine lt_of_lt_of_le ?_ hleft
      exact past_length_lt hm hpast hupto (hselects ▸ hselected)

/-- **A reader that reads on** comes to the end of what its feed selects: asked
more pages than it may still be given events, it has passed each. -/
theorem Reads.reads_on {rd : FeedReader} (h : rd.Reads) (r : Readers) {feed : Feed}
    (hanswers : rd.store.answers feed rd.cursor = true) {reads : List FeedStep}
    (hreads : ∀ st ∈ reads, st.Reads feed) (hmany : left feed rd < reads.length) :
    (rd.run r feed reads).store = rd.store ∧
      (rd.run r feed reads).pages.length = rd.pages.length + reads.length ∧
        ∃ c, (rd.run r feed reads).cursor = some c ∧
          ∀ m ∈ rd.store.world.marks, rd.store.selection feed m = true → m.position ≤ c := by
  induction reads generalizing rd with
  | nil => exact absurd hmany (Nat.not_lt_zero _)
  | cons st rest ih =>
      have hst := hreads st List.mem_cons_self
      cases st with
      | request now attempts req answers => exact absurd hst id
      | read bytes pageBytes limit =>
          obtain ⟨a, ha⟩ := Option.isSome_iff_exists.mp
            ((Store.readPage_isSome rd.store feed bytes pageBytes limit rd.cursor).trans hanswers)
          obtain ⟨hof, hafter, hselects⟩ := Store.readPage_of h.sound hst ha
          have hstep : rd.step r feed (.read bytes pageBytes limit) =
              { rd with cursor := some a.next, pages := rd.pages ++ [a] } := by
            rw [FeedReader.step, ha]
          have hpage := h.page hof hafter
          have hleft := left_page feed hof hafter hselects
          rw [FeedReader.run, List.foldl_cons, hstep]
          cases rest with
          | nil =>
              refine ⟨rfl, by simp, a.next, rfl, ?_⟩
              have hnone : left feed { rd with cursor := some a.next, pages := rd.pages ++ [a] } =
                  0 := by
                rw [List.length_singleton] at hmany
                omega
              rw [left, List.length_eq_zero_iff, past, List.filter_eq_nil_iff] at hnone
              intro m hm hselected
              have := hnone m hm
              simp only [Bool.and_eq_true, decide_eq_true_eq, not_and] at this
              by_contra hpast
              exact this (not_le.mp hpast) hselected
          | cons st' rest' =>
              rw [List.length_cons] at hmany
              obtain ⟨hstore, hpages, hall⟩ := ih hpage (Store.answers_next hof hanswers)
                (fun t ht => hreads t (List.mem_cons_of_mem _ ht)) (by
                  rw [List.length_cons] at hmany ⊢
                  omega)
              refine ⟨hstore, ?_, hall⟩
              rw [FeedReader.run] at hpages
              have hlength : (rd.pages ++ [a]).length = rd.pages.length + 1 := by simp
              rw [hpages]
              show (rd.pages ++ [a]).length + (st' :: rest').length =
                rd.pages.length + ((st' :: rest').length + 1)
              omega

/-- Once its cursor is given, a reader's pages are read from it. -/
theorem Reads.start_step {rd : FeedReader} (h : rd.Reads) (r : Readers) {feed : Feed}
    {st : FeedStep} (hasks : st.Asks feed) (hcursor : rd.cursor.isSome) :
    (rd.step r feed st).start = rd.start ∧ (rd.step r feed st).cursor.isSome := by
  cases st with
  | request now attempts req answers => exact ⟨rfl, hcursor⟩
  | read bytes pageBytes limit =>
      rw [FeedReader.step]
      cases hread : rd.store.readPage feed bytes pageBytes rd.cursor limit with
      | none => exact ⟨rfl, hcursor⟩
      | some a =>
          obtain ⟨-, hafter, -⟩ := Store.readPage_of h.sound hasks hread
          refine ⟨?_, rfl⟩
          unfold FeedReader.start
          cases hpages : rd.pages with
          | nil =>
              obtain ⟨c, hc⟩ := Option.isSome_iff_exists.mp hcursor
              rw [hc]
              exact hafter c hc
          | cons b rest => rfl

theorem Reads.start_run {rd : FeedReader} (h : rd.Reads) (r : Readers) {feed : Feed}
    {steps : List FeedStep} (hasks : ∀ st ∈ steps, st.Asks feed) (hcursor : rd.cursor.isSome) :
    (rd.run r feed steps).start = rd.start := by
  induction steps generalizing rd with
  | nil => rfl
  | cons st rest ih =>
      have hst := hasks st List.mem_cons_self
      obtain ⟨hstart, hsome⟩ := h.start_step r hst hcursor
      rw [← hstart]
      exact ih (h.step r hst) (fun st' hst' => hasks st' (List.mem_cons_of_mem _ hst')) hsome

end FeedReader

/-- **Each event selected, once.**  A reader of a feed, whatever requests commit
between its pages and whatever each page's limit and bytes, is served: from the
position it began at, in order, each event its pages' filter selects, and none
that was settled later.  Asked on, it comes to the end of the log. -/
theorem feeds_deliver_once (r : Readers) (feed : Feed) (s : Store) (hs : s.Sound)
    (cursor : Option Int) (steps : List FeedStep) (hasks : ∀ st ∈ steps, st.Asks feed)
    (rd : FeedReader) (hrd : rd = FeedReader.run r feed { store := s, cursor } steps) :
    rd.Served ∧ (∀ c, cursor = some c → rd.start = c) ∧
      (rd.store.answers feed rd.cursor = true →
        ∀ reads : List FeedStep, (∀ st ∈ reads, st.Reads feed) →
          rd.store.world.marks.length < reads.length →
            (rd.run r feed reads).Served ∧ (rd.run r feed reads).store = rd.store ∧
              ∃ c, (rd.run r feed reads).cursor = some c ∧
                ∀ m ∈ rd.store.world.marks, rd.store.selection feed m = true →
                  m.position ≤ c) := by
  have hbegun := FeedReader.Reads.start hs cursor
  have hreads : rd.Reads := hrd ▸ hbegun.run r hasks
  refine ⟨hreads.served, ?_, ?_⟩
  · rintro c rfl
    rw [hrd, hbegun.start_run r hasks rfl]
    rfl
  · intro hanswers reads hread hmany
    have hasked : ∀ st ∈ reads, st.Asks feed := by
      intro st hst
      have := hread st hst
      cases st with
      | request now attempts req answers => trivial
      | read bytes pageBytes limit => exact this
    have hleft : FeedReader.left feed rd < reads.length := by
      refine lt_of_le_of_lt ?_ hmany
      unfold FeedReader.left
      split
      · exact le_refl _
      · exact List.length_filter_le _ _
    obtain ⟨hstore, -, hall⟩ := hreads.reads_on r hanswers hread hleft
    exact ⟨(hreads.run r hasked).served, hstore, hall⟩

/-! ### A subscription to notes -/

namespace Notes

/-- A note, tagged as often as asked. -/
def note : FlowType where
  name := "Note"
  states := [("OPEN", {})]
  transitions := [("tag", { kind := .external, fromStates := some (.states ["OPEN"])
                            toStates := ["OPEN"] })]

def event (position seq : Int) (objectId transition : String) (changesState : Bool) : Event where
  position := position
  objectId := objectId
  objectSeq := seq
  transition := transition
  fromState := if changesState then none else some "OPEN"
  toState := "OPEN"
  changesState := changesState
  source := "observed"
  actorId := numberedId "person" 2
  actorKind := "human"

/-- A note made, subscribed to and tagged. -/
def store : Store where
  world :=
    { lib := { types := [("Note", note), ("Person", CallingBack.person),
        (SUBSCRIPTION, { name := SUBSCRIPTION, states := [("ACTIVE", {})] })] }
      objects := [(numberedId "note" 1, { id := numberedId "note" 1, type := "Note", state := "OPEN"
                                          version := 2 }),
        (numberedId "person" 2, { id := numberedId "person" 2, type := "Person", state := "ACTIVE"
                                  attrs := [("identity", .text "ann")] }),
        (numberedId "subscription" 3, { id := numberedId "subscription" 3, type := SUBSCRIPTION
                                        state := "ACTIVE"
                                        attrs := [("target_type", .text "Note")] })]
      stored := [event 1 1 (numberedId "note" 1) "make" true,
        event 2 1 (numberedId "subscription" 3) "subscribe" true,
        event 3 2 (numberedId "note" 1) "tag" false] }
  counters :=
    { position := 3, object := 3, numbers := { sequences := [], drawn := [], floor := 0 }
      mintId := numberedId, distinct := numberedId_distinct }

theorem sound : store.Sound where
  opens := by
    refine ⟨?_, ?_, rfl⟩
    · intro id o h
      simp only [World.get, store, Table.get?] at h
      repeat' split at h
      all_goals first
        | (cases h; assumption)
        | cases h
    · intro type n hn
      have hpast : 3 < n := hn
      have hnew : ∀ kind k, k ≤ 3 → numberedId kind k ≠ numberedId type n := by
        intro kind k hk heq
        have := numberedId_distinct kind type k n heq
        omega
      show (if numberedId "note" 1 = numberedId type n then _ else
        if numberedId "person" 2 = numberedId type n then _ else
          if numberedId "subscription" 3 = numberedId type n then _ else none) = none
      rw [if_neg (hnew _ 1 (by omega)), if_neg (hnew _ 2 (by omega)), if_neg (hnew _ 3 (by omega))]
  appended := rfl
  ordered := by decide +kernel
  positive := by decide +kernel
  bounded := by decide +kernel
  started := by decide
  held := by decide +kernel
  restored := by simp [store]
  acknowledged := by simp [store]

/-- A page, a request that tags the note, and a page of what is left. -/
def steps : List FeedStep :=
  [.read (fun _ => 1) 100 1,
    .request 5 [] { transition := "tag", actor := "ann", objectId := some (numberedId "note" 1) } [],
    .read (fun _ => 1) 100 5]

end Notes

/-- A subscription read from the log's start: the note made, then tagged twice,
the second time between the pages. -/
theorem feeds_deliver_once_notes :
    let rd := FeedReader.run CallingBack.readers (.subscription (numberedId "subscription" 3))
      { store := Notes.store, cursor := some 0 } Notes.steps
    rd.Served ∧ rd.positions = [1, 3, 4] ∧ rd.pages.map (·.settled) = [1, 4] := by
  refine ⟨?_, by decide +kernel, by decide +kernel⟩
  exact (feeds_deliver_once CallingBack.readers (.subscription (numberedId "subscription" 3))
    Notes.store Notes.sound (some 0) Notes.steps (by
      intro st hst
      simp only [Notes.steps, List.mem_cons, List.not_mem_nil, or_false] at hst
      rcases hst with rfl | rfl | rfl
      · exact ⟨Nat.one_pos, trivial⟩
      · trivial
      · exact ⟨by decide, trivial⟩) _ rfl).1

end ObjectFlow
