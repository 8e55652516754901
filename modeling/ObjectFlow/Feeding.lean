import ObjectFlow.Base.Feed
import ObjectFlow.Commit

/-!
# Reading a feed

A page of a feed is a stretch of the log: what the feed selects past the
position asked, up to the position answered.  A reader that asks each page after
the position the page before answered is given what the feed selects, each event
once and in order, whatever requests commit between the pages.
-/

namespace ObjectFlow

open Base

/-- A mark's place in the log. -/
def Mark.position (m : Mark) : Int := m.head.position

/-! ### The log read a chunk at a time -/

/-- Whether an event is of an object of one of the types, or of any. -/
def World.ofTypes (w : World) (types : Option (List String)) (e : Event) : Bool :=
  types.all fun ts => (w.get e.objectId).any fun o => ts.contains o.type

theorem logAfter_eq {w : World} (happended : w.appended = []) (after : Int)
    (types : Option (List String)) (limit : Nat) :
    w.logAfter after types limit =
      (past Event.position (w.ofTypes types) after w.stored).take limit := by
  rw [World.logAfter, World.log, happended, List.append_nil]
  rfl

/-- An event of a log in order is the one at its position. -/
theorem eventAt_self {w : World} (happended : w.appended = [])
    (hsorted : w.stored.Pairwise fun a b => a.position < b.position) {e : Event}
    (he : e ∈ w.stored) : w.eventAt e.position = some e := by
  rw [World.eventAt, World.log, happended, List.append_nil]
  obtain ⟨before, rest, hsplit⟩ := List.append_of_mem he
  rw [hsplit, List.pairwise_append] at hsorted
  rw [hsplit, List.find?_append]
  have hnone : before.find? (fun f => decide (f.position = e.position)) = none := by
    rw [List.find?_eq_none]
    intro f hf
    have := hsorted.2.2 f hf e List.mem_cons_self
    simp only [decide_eq_true_eq]
    omega
  rw [hnone, Option.none_or, List.find?_cons_of_pos (by simp)]

/-! ### Pulling a page -/

theorem pushSelected_eq (sub : Object) {limit : Nat} {out : List Head} (hout : out.length < limit)
    (page : List Head) :
    pushSelected sub limit out page = (out ++ page.filter (selects sub)).take limit := by
  induction page generalizing out with
  | nil => simp [pushSelected, List.take_of_length_le hout.le]
  | cons h rest ih =>
      rw [pushSelected]
      cases hs : selects sub h with
      | false =>
          rw [if_neg (by simp), ih hout, List.filter_cons_of_neg (by simp [hs])]
      | true =>
          rw [if_pos rfl, List.filter_cons_of_pos hs]
          split
          case isTrue hfull =>
            have hlen : (out ++ [h]).length = limit := by
              rw [List.length_append] at hfull ⊢
              simp only [List.length_singleton] at hfull ⊢
              omega
            rw [List.append_cons out h (rest.filter _), List.take_append_of_le_length hlen.ge,
              List.take_of_length_le hlen.le]
          case isFalse hroom =>
            rw [ih (not_le.mp hroom), List.append_assoc, List.singleton_append]

/-- The chunks of the log, read one after another, select what the log read
whole does. -/
theorem selectedFrom_eq {w : World} (happended : w.appended = [])
    (hsorted : w.stored.Pairwise fun a b => a.position < b.position) (sub : Object)
    (types : List String) {limit chunk fuel : Nat} (hchunk : 0 < chunk) {at' : Int}
    {out : List Head} (hout : out.length < limit)
    (hfuel : (past Event.position (w.ofTypes (some types)) at' w.stored).length < fuel) :
    selectedFrom w sub types limit chunk fuel at' out =
      (out ++ ((past Event.position (w.ofTypes (some types)) at' w.stored).map Event.head).filter
        (selects sub)).take limit := by
  induction fuel generalizing at' out with
  | zero => omega
  | succ fuel ih =>
      rw [selectedFrom, World.logHeadsAfter, logAfter_eq happended, pushSelected_eq sub hout]
      generalize hall : past Event.position (w.ofTypes (some types)) at' w.stored = all at hfuel ⊢
      have hsplit : (all.map Event.head).filter (selects sub) =
          ((all.take chunk).map Event.head).filter (selects sub) ++
            ((all.drop chunk).map Event.head).filter (selects sub) := by
        rw [← List.filter_append, ← List.map_append, List.take_append_drop]
      rw [hsplit, ← List.append_assoc]
      generalize hread : out ++ ((all.take chunk).map Event.head).filter (selects sub) = read
      by_cases hfull : limit ≤ (read.take limit).length
      · rw [if_pos hfull]
        rw [List.length_take] at hfull
        rw [List.take_append_of_le_length (by omega)]
      · rw [if_neg hfull]
        rw [List.length_take] at hfull
        have hread_len : read.length < limit := by omega
        have htake : read.take limit = read := List.take_of_length_le hread_len.le
        by_cases hdone : ((all.take chunk).map Event.head).length < chunk
        · rw [if_pos hdone]
          have hall_len : all.length ≤ chunk := by
            simp only [List.length_map, List.length_take] at hdone
            omega
          rw [List.drop_of_length_le hall_len, List.map_nil, List.filter_nil, List.append_nil]
        · rw [if_neg hdone, htake]
          have hlen : chunk ≤ all.length := by
            simp only [List.length_map, List.length_take] at hdone
            omega
          -- the last of the chunk is where the next is read from
          have hne : all.take chunk ≠ [] := by
            intro hnil
            have := congrArg List.length hnil
            simp only [List.length_take, List.length_nil] at this
            omega
          obtain ⟨x, hx⟩ : ∃ x, (all.take chunk).getLast? = some x :=
            ⟨_, List.getLast?_eq_some_getLast hne⟩
          have hnext : ((((all.take chunk).map Event.head).getLast?.map Head.position).getD at') =
              x.position := by
            rw [List.getLast?_map, hx]
            rfl
          have hrest : past Event.position (w.ofTypes (some types)) x.position w.stored =
              all.drop chunk := by
            rw [← hall] at hx ⊢
            exact (drop_past hsorted hx).symm
          rw [hnext, ih hread_len (by rw [hrest, List.length_drop]; omega), hrest]

/-- What a subscription selects. -/
def World.chosen (w : World) (sub : Object) (m : Mark) : Bool :=
  m.type.any (typesOf w sub).contains && selects sub m.head

theorem selected_eq {w : World} (happended : w.appended = [])
    (hsorted : w.stored.Pairwise fun a b => a.position < b.position) (sub : Object) (after : Int)
    (limit : Nat) : selected w sub after limit =
      ((past Event.position (fun e => w.chosen sub (w.mark e)) after w.stored).take limit).map
        Event.head := by
  have hchosen : ∀ types, typesOf w sub = types →
      past Event.position (fun e => w.chosen sub (w.mark e)) after w.stored =
        (past Event.position (w.ofTypes (some types)) after w.stored).filter
          fun e => selects sub e.head := by
    intro types htypes
    rw [past, past, List.filter_filter]
    refine List.filter_congr fun e _ => ?_
    have hmark : w.chosen sub (w.mark e) =
        (w.ofTypes (some types) e && selects sub e.head) := by
      rw [World.chosen, htypes, World.ofTypes]
      cases hget : w.get e.objectId <;> simp [World.mark, hget]
    rw [hmark, Bool.and_comm (selects sub e.head), Bool.and_assoc]
  unfold selected
  dsimp only
  cases htypes : typesOf w sub with
  | nil =>
      have hnone : past Event.position (fun e => w.chosen sub (w.mark e)) after w.stored = [] := by
        rw [past, List.filter_eq_nil_iff]
        intro e _
        cases hget : w.get e.objectId <;> simp [World.chosen, htypes, World.mark, hget]
      simp [hnone]
  | cons t rest =>
      rw [hchosen _ htypes]
      by_cases hlimit : limit = 0
      · simp [hlimit]
      · rw [if_neg (by simp [hlimit]), selectedFrom_eq happended hsorted sub (t :: rest)
          (by omega) (by simpa using Nat.pos_of_ne_zero hlimit), List.nil_append, List.filter_map,
          List.map_take]
        · rfl
        · have := List.length_filter_le (fun e => decide (after < e.position) &&
            w.ofTypes (some (t :: rest)) e) w.stored
          rw [past, World.log, happended, List.append_nil]
          omega

/-- A page's events, read from their heads: as many as come to its bytes. -/
theorem pageEvents_eq {w : World} (bytes : Event → Nat) (pageBytes : Nat) {events : List Event}
    (hheld : ∀ e ∈ events, w.eventAt e.position = some e) (used : Nat) :
    ∃ n, (events ≠ [] → 0 < n) ∧ n ≤ events.length ∧
      pageEvents w bytes pageBytes used (events.map Event.head) =
        (events.take n, decide (n < events.length)) := by
  induction events generalizing used with
  | nil => exact ⟨0, by simp, le_refl _, rfl⟩
  | cons e rest ih =>
      have hread : w.eventAt (e.head).position = some e := hheld e List.mem_cons_self
      rw [List.map_cons, pageEvents, hread]
      dsimp only
      by_cases hcut : pageBytes ≤ used + bytes e ∧ rest.map Event.head ≠ []
      · refine ⟨1, fun _ => Nat.one_pos, by simp, ?_⟩
        have hrest : 0 < rest.length := by
          rw [List.length_pos_iff]
          intro hnil
          exact hcut.2 (by rw [hnil]; rfl)
        rw [if_pos hcut]
        simp [hrest]
      · rw [if_neg hcut]
        obtain ⟨n, -, hle, heq⟩ := ih (fun f hf => hheld f (List.mem_cons_of_mem _ hf))
          (used + bytes e)
        refine ⟨n + 1, fun _ => Nat.succ_pos n, by simpa using hle, ?_⟩
        rw [heq]
        simp

/-! ### Exporting a page -/

/-- What rows come to. -/
def bytesOf (bytes : Event → Nat) (rows : List Event) : Nat := (rows.map bytes).sum

theorem fitsAt_append (bytes : Event → Nat) (pageBytes used : Nat) (first rest : List Event) :
    fitsAt bytes pageBytes used (first ++ rest) =
      (fitsAt bytes pageBytes used first).or
        (fitsAt bytes pageBytes (used + bytesOf bytes first) rest) := by
  induction first generalizing used with
  | nil => rfl
  | cons e more ih =>
      rw [List.cons_append, fitsAt, fitsAt]
      split
      case isTrue => rfl
      case isFalse =>
        rw [ih, bytesOf, bytesOf, List.map_cons, List.sum_cons, Nat.add_assoc]

/-- Rows that do not come to a page's bytes. -/
theorem bytesOf_lt {bytes : Event → Nat} {pageBytes used : Nat} {rows : List Event}
    (hused : used < pageBytes) (h : fitsAt bytes pageBytes used rows = none) :
    used + bytesOf bytes rows < pageBytes := by
  induction rows generalizing used with
  | nil => simpa [bytesOf] using hused
  | cons e rest ih =>
      rw [fitsAt] at h
      split at h
      case isTrue => cases h
      case isFalse hroom =>
        have := ih (not_le.mp hroom) h
        rw [bytesOf] at this ⊢
        rw [List.map_cons, List.sum_cons]
        omega

/-- Events read to a page's bytes: all of them, or up to the one that comes to
them. -/
theorem upToBytes_eq (bytes : Event → Nat) (pageBytes used : Nat) (page : List Event) :
    ∃ n, upToBytes bytes pageBytes used page =
        (page.take n, used + bytesOf bytes (page.take n)) ∧
      fitsAt bytes pageBytes used (page.take n) = fitsAt bytes pageBytes used page ∧
      (fitsAt bytes pageBytes used page = none → page.take n = page) ∧
      ∀ e, fitsAt bytes pageBytes used page = some e →
        (page.take n).getLast? = some e ∧ pageBytes ≤ used + bytesOf bytes (page.take n) := by
  induction page generalizing used with
  | nil => exact ⟨0, rfl, rfl, fun _ => rfl, by simp [fitsAt]⟩
  | cons e rest ih =>
      by_cases hfull : pageBytes ≤ used + bytes e
      · refine ⟨1, ?_, ?_, ?_, ?_⟩
        · rw [upToBytes, if_pos hfull]
          simp [bytesOf]
        · simp [fitsAt, hfull]
        · simp [fitsAt, hfull]
        · intro f hf
          rw [fitsAt, if_pos hfull] at hf
          cases hf
          simpa [bytesOf] using hfull
      · obtain ⟨n, hread, hfits, hall, hlast⟩ := ih (used + bytes e)
        refine ⟨n + 1, ?_, ?_, ?_, ?_⟩
        · rw [upToBytes, if_neg hfull, hread]
          simp [bytesOf, Nat.add_assoc]
        · rw [List.take_succ_cons, fitsAt, fitsAt, if_neg hfull, if_neg hfull, hfits]
        · intro hnone
          rw [fitsAt, if_neg hfull] at hnone
          rw [List.take_succ_cons, hall hnone]
        · intro f hf
          rw [fitsAt, if_neg hfull] at hf
          obtain ⟨hget, hbytes⟩ := hlast f hf
          rw [List.take_succ_cons]
          refine ⟨?_, ?_⟩
          · rw [List.getLast?_cons, hget]
            rfl
          · rw [bytesOf] at hbytes ⊢
            rw [List.map_cons, List.sum_cons]
            omega

/-- Rows read so far and the first of those left: within the limit, and short of
it and of the page's bytes only where none is left. -/
structure ReadTo (bytes : Event → Nat) (pageBytes limit : Nat) (before all : List Event) (n : Nat) :
    Prop where
  within : (before ++ all.take n).length ≤ limit
  whole : fitsAt bytes pageBytes 0 (before ++ all.take n) = none →
    limit ≤ (before ++ all.take n).length ∨ all.take n = all
  last : ∀ e, fitsAt bytes pageBytes 0 (before ++ all.take n) = some e →
    (before ++ all.take n).getLast? = some e

/-- The rows of the log read a few at a time: the first of those past the
position, ending at the limit, at the page's bytes or with the log. -/
theorem logRowsFrom_eq {w : World} (happended : w.appended = [])
    (hsorted : w.stored.Pairwise fun a b => a.position < b.position) (bytes : Event → Nat)
    (pageBytes : Nat) (types : Option (List String)) {limit fuel used : Nat} {at' : Int}
    {rows : List Event} (hrows : rows.length ≤ limit) (hused : used = bytesOf bytes rows)
    (hroom : used < pageBytes) (hfits : fitsAt bytes pageBytes 0 rows = none)
    (hfuel : (past Event.position (w.ofTypes types) at' w.stored).length < fuel) :
    ∃ n, logRowsFrom w bytes pageBytes types limit fuel at' used rows =
        rows ++ (past Event.position (w.ofTypes types) at' w.stored).take n ∧
      ReadTo bytes pageBytes limit rows (past Event.position (w.ofTypes types) at' w.stored) n := by
  induction fuel generalizing at' used rows with
  | zero => omega
  | succ fuel ih =>
      generalize hall : past Event.position (w.ofTypes types) at' w.stored = all at hfuel ⊢
      by_cases hlimit : rows.length < limit
      case neg =>
        refine ⟨0, ?_, by simpa using hrows, fun _ => .inl (by simpa using hlimit), ?_⟩
        · rw [logRowsFrom, if_neg (by omega), List.take_zero, List.append_nil]
        · intro e he
          rw [List.take_zero, List.append_nil, hfits] at he
          cases he
      case pos =>
        rw [logRowsFrom, if_pos ⟨hlimit, hroom⟩]
        dsimp only
        rw [logAfter_eq happended, hall]
        generalize hmost : min ROWS_CHUNK (limit - rows.length) = most
        have hpositive : 0 < most := by
          rw [← hmost, ROWS_CHUNK]
          omega
        have hwithin : rows.length + most ≤ limit := by omega
        obtain ⟨n, hread, hfitsTo, hwhole, hlast⟩ :=
          upToBytes_eq bytes pageBytes used (all.take most)
        rw [hread]
        dsimp only
        have htake : (all.take most).take n = all.take (min n most) := by
          rw [List.take_take]
        rw [htake] at hfitsTo hwhole hlast ⊢
        have hlen : (rows ++ all.take (min n most)).length ≤ limit := by
          rw [List.length_append, List.length_take]
          omega
        have hfitsAll : fitsAt bytes pageBytes 0 (rows ++ all.take (min n most)) =
            fitsAt bytes pageBytes used (all.take most) := by
          rw [fitsAt_append, hfits, Option.none_or, Nat.zero_add, ← hused, hfitsTo]
        cases hcut : fitsAt bytes pageBytes used (all.take most) with
        | some e =>
            -- the page's bytes are reached: nothing more is read
            obtain ⟨hget, hfull⟩ := hlast e hcut
            refine ⟨min n most, ?_, hlen, ?_, ?_⟩
            · split
              · rfl
              · cases fuel with
                | zero => rfl
                | succ fuel =>
                    rw [logRowsFrom, if_neg]
                    rintro ⟨-, hlt⟩
                    omega
            · intro hnone
              rw [hfitsAll, hcut] at hnone
              cases hnone
            · intro f hf
              rw [hfitsAll, hcut] at hf
              cases hf
              rw [List.getLast?_append, hget]
              rfl
        | none =>
            have hchunk := hwhole hcut
            by_cases hdone : (all.take most).length < most
            · -- the log's end is reached
              rw [if_pos hdone]
              have hend : all.take most = all := by
                rw [List.length_take] at hdone
                exact List.take_of_length_le (by omega)
              refine ⟨min n most, rfl, hlen, fun _ => .inr (hchunk.trans hend), ?_⟩
              intro f hf
              rw [hfitsAll, hcut] at hf
              cases hf
            · rw [if_neg hdone]
              have hmore : most ≤ all.length := by
                rw [List.length_take] at hdone
                omega
              have hne : all.take most ≠ [] := by
                intro hnil
                have := congrArg List.length hnil
                simp only [List.length_take, List.length_nil] at this
                omega
              obtain ⟨x, hx⟩ : ∃ x, (all.take most).getLast? = some x :=
                ⟨_, List.getLast?_eq_some_getLast hne⟩
              have hrest : past Event.position (w.ofTypes types) x.position w.stored =
                  all.drop most := by
                rw [← hall] at hx ⊢
                exact (drop_past hsorted hx).symm
              have hnext : (((all.take (min n most)).getLast?.map Event.position).getD at') =
                  x.position := by
                rw [hchunk, hx]
                rfl
              rw [hnext, hchunk]
              have hbytes : used + bytesOf bytes (all.take most) =
                  bytesOf bytes (rows ++ all.take most) := by
                rw [hused, bytesOf, bytesOf, bytesOf, List.map_append, List.sum_append]
              obtain ⟨k, hrun, hreadTo⟩ := ih
                (by rw [List.length_append, List.length_take]; omega) hbytes
                (bytesOf_lt hroom hcut) (by rw [← hchunk, hfitsAll, hcut])
                (by rw [hrest, List.length_drop]; omega)
              obtain ⟨hwithin, hended', hlast'⟩ := hreadTo
              rw [hrest] at hrun hwithin hended' hlast'
              have hjoin : rows ++ all.take most ++ (all.drop most).take k =
                  rows ++ all.take (most + k) := by
                rw [List.append_assoc, ← List.take_add]
              rw [hjoin] at hrun hwithin hended' hlast'
              refine ⟨most + k, hrun, hwithin, fun h => ?_, hlast'⟩
              rcases hended' h with hreached | hended
              · exact .inl hreached
              · refine .inr ?_
                rw [List.take_add, hended, List.take_append_drop]

end ObjectFlow
