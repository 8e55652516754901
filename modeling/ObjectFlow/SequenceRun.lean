import Mathlib.Tactic.Linarith
import ObjectFlow.Base.Dispenser
import ObjectFlow.Sequence

/-!
# No number twice

The numbers drawn over a run of `numbering` are accounted for by two things:
the store's next number of a scope, below which everything recorded lies, and
what a process owes, which its second transaction writes later.  Drawing from
a scope that another process owes goes wrong, and so does raising one past
what a refused request is about to write over it.  `Clear` excludes those
steps, and `CoversLive` the restores whose margin falls short of what the live
store drew; every run of the remaining steps draws each number once.
-/

namespace ObjectFlow

open Base

/-- The number the next draw of a scope takes. -/
def NumberRows.nextNumber (rows : NumberRows) (key : Scope) : Int :=
  (Table.get? rows.nextValue key).getD (rows.sequenceFloor + 1)

/-- What the rows account for: everything below the next number. -/
def NumberRows.used (rows : NumberRows) (key : Scope) : Set Int :=
  {n | n < rows.nextNumber key}

/-- Rows as a store in service holds them: each next number follows one that
can be drawn, and so does the floor. -/
structure NumberRows.Good (rows : NumberRows) : Prop where
  next : ∀ key n, Table.get? rows.nextValue key = some n → 1 ≤ n ∧ n ≤ SEQUENCE_MOST + 1
  floor : 0 ≤ rows.sequenceFloor ∧ rows.sequenceFloor ≤ SEQUENCE_MOST

theorem NumberRows.good_fresh : NumberRows.fresh.Good :=
  ⟨by simp [fresh], by decide⟩

theorem NumberRows.Good.nextNumber {rows : NumberRows} (h : rows.Good) (key : Scope) :
    1 ≤ rows.nextNumber key ∧ rows.nextNumber key ≤ SEQUENCE_MOST + 1 := by
  unfold NumberRows.nextNumber
  cases hrow : Table.get? rows.nextValue key with
  | none =>
      have := h.floor
      simp only [Option.getD_none]
      omega
  | some n => exact h.next key n hrow

/-! ### What writing a row changes -/

@[simp] theorem NumberRows.overwrite_nextNumber (rows : NumberRows) (key other : Scope)
    (next : Int) :
    (rows.overwrite key next).nextNumber other =
      if key = other then next else rows.nextNumber other := by
  simp only [NumberRows.nextNumber, overwrite, Table.get?_set]
  split <;> simp

theorem NumberRows.overwrite_row (rows : NumberRows) (key other : Scope) (next : Int) :
    Table.get? (rows.overwrite key next).nextValue other =
      if key = other then some next else Table.get? rows.nextValue other := by
  simp [overwrite]

theorem NumberRows.Good.overwrite {rows : NumberRows} (h : rows.Good) {key : Scope}
    {next : Int} (low : 1 ≤ next) (high : next ≤ SEQUENCE_MOST + 1) :
    (rows.overwrite key next).Good where
  next other n hn := by
    rw [NumberRows.overwrite_row] at hn
    split at hn
    · obtain rfl := Option.some.inj hn
      exact ⟨low, high⟩
    · exact h.next other n hn
  floor := h.floor

/-- Raising a row sets it to the larger of the two; a scope with no row takes
the raise as it is. -/
theorem NumberRows.raise_eq (rows : NumberRows) (key : Scope) (next : Int) :
    ∃ raised, rows.raise key next = rows.overwrite key raised ∧ next ≤ raised ∧
      (raised = next ∨ raised = rows.nextNumber key) ∧
      ((Table.get? rows.nextValue key).isSome → rows.nextNumber key ≤ raised) := by
  unfold raise NumberRows.nextNumber
  cases hrow : Table.get? rows.nextValue key with
  | none => exact ⟨next, rfl, le_refl _, Or.inl rfl, by simp⟩
  | some held =>
      refine ⟨max held next, rfl, le_max_right _ _, ?_, fun _ => le_max_left _ _⟩
      rcases max_choice held next with h | h <;> simp [h]

theorem NumberRows.Good.raise {rows : NumberRows} (h : rows.Good) {key : Scope}
    {next : Int} (low : 1 ≤ next) (high : next ≤ SEQUENCE_MOST + 1) :
    (rows.raise key next).Good := by
  obtain ⟨raised, heq, -, hto | hto, -⟩ := rows.raise_eq key next
  · rw [heq, hto]
    exact h.overwrite low high
  · rw [heq, hto]
    exact h.overwrite (h.nextNumber key).1 (h.nextNumber key).2

/-! ### What a request draws -/

/-- The last number a request's counters hold for a scope. -/
def Allocator.last (alloc : Allocator) (key : Scope) : Int :=
  (Table.get? alloc.sequences key).getD alloc.floor

/-- What a request's counters account for. -/
def Allocator.used (alloc : Allocator) (key : Scope) : Set Int :=
  {n | n ≤ alloc.last key}

/-- A row a store in service holds is read as the number before it. -/
theorem lastDrawn_of_good {n : Int} (low : 1 ≤ n) (high : n ≤ SEQUENCE_MOST + 1) :
    lastDrawn n = n - 1 := by
  have hfits : fits64 (n - 1) = some (n - 1) := by
    simp only [SEQUENCE_MOST, i64Max] at high
    exact fits64_eq_some.mpr ⟨rfl, by unfold i64Min; omega, by unfold i64Max; omega⟩
  simp [lastDrawn, hfits, Option.filter, low]

theorem Allocator.read_last {rows : NumberRows} (h : rows.Good) (key : Scope) :
    (Allocator.read rows).last key = rows.nextNumber key - 1 := by
  simp only [Allocator.last, Allocator.read, Table.get?_mapValues, NumberRows.nextNumber]
  cases hrow : Table.get? rows.nextValue key with
  | none => simp
  | some n =>
      obtain ⟨low, high⟩ := h.next key n hrow
      simp [lastDrawn_of_good low high]

/-- One draw: the number after the last, which becomes the last. -/
theorem Allocator.draw_some {alloc next : Allocator} {key : Scope} {n : Int}
    (h : alloc.draw key = some (n, next)) :
    n = alloc.last key + 1 ∧ n ≤ SEQUENCE_MOST ∧ next.floor = alloc.floor ∧
      next.sequences = Table.set alloc.sequences key n ∧
      next.drawn = if key ∈ alloc.drawn then alloc.drawn else alloc.drawn ++ [key] := by
  simp only [Allocator.draw] at h
  split at h
  case h_1 => cases h
  case h_2 m hm =>
    obtain ⟨rfl, rfl⟩ := Prod.mk.inj (Option.some.inj h)
    obtain ⟨hfits, hmost⟩ := Option.filter_eq_some_iff.mp hm
    obtain ⟨hm, -⟩ := fits64_eq_some.mp hfits
    exact ⟨hm.symm, by simpa using hmost, rfl, rfl, rfl⟩

/-- What drawing over a list of scopes leaves: the counters move up over
exactly the numbers drawn. -/
structure Allocator.Drew (before after : Allocator) (scopes : List Scope)
    (numbers : List (Scope × Int)) : Prop where
  advance : Advance before.used after.used numbers
  named : ∀ p ∈ numbers, p.1 ∈ scopes
  drawn : ∀ key, key ∈ after.drawn ↔ key ∈ before.drawn ∨ ∃ n, (key, n) ∈ numbers
  kept : ∀ key, (∀ n, (key, n) ∉ numbers) →
    Table.get? after.sequences key = Table.get? before.sequences key
  floor : after.floor = before.floor
  held : ∀ key n, (key, n) ∈ numbers →
    Table.get? after.sequences key = some (after.last key) ∧ after.last key ≤ SEQUENCE_MOST
  nodup : before.drawn.Nodup → after.drawn.Nodup

theorem Allocator.Drew.nothing (alloc : Allocator) (scopes : List Scope) :
    alloc.Drew alloc scopes [] where
  advance := Advance.of_subset fun _ => subset_rfl
  named := by simp
  drawn := by simp
  kept _ _ := rfl
  floor := rfl
  held := by simp
  nodup h := h

/-- The last number after a draw. -/
theorem Allocator.last_of_draw {alloc next : Allocator} {key other : Scope} {n : Int}
    (h : alloc.draw key = some (n, next)) :
    next.last other = if key = other then n else alloc.last other := by
  obtain ⟨-, -, hfloor, hseq, -⟩ := Allocator.draw_some h
  simp only [Allocator.last, hseq, hfloor, Table.get?_set]
  split <;> simp

/-- A draw, then more draws. -/
theorem Allocator.Drew.cons {alloc next after : Allocator} {key : Scope} {n : Int}
    {rest : List Scope} {numbers : List (Scope × Int)}
    (hdraw : alloc.draw key = some (n, next)) (h : next.Drew after rest numbers) :
    alloc.Drew after (key :: rest) ((key, n) :: numbers) := by
  obtain ⟨hn, hmost, hfloor, hseq, hdrawn⟩ := Allocator.draw_some hdraw
  have hlast : ∀ other, next.last other = if key = other then n else alloc.last other :=
    fun _ => Allocator.last_of_draw hdraw
  have first : Advance alloc.used next.used [(key, n)] := by
    refine ⟨List.nodup_singleton _, ?_, ?_, ?_⟩
    · simp [Allocator.used, hn]
    · simp [Allocator.used, hlast]
    · intro other m hm
      simp only [Allocator.used, Set.mem_ofPred_eq, hlast] at *
      split
      case isTrue heq => subst heq; omega
      case isFalse => exact hm
  refine ⟨first.trans h.advance, ?_, ?_, ?_, h.floor.trans hfloor, ?_, ?_⟩
  · intro p hp
    rcases List.mem_cons.mp hp with rfl | hp
    · simp
    · exact List.mem_cons_of_mem _ (h.named p hp)
  · intro other
    rw [h.drawn, hdrawn]
    have hmem : other ∈ (if key ∈ alloc.drawn then alloc.drawn else alloc.drawn ++ [key]) ↔
        other ∈ alloc.drawn ∨ other = key := by
      split
      case isTrue hkey =>
        exact ⟨Or.inl, fun h => h.elim id fun h => h ▸ hkey⟩
      case isFalse => simp
    rw [hmem]
    simp only [List.mem_cons, Prod.mk.injEq, exists_or]
    constructor
    · rintro ((h | h) | h)
      · exact Or.inl h
      · exact Or.inr (Or.inl ⟨n, h, rfl⟩)
      · exact Or.inr (Or.inr h)
    · rintro (h | ⟨_, h, -⟩ | h)
      · exact Or.inl (Or.inl h)
      · exact Or.inl (Or.inr h)
      · exact Or.inr h
  · intro other hnone
    have hne : key ≠ other := by
      rintro rfl
      exact hnone n (by simp)
    rw [h.kept other fun m hm => hnone m (List.mem_cons_of_mem _ hm), hseq,
      Table.get?_set_of_ne _ _ hne]
  · intro other m hm
    by_cases hlater : ∃ m', (other, m') ∈ numbers
    · obtain ⟨m', hm'⟩ := hlater
      exact h.held other m' hm'
    · have hkey : key = other := by
        rcases List.mem_cons.mp hm with heq | hm
        · exact (Prod.mk.inj heq).1.symm
        · exact absurd ⟨m, hm⟩ hlater
      have hrow : Table.get? after.sequences other = some n := by
        rw [h.kept other fun m' hm' => hlater ⟨m', hm'⟩, hseq, hkey, Table.get?_set_self]
      simp only [Allocator.last, hrow, Option.getD_some]
      exact ⟨trivial, hmost⟩
  · intro hnodup
    apply h.nodup
    rw [hdrawn]
    split
    case isTrue => exact hnodup
    case isFalse hkey =>
      exact List.Nodup.append hnodup (List.nodup_singleton _)
        (by simpa [List.disjoint_singleton] using hkey)

/-- **Drawing.**  The draws of a request, one induction over them. -/
theorem Allocator.drawAll_drew (alloc : Allocator) (scopes : List Scope) :
    alloc.Drew (alloc.drawAll scopes).1 scopes (alloc.drawAll scopes).2 := by
  induction scopes generalizing alloc with
  | nil => exact Allocator.Drew.nothing alloc []
  | cons key rest ih =>
      cases hdraw : alloc.draw key with
      | none =>
          simp only [Allocator.drawAll, hdraw]
          have h := ih alloc
          exact { h with named := fun p hp => List.mem_cons_of_mem _ (h.named p hp) }
      | some drawn =>
          obtain ⟨n, next⟩ := drawn
          simp only [Allocator.drawAll, hdraw]
          exact Allocator.Drew.cons hdraw (ih next)

/-- What a request on `rows` draws and what it has to write: `draws` names each
scope it drew from once, with the last number, and every number it drew is
new to the rows. -/
structure NumberRows.Draws (rows : NumberRows) (scopes : List Scope)
    (draws numbers : List (Scope × Int)) : Prop where
  keys : (draws.map Prod.fst).Nodup
  nodup : numbers.Nodup
  fresh : ∀ p ∈ numbers, rows.nextNumber p.1 ≤ p.2
  named : ∀ p ∈ numbers, p.1 ∈ scopes
  covered : ∀ p ∈ numbers, ∃ last, (p.1, last) ∈ draws ∧ p.2 ≤ last
  last : ∀ p ∈ draws, p.1 ∈ scopes ∧ rows.nextNumber p.1 ≤ p.2 ∧ p.2 ≤ SEQUENCE_MOST

/-- A request's counters, read from rows in service, give its draws. -/
theorem NumberRows.Good.request_draws {rows : NumberRows} (h : rows.Good)
    (scopes : List Scope) :
    rows.Draws scopes ((Allocator.read rows).drawAll scopes).1.draws
      ((Allocator.read rows).drawAll scopes).2 := by
  set alloc := ((Allocator.read rows).drawAll scopes).1 with halloc
  set numbers := ((Allocator.read rows).drawAll scopes).2 with hnumbers
  have hdrew : (Allocator.read rows).Drew alloc scopes numbers :=
    Allocator.drawAll_drew _ _
  have hdrawn : ∀ key, key ∈ alloc.drawn ↔ ∃ n, (key, n) ∈ numbers := by
    intro key
    rw [hdrew.drawn]
    simp [Allocator.read]
  have hfresh : ∀ p ∈ numbers, rows.nextNumber p.1 ≤ p.2 := by
    intro p hp
    have := hdrew.advance.fresh p hp
    simp only [Allocator.used, Set.mem_ofPred_eq, Allocator.read_last h] at this
    omega
  have hlast : ∀ p ∈ numbers, p.2 ≤ alloc.last p.1 := hdrew.advance.accounted
  -- a scope drawn from stands among the draws with the counter's last number
  have hheld : ∀ p ∈ numbers, (p.1, alloc.last p.1) ∈ alloc.draws := by
    intro p hp
    have hkey : p.1 ∈ alloc.drawn := (hdrawn p.1).mpr ⟨p.2, hp⟩
    refine List.mem_map.mpr ⟨p.1, hkey, ?_⟩
    rw [(hdrew.held p.1 p.2 hp).1, Option.getD_some]
  refine ⟨?_, hdrew.advance.nodup, hfresh, hdrew.named, ?_, ?_⟩
  · have hid : alloc.draws.map Prod.fst = alloc.drawn := by
      simp [Allocator.draws, Function.comp_def]
    rw [hid]
    exact hdrew.nodup List.nodup_nil
  · intro p hp
    exact ⟨alloc.last p.1, hheld p hp, hlast p hp⟩
  · intro p hp
    obtain ⟨key, hkey, rfl⟩ := List.mem_map.mp hp
    obtain ⟨n, hn⟩ := (hdrawn key).mp hkey
    obtain ⟨hrow, hmost⟩ := hdrew.held key n hn
    simp only [hrow, Option.getD_some]
    exact ⟨hdrew.named _ hn, (hfresh _ hn).trans (hlast _ hn), hmost⟩

/-! ### Writing what was drawn -/

/-- Where the numbers a request drew are written, each scope it names takes the
number after its last, and no other changes. -/
theorem NumberRows.writeSequences_nextNumber {draws : List (Scope × Int)}
    (hkeys : (draws.map Prod.fst).Nodup) (rows : NumberRows) (key : Scope) :
    (∀ last, (key, last) ∈ draws → (rows.writeSequences draws).nextNumber key = last + 1) ∧
    ((∀ last, (key, last) ∉ draws) →
      (rows.writeSequences draws).nextNumber key = rows.nextNumber key) := by
  induction draws generalizing rows with
  | nil => simp [writeSequences]
  | cons entry rest ih =>
      obtain ⟨k, l⟩ := entry
      simp only [List.map_cons, List.nodup_cons, List.mem_map, not_exists, not_and] at hkeys
      obtain ⟨hk, hrest⟩ := hkeys
      have hih := ih hrest (rows.overwrite k (l + 1))
      have hstep : rows.writeSequences ((k, l) :: rest) =
          (rows.overwrite k (l + 1)).writeSequences rest := rfl
      rw [hstep]
      refine ⟨fun last hmem => ?_, fun hnone => ?_⟩
      · rcases List.mem_cons.mp hmem with heq | hmem
        · obtain ⟨rfl, rfl⟩ := Prod.mk.inj heq
          have habsent : ∀ last', (key, last') ∉ rest := fun last' h => hk _ h rfl
          rw [hih.2 habsent, overwrite_nextNumber, if_pos rfl]
        · exact hih.1 last hmem
      · have hne : k ≠ key := by
          rintro rfl
          exact hnone l (by simp)
        rw [hih.2 fun last h => hnone last (List.mem_cons_of_mem _ h),
          overwrite_nextNumber, if_neg hne]

/-- A row that exists stays one, and one written exists. -/
theorem NumberRows.writeSequences_row {draws : List (Scope × Int)} {rows : NumberRows}
    {key : Scope} (h : (Table.get? rows.nextValue key).isSome ∨ ∃ last, (key, last) ∈ draws) :
    (Table.get? (rows.writeSequences draws).nextValue key).isSome := by
  induction draws generalizing rows with
  | nil => simpa [writeSequences] using h
  | cons entry rest ih =>
      obtain ⟨k, l⟩ := entry
      refine ih ?_
      show (Table.get? (rows.overwrite k (l + 1)).nextValue key).isSome ∨ _
      rw [overwrite_row]
      rcases h with h | ⟨last, h⟩
      · left
        split <;> simp [h]
      · rcases List.mem_cons.mp h with heq | h
        · left
          simp [(Prod.mk.inj heq).1]
        · exact Or.inr ⟨last, h⟩

theorem NumberRows.Good.writeSequences {rows : NumberRows} (h : rows.Good)
    {draws : List (Scope × Int)}
    (hlast : ∀ p ∈ draws, 0 ≤ p.2 ∧ p.2 ≤ SEQUENCE_MOST) :
    (rows.writeSequences draws).Good := by
  induction draws generalizing rows with
  | nil => exact h
  | cons entry rest ih =>
      have hentry := hlast entry (by simp)
      exact ih (h.overwrite (by omega) (by omega))
        fun p hp => hlast p (List.mem_cons_of_mem _ hp)

/-- The rows after a request that draws only move up, to just past what it
drew. -/
theorem NumberRows.Draws.advance {rows : NumberRows} {scopes : List Scope}
    {draws numbers : List (Scope × Int)} (h : rows.Draws scopes draws numbers) :
    Advance rows.used (rows.writeSequences draws).used numbers := by
  refine ⟨h.nodup, ?_, ?_, ?_⟩
  · intro p hp hused
    have := h.fresh p hp
    simp only [NumberRows.used, Set.mem_ofPred_eq] at hused
    omega
  · intro p hp
    obtain ⟨last, hmem, hle⟩ := h.covered p hp
    have := (writeSequences_nextNumber h.keys rows p.1).1 last hmem
    simp only [NumberRows.used, Set.mem_ofPred_eq]
    omega
  · intro key n hn
    simp only [NumberRows.used, Set.mem_ofPred_eq] at *
    by_cases hdrawn : ∃ last, (key, last) ∈ draws
    · obtain ⟨last, hmem⟩ := hdrawn
      have hnext := (writeSequences_nextNumber h.keys rows key).1 last hmem
      have hlast := (h.last _ hmem).2.1
      simp only at hlast
      omega
    · rw [(writeSequences_nextNumber h.keys rows key).2 fun last hmem => hdrawn ⟨last, hmem⟩]
      exact hn

/-! ### A batch -/

/-- What a batch keeps covers what it kept before and what its next request
drew, and holds nothing else. -/
theorem keepLast_spec (kept : Table Scope Int) (draws : List (Scope × Int)) :
    (∀ key last, Table.get? kept key = some last ∨ (key, last) ∈ draws →
      ∃ last', Table.get? (keepLast kept draws) key = some last' ∧ last ≤ last') ∧
    (∀ p ∈ keepLast kept draws, p ∈ kept ∨ p ∈ draws) := by
  induction draws generalizing kept with
  | nil =>
      refine ⟨fun key last h => ⟨last, ?_, le_refl _⟩, fun p hp => Or.inl hp⟩
      simpa [keepLast] using h
  | cons entry rest ih =>
      obtain ⟨k, l⟩ := entry
      -- the entry kept for `k` is the larger of the one held and `l`
      obtain ⟨most, hstep, hl, hheld, hmost⟩ : ∃ most,
          keepLast kept ((k, l) :: rest) = keepLast (Table.set kept k most) rest ∧
          l ≤ most ∧ (∀ held, Table.get? kept k = some held → held ≤ most) ∧
          (most = l ∨ (k, most) ∈ kept) := by
        cases hk : Table.get? kept k with
        | none => exact ⟨l, by simp [keepLast, hk], le_refl _, by simp, Or.inl rfl⟩
        | some held =>
            refine ⟨max held l, by simp [keepLast, hk], le_max_right _ _, ?_, ?_⟩
            · intro held' h
              obtain rfl := Option.some.inj h
              exact le_max_left _ _
            · rcases max_choice held l with h | h
              · exact Or.inr (by rw [h]; exact Table.mem_of_get? hk)
              · exact Or.inl h
      rw [hstep]
      obtain ⟨hcover, hfrom⟩ := ih (Table.set kept k most)
      refine ⟨fun key last h => ?_, fun p hp => ?_⟩
      · by_cases hkey : k = key
        · subst hkey
          have hle : last ≤ most ∨ (k, last) ∈ rest := by
            rcases h with h | h
            · exact Or.inl (hheld last h)
            · rcases List.mem_cons.mp h with heq | h
              · exact Or.inl ((Prod.mk.inj heq).2 ▸ hl)
              · exact Or.inr h
          rcases hle with hle | hrest
          · obtain ⟨last', hget, hle'⟩ := hcover k most (Or.inl (Table.get?_set_self _ _ _))
            exact ⟨last', hget, hle.trans hle'⟩
          · exact hcover k last (Or.inr hrest)
        · apply hcover key last
          rcases h with h | h
          · exact Or.inl (by rw [Table.get?_set_of_ne _ _ hkey]; exact h)
          · rcases List.mem_cons.mp h with heq | h
            · exact absurd (Prod.mk.inj heq).1.symm hkey
            · exact Or.inr h
      · rcases hfrom p hp with h | h
        · rcases Table.mem_set h with h | h
          · exact Or.inl h
          · rcases hmost with hmost | hmost
            · exact Or.inr (by simp [h, hmost])
            · exact Or.inl (h ▸ hmost)
        · exact Or.inr (List.mem_cons_of_mem _ h)

/-- What the requests of a batch do to the rows, and what is kept of them. -/
structure NumberRows.Batch (rows : NumberRows) (kept : Table Scope Int)
    (requests : List (List Scope)) (rows' : NumberRows) (kept' : Table Scope Int)
    (numbers : List (Scope × Int)) : Prop where
  good : rows'.Good
  advance : Advance rows.used rows'.used numbers
  named : ∀ p ∈ numbers, p.1 ∈ requests.flatten
  same : ∀ key, key ∉ requests.flatten →
    rows'.nextNumber key = rows.nextNumber key
  row : ∀ key, (Table.get? rows.nextValue key).isSome →
    (Table.get? rows'.nextValue key).isSome
  written : ∀ key, rows'.nextNumber key ≠ rows.nextNumber key →
    (Table.get? rows'.nextValue key).isSome
  covered : ∀ p ∈ numbers, ∃ last, Table.get? kept' p.1 = some last ∧ p.2 ≤ last
  keeps : ∀ key last, Table.get? kept key = some last →
    ∃ last', Table.get? kept' key = some last' ∧ last ≤ last'
  last : ∀ p ∈ kept', p ∈ kept ∨
    (p.1 ∈ requests.flatten ∧ rows.nextNumber p.1 ≤ p.2 ∧ p.2 ≤ SEQUENCE_MOST)

/-- **Batch.**  One induction over the requests of a batch. -/
theorem NumberRows.Good.batch {rows : NumberRows} (h : rows.Good)
    (kept : Table Scope Int) (requests : List (List Scope)) :
    rows.Batch kept requests (runBatch rows kept requests).1
      (runBatch rows kept requests).2.1 (runBatch rows kept requests).2.2 := by
  induction requests generalizing rows kept with
  | nil =>
      exact {
        good := h
        advance := Advance.of_subset fun _ => subset_rfl
        named := by simp [runBatch]
        same := fun _ _ => rfl
        row := fun _ h => h
        written := fun _ h => absurd rfl h
        covered := by simp [runBatch]
        keeps := fun key last hk => ⟨last, hk, le_refl _⟩
        last := fun p hp => Or.inl hp }
  | cons scopes rest ih =>
      have hreq := h.request_draws scopes
      simp only [runBatch]
      set draws := ((Allocator.read rows).drawAll scopes).1.draws
      set numbers := ((Allocator.read rows).drawAll scopes).2
      have hnext : ∀ key, 1 ≤ rows.nextNumber key := fun key => (h.nextNumber key).1
      have hgood : (rows.writeSequences draws).Good := by
        refine h.writeSequences fun p hp => ?_
        have := hreq.last p hp
        have := hnext p.1
        omega
      obtain ⟨hcover, hfrom⟩ := keepLast_spec kept draws
      have hrest := ih hgood (keepLast kept draws)
      have hnone : ∀ key, key ∉ scopes → ∀ last, (key, last) ∉ draws :=
        fun key hkey last hmem => hkey (hreq.last _ hmem).1
      have hsame : ∀ key, key ∉ scopes →
          (rows.writeSequences draws).nextNumber key = rows.nextNumber key :=
        fun key hkey => (writeSequences_nextNumber hreq.keys rows key).2 (hnone key hkey)
      have hmono : ∀ key, rows.nextNumber key ≤ (rows.writeSequences draws).nextNumber key := by
        intro key
        by_cases hkey : ∃ last, (key, last) ∈ draws
        · obtain ⟨last, hmem⟩ := hkey
          rw [(writeSequences_nextNumber hreq.keys rows key).1 last hmem]
          have := (hreq.last _ hmem).2.1
          simp only at this
          omega
        · rw [(writeSequences_nextNumber hreq.keys rows key).2 fun last hmem =>
            hkey ⟨last, hmem⟩]
      exact {
        good := hrest.good
        advance := hreq.advance.trans hrest.advance
        named := fun p hp => by
          rcases List.mem_append.mp hp with hp | hp
          · simp [hreq.named p hp]
          · have := hrest.named p hp
            simp only [List.flatten_cons, List.mem_append]
            exact Or.inr this
        same := fun key hkey => by
          simp only [List.flatten_cons, List.mem_append, not_or] at hkey
          rw [hrest.same key hkey.2, hsame key hkey.1]
        row := fun key hrow => hrest.row key (writeSequences_row (Or.inl hrow))
        written := fun key hne => by
          by_cases hdrawn : ∃ last, (key, last) ∈ draws
          · exact hrest.row key (writeSequences_row (Or.inr hdrawn))
          · apply hrest.written key
            rwa [(writeSequences_nextNumber hreq.keys rows key).2 fun last hmem =>
              hdrawn ⟨last, hmem⟩]
        covered := fun p hp => by
          rcases List.mem_append.mp hp with hp | hp
          · obtain ⟨last, hmem, hle⟩ := hreq.covered p hp
            obtain ⟨last', hget, hle'⟩ := hcover p.1 last (Or.inr hmem)
            obtain ⟨last'', hget', hle''⟩ := hrest.keeps p.1 last' hget
            exact ⟨last'', hget', by omega⟩
          · exact hrest.covered p hp
        keeps := fun key last hk => by
          obtain ⟨last', hget, hle⟩ := hcover key last (Or.inl hk)
          obtain ⟨last'', hget', hle'⟩ := hrest.keeps key last' hget
          exact ⟨last'', hget', by omega⟩
        last := fun p hp => by
          simp only [List.flatten_cons, List.mem_append]
          rcases hrest.last p hp with hp | ⟨hnamed, hlow, hhigh⟩
          · rcases hfrom p hp with hp | hp
            · exact Or.inl hp
            · obtain ⟨hnamed, hlow, hhigh⟩ := hreq.last p hp
              exact Or.inr ⟨Or.inl hnamed, hlow, hhigh⟩
          · exact Or.inr ⟨Or.inr hnamed, (hmono p.1).trans hlow, hhigh⟩ }

/-! ### Raising -/

/-- Each scope raised reaches past what it is raised to, a row is never
lowered, and a scope moves only to one of its raises. -/
theorem NumberRows.keepDraws_spec (rows : NumberRows) (draws : List (Scope × Int))
    (key : Scope) :
    (∀ last, (key, last) ∈ draws → last + 1 ≤ (rows.keepDraws draws).nextNumber key ∧
      (Table.get? (rows.keepDraws draws).nextValue key).isSome) ∧
    ((Table.get? rows.nextValue key).isSome →
      rows.nextNumber key ≤ (rows.keepDraws draws).nextNumber key ∧
      (Table.get? (rows.keepDraws draws).nextValue key).isSome) ∧
    ((rows.keepDraws draws).nextNumber key = rows.nextNumber key ∨
      ∃ last, (key, last) ∈ draws ∧ (rows.keepDraws draws).nextNumber key = last + 1) ∧
    ((∀ last, (key, last) ∉ draws) →
      (rows.keepDraws draws).nextNumber key = rows.nextNumber key ∧
      Table.get? (rows.keepDraws draws).nextValue key = Table.get? rows.nextValue key) := by
  induction draws generalizing rows with
  | nil => simp [keepDraws]
  | cons entry rest ih =>
      obtain ⟨k, l⟩ := entry
      obtain ⟨raised, heq, hle, hto, hmono⟩ := rows.raise_eq k (l + 1)
      have hstep : rows.keepDraws ((k, l) :: rest) =
          (rows.overwrite k raised).keepDraws rest := by
        rw [← heq]
        rfl
      rw [hstep]
      obtain ⟨hreach, hrow, hmove, hother⟩ := ih (rows.overwrite k raised)
      by_cases hk : k = key
      · subst hk
        obtain ⟨hup, hsome⟩ := hrow (by simp [overwrite_row])
        rw [overwrite_nextNumber, if_pos rfl] at hup hmove
        refine ⟨fun last hmem => ?_, fun hheld => ?_, ?_, fun hnone => ?_⟩
        · rcases List.mem_cons.mp hmem with heq | hmem
          · obtain rfl := (Prod.mk.inj heq).2
            exact ⟨hle.trans hup, hsome⟩
          · exact hreach last hmem
        · exact ⟨(hmono hheld).trans hup, hsome⟩
        · rcases hmove with hsame | ⟨last, hmem, hlast⟩
          · rcases hto with hto | hto
            · exact Or.inr ⟨l, by simp, hsame.trans hto⟩
            · exact Or.inl (hsame.trans hto)
          · exact Or.inr ⟨last, List.mem_cons_of_mem _ hmem, hlast⟩
        · exact absurd (List.mem_cons_self (a := (k, l)) (l := rest)) (hnone l)
      · rw [overwrite_nextNumber, if_neg hk] at hrow hmove hother
        rw [overwrite_row, if_neg hk] at hrow hother
        refine ⟨fun last hmem => ?_, hrow, ?_, fun hnone => ?_⟩
        · rcases List.mem_cons.mp hmem with heq | hmem
          · exact absurd (Prod.mk.inj heq).1.symm hk
          · exact hreach last hmem
        · rcases hmove with hsame | ⟨last, hmem, hlast⟩
          · exact Or.inl hsame
          · exact Or.inr ⟨last, List.mem_cons_of_mem _ hmem, hlast⟩
        · exact hother fun last hmem => hnone last (List.mem_cons_of_mem _ hmem)

theorem NumberRows.Good.keepDraws {rows : NumberRows} (h : rows.Good)
    {draws : List (Scope × Int)}
    (hlast : ∀ p ∈ draws, 0 ≤ p.2 ∧ p.2 ≤ SEQUENCE_MOST) : (rows.keepDraws draws).Good := by
  induction draws generalizing rows with
  | nil => exact h
  | cons entry rest ih =>
      have hentry := hlast entry (by simp)
      exact ih (h.raise (by omega) (by omega))
        fun p hp => hlast p (List.mem_cons_of_mem _ hp)

/-! ### Restoring -/

theorem restoreMargin_least (recorded : List Int) (now : Int) :
    RESTORE_LEAST ≤ restoreMargin recorded now := by
  simp [restoreMargin]

/-- A counter of a store in service stays one when it is advanced. -/
theorem advanced_nonneg {margin v next : Int} (hmargin : RESTORE_LEAST ≤ margin)
    (hv : 0 ≤ v) (h : advanced margin v = some next) : 0 ≤ next := by
  simp only [advanced, Option.map_eq_some_iff, Option.bind_eq_some_iff, fits64_eq_some] at h
  obtain ⟨rounded, ⟨w, ⟨hw, -⟩, ⟨hrounded, -⟩⟩, rfl⟩ := h
  have hpos : 0 ≤ rounded := by
    simp only [RESTORE_LEAST, RESTORE_ROUND] at hmargin hrounded
    omega
  exact mul_nonneg (Int.tdiv_nonneg hpos (by decide)) (by decide)

theorem NumberRows.Good.restore {copy rows : NumberRows} (h : copy.Good)
    {recorded : List Int} {now : Int} (hrestore : restoreCopy copy recorded now = some rows) :
    rows.Good := by
  simp only [restoreCopy, Option.map_eq_some_iff] at hrestore
  obtain ⟨floor, hfloor, rfl⟩ := hrestore
  have hmargin := restoreMargin_least recorded now
  refine ⟨fun key n hn => ?_, ?_⟩
  · simp only [Table.get?_mapValues, Option.map_eq_some_iff] at hn
    obtain ⟨held, -, rfl⟩ := hn
    unfold restoredNext
    split
    case h_1 => exact ⟨by decide, le_refl _⟩
    case h_2 last hlast =>
      have hlow : 0 ≤ min last SEQUENCE_MOST :=
        le_min (advanced_nonneg hmargin (le_max_right _ _) hlast) (by decide)
      have hhigh : min last SEQUENCE_MOST ≤ SEQUENCE_MOST := min_le_right _ _
      exact ⟨by linarith, by linarith⟩
  · exact ⟨le_min (advanced_nonneg hmargin h.floor.1 hfloor) (by decide), min_le_right _ _⟩

/-! ### What a run accounts for -/

/-- The numbers a process owes the store, with the last one of each scope. -/
def Owed.draws : Owed → List (Scope × Int)
  | .nothing => []
  | .refused draws => draws
  | .aborted draws => draws

/-- A process owes a scope's number: it drew it, and it has not written it. -/
def Numbering.Owes (s : Numbering) (process : Nat) (key : Scope) (last : Int) : Prop :=
  (key, last) ∈ (s.owed process).draws

/-- A process that owes a refused request's number. -/
def Numbering.OwesRefused (s : Numbering) (process : Nat) (key : Scope) (last : Int) : Prop :=
  ∃ draws, s.owed process = .refused draws ∧ (key, last) ∈ draws

/-- A number a process owes and writes whatever the scope then holds: a refused
request's, or an aborted batch's where the scope has no row. -/
def Numbering.Overwrites (s : Numbering) (process : Nat) (key : Scope) (last : Int) : Prop :=
  s.OwesRefused process key last ∨
    (s.Owes process key last ∧ Table.get? s.rows.nextValue key = none)

/-- A scope that may be drawn from: what other processes owe of it is an
aborted batch's, and already passed. -/
def Numbering.Free (s : Numbering) (key : Scope) : Prop :=
  ∀ process last, s.Owes process key last →
    ¬ s.OwesRefused process key last ∧ last < s.rows.nextNumber key

/-- An import's raises that no refused request writes back under, and that do
not start a scope below the restore's floor. -/
def Numbering.RaiseClear (s : Numbering) (raised : List (Scope × Int)) : Prop :=
  ∀ key last, (key, last) ∈ raised →
    (∀ process owed, s.OwesRefused process key owed → last ≤ owed) ∧
    ((Table.get? s.rows.nextValue key).isSome ∨
      ∃ last', (key, last') ∈ raised ∧ s.rows.sequenceFloor ≤ last')

/-- A restored copy whose margin covers what the live store drew, and goes no
further than what a process is about to write over it. -/
def Numbering.CoversLive (s : Numbering) (restored : NumberRows) : Prop :=
  ∀ key, s.rows.nextNumber key ≤ restored.nextNumber key ∧
    ∀ process last, { s with rows := restored }.Overwrites process key last →
      restored.nextNumber key ≤ last + 1

/-- The steps under which every number is drawn once. -/
def Numbering.Clear (s : Numbering) : NumberStep → Prop
  | .applied _ scopes | .refused _ scopes => ∀ key ∈ scopes, s.Free key
  | .committed _ requests | .aborted _ requests => ∀ key ∈ requests.flatten, s.Free key
  | .imported _ raised => s.RaiseClear raised
  | .restored i recorded now => ∀ copy restored, s.copies[i]? = some copy →
      restoreCopy copy recorded now = some restored → s.CoversLive restored
  | .recorded _ | .kept _ | .copied => True

/-- What the store and the processes together account for. -/
def Numbering.used (s : Numbering) (key : Scope) : Set Int :=
  {n | n < s.rows.nextNumber key ∨ ∃ process last, s.Owes process key last ∧ n ≤ last}

/-- The invariant of a run: everything a process writes later is at least what
the store holds by then, the refused ones' above all. -/
structure Numbering.Accounted (s : Numbering) : Prop where
  good : s.rows.Good
  copies : ∀ copy ∈ s.copies, copy.Good
  bounds : ∀ process key last, s.Owes process key last → 0 ≤ last ∧ last ≤ SEQUENCE_MOST
  keys : ∀ process draws, s.owed process = .refused draws → (draws.map Prod.fst).Nodup
  overwritten : ∀ process key last, s.Overwrites process key last →
    s.rows.nextNumber key ≤ last + 1
  order : ∀ process other key last last', process ≠ other →
    s.OwesRefused process key last → s.Owes other key last' → last' ≤ last

theorem Numbering.accounted_fresh : Numbering.fresh.Accounted where
  good := NumberRows.good_fresh
  copies := by simp [fresh]
  bounds := by simp [fresh, Owes, Owed.draws]
  keys := by simp [fresh]
  overwritten := by simp [fresh, Overwrites, OwesRefused, Owes, Owed.draws]
  order := by simp [fresh, OwesRefused]

/-- What a refused request owes is owed. -/
theorem Numbering.OwesRefused.owes {s : Numbering} {process : Nat} {key : Scope} {last : Int}
    (h : s.OwesRefused process key last) : s.Owes process key last := by
  obtain ⟨draws, howed, hmem⟩ := h
  simpa [Owes, howed, Owed.draws] using hmem

/-- What a step has to show: it draws new numbers, keeps the invariant, and
moves no next number down. -/
structure Numbering.Sound (s s' : Numbering) (numbers : List (Scope × Int)) : Prop where
  advance : Advance s.used s'.used numbers
  accounted : s'.Accounted
  mono : ∀ key, s.rows.nextNumber key ≤ s'.rows.nextNumber key

/-- A step that writes rows and leaves what the processes owe. -/
theorem Numbering.Accounted.rows {s : Numbering} (h : s.Accounted) {rows : NumberRows}
    {numbers : List (Scope × Int)} (hgood : rows.Good)
    (hadvance : Advance s.rows.used rows.used numbers)
    (hfree : ∀ p ∈ numbers, s.Free p.1)
    (hover : ∀ process key last, { s with rows }.Overwrites process key last →
      rows.nextNumber key ≤ last + 1) :
    s.Sound { s with rows } numbers := by
  have hmono : ∀ key, s.rows.nextNumber key ≤ rows.nextNumber key := by
    intro key
    by_contra hlt
    -- the largest number the rows accounted for would be lost
    have hlast : s.rows.nextNumber key - 1 ∈ s.rows.used key := by
      simp [NumberRows.used]
    have := hadvance.grows key hlast
    simp only [NumberRows.used, Set.mem_ofPred_eq] at this
    omega
  refine ⟨⟨hadvance.nodup, ?_, ?_, ?_⟩, ?_, hmono⟩
  · intro p hp hused
    have hnew : s.rows.nextNumber p.1 ≤ p.2 := by
      have := hadvance.fresh p hp
      simpa [NumberRows.used] using this
    rcases hused with hlt | ⟨process, last, howes, hle⟩
    · omega
    · have := (hfree p hp process last howes).2
      omega
  · exact fun p hp => Or.inl (hadvance.accounted p hp)
  · intro key n hn
    rcases hn with hlt | howed
    · exact Or.inl (hadvance.grows key hlt)
    · exact Or.inr howed
  · exact ⟨hgood, h.copies, h.bounds, h.keys, hover, h.order⟩

/-- A request applied or a batch committed: scopes are drawn from that are free,
and the others keep their rows. -/
theorem Numbering.Accounted.drawn {s : Numbering} (h : s.Accounted) {rows : NumberRows}
    {scopes : List Scope} {numbers : List (Scope × Int)} (hgood : rows.Good)
    (hadvance : Advance s.rows.used rows.used numbers)
    (hnamed : ∀ p ∈ numbers, p.1 ∈ scopes) (hfree : ∀ key ∈ scopes, s.Free key)
    (hsame : ∀ key, key ∉ scopes → rows.nextNumber key = s.rows.nextNumber key)
    (hrow : ∀ key, (Table.get? s.rows.nextValue key).isSome →
      (Table.get? rows.nextValue key).isSome)
    (hwritten : ∀ key, rows.nextNumber key ≠ s.rows.nextNumber key →
      (Table.get? rows.nextValue key).isSome) :
    s.Sound { s with rows } numbers := by
  refine h.rows hgood hadvance (fun p hp => hfree _ (hnamed p hp)) ?_
  intro process key last hover
  rcases hover with hrefused | ⟨howes, hnone⟩
  · have hrefused : s.OwesRefused process key last := hrefused
    have hkey : key ∉ scopes := fun hkey =>
      (hfree key hkey process last hrefused.owes).1 hrefused
    rw [hsame key hkey]
    exact h.overwritten process key last (Or.inl hrefused)
  · -- a scope still without a row was not written
    have hsame : rows.nextNumber key = s.rows.nextNumber key := by
      by_contra hne
      have := hwritten key hne
      simp only [hnone, Option.isSome_none, Bool.false_eq_true] at this
    have hnone' : Table.get? s.rows.nextValue key = none := by
      by_contra hsome
      have := hrow key (Option.isSome_iff_ne_none.mpr hsome)
      simp only [hnone, Option.isSome_none, Bool.false_eq_true] at this
    rw [hsame]
    exact h.overwritten process key last (Or.inr ⟨howes, hnone'⟩)

@[simp] theorem Numbering.owe_rows (s : Numbering) (process : Nat) (what : Owed) :
    (s.owe process what).rows = s.rows := rfl

theorem Numbering.owe_owed (s : Numbering) (process q : Nat) (what : Owed) :
    (s.owe process what).owed q = if q = process then what else s.owed q := rfl

theorem Numbering.owes_owe {s : Numbering} {process q : Nat} {what : Owed} {key : Scope}
    {last : Int} : (s.owe process what).Owes q key last ↔
      (q = process ∧ (key, last) ∈ what.draws) ∨ (q ≠ process ∧ s.Owes q key last) := by
  simp only [Owes, owe_owed]
  split <;> simp_all

theorem Numbering.owesRefused_owe {s : Numbering} {process q : Nat} {what : Owed}
    {key : Scope} {last : Int} : (s.owe process what).OwesRefused q key last ↔
      (q = process ∧ ∃ draws, what = .refused draws ∧ (key, last) ∈ draws) ∨
      (q ≠ process ∧ s.OwesRefused q key last) := by
  simp only [OwesRefused, owe_owed]
  split <;> simp_all

/-- A refused request or an aborted batch: the rows stay, and the process owes
what it drew. -/
theorem Numbering.Accounted.owes {s : Numbering} (h : s.Accounted) {process : Nat}
    {what : Owed} {numbers : List (Scope × Int)} (hidle : s.owed process = .nothing)
    (hnodup : numbers.Nodup) (hfresh : ∀ p ∈ numbers, s.rows.nextNumber p.1 ≤ p.2)
    (hcovered : ∀ p ∈ numbers, ∃ last, (p.1, last) ∈ what.draws ∧ p.2 ≤ last)
    (hfreed : ∀ p ∈ numbers, s.Free p.1)
    (hlast : ∀ p ∈ what.draws,
      s.Free p.1 ∧ s.rows.nextNumber p.1 ≤ p.2 ∧ p.2 ≤ SEQUENCE_MOST)
    (hkeys : ∀ draws, what = .refused draws → (draws.map Prod.fst).Nodup) :
    s.Sound (s.owe process what) numbers := by
  have hidle' : ∀ key last, ¬ s.Owes process key last := by
    simp [Owes, hidle, Owed.draws]
  refine ⟨⟨hnodup, ?_, ?_, ?_⟩, ⟨h.good, h.copies, ?_, ?_, ?_, ?_⟩, fun _ => le_refl _⟩
  · intro p hp hused
    have hnew := hfresh p hp
    rcases hused with hlt | ⟨q, last, howes, hle⟩
    · omega
    · have := (hfreed p hp q last howes).2
      omega
  · intro p hp
    obtain ⟨last, hmem, hle⟩ := hcovered p hp
    exact Or.inr ⟨process, last, owes_owe.mpr (Or.inl ⟨rfl, hmem⟩), hle⟩
  · intro key n hn
    rcases hn with hlt | ⟨q, last, howes, hle⟩
    · exact Or.inl hlt
    · have hne : q ≠ process := by
        rintro rfl
        exact hidle' _ _ howes
      exact Or.inr ⟨q, last, owes_owe.mpr (Or.inr ⟨hne, howes⟩), hle⟩
  · intro q key last howes
    rcases owes_owe.mp howes with ⟨-, hmem⟩ | ⟨-, howes⟩
    · obtain ⟨-, hlow, hhigh⟩ := hlast _ hmem
      have := (h.good.nextNumber key).1
      simp only at hlow hhigh
      omega
    · exact h.bounds q key last howes
  · intro q draws howed
    rw [owe_owed] at howed
    split at howed
    · exact hkeys draws howed
    · exact h.keys q draws howed
  · intro q key last hover
    have howes : (s.owe process what).Owes q key last := by
      rcases hover with hover | hover
      · exact hover.owes
      · exact hover.1
    rcases owes_owe.mp howes with ⟨-, hmem⟩ | ⟨hne, howes⟩
    · have := (hlast _ hmem).2.1
      simp only [owe_rows] at *
      omega
    · apply h.overwritten q key last
      rcases hover with hover | hover
      · rcases owesRefused_owe.mp hover with ⟨heq, -⟩ | ⟨-, hover⟩
        · exact absurd heq hne
        · exact Or.inl hover
      · exact Or.inr ⟨howes, hover.2⟩
  · intro q other key last last' hne hrefused howes
    rcases owesRefused_owe.mp hrefused with ⟨rfl, draws, rfl, hmem⟩ | ⟨hq, hrefused⟩
    · -- the process that now owes: what another owes lies below the rows
      rcases owes_owe.mp howes with ⟨heq, -⟩ | ⟨-, howes⟩
      · exact absurd heq.symm hne
      · obtain ⟨hfree, hlow, -⟩ := hlast _ hmem
        have hpast : last' < s.rows.nextNumber key := (hfree other last' howes).2
        simp only at hlow
        omega
    · rcases owes_owe.mp howes with ⟨-, hmem⟩ | ⟨-, howes⟩
      · -- a scope a refused request owes is not free, so it was not drawn from
        exact absurd hrefused (((hlast _ hmem).1 q last hrefused.owes).1)
      · exact h.order q other key last last' hne hrefused howes

/-- The rows a process writes at last, and what it no longer owes. -/
theorem Numbering.Accounted.settles {s : Numbering} (h : s.Accounted) {process : Nat}
    {rows : NumberRows} (hgood : rows.Good)
    (hmono : ∀ key, s.rows.nextNumber key ≤ rows.nextNumber key)
    (hwritten : ∀ key last, s.Owes process key last →
      last + 1 ≤ rows.nextNumber key ∧ (Table.get? rows.nextValue key).isSome)
    (hmoved : ∀ key, rows.nextNumber key = s.rows.nextNumber key ∨
      ∃ last, s.Owes process key last ∧ rows.nextNumber key = last + 1)
    (hrow : ∀ key, (Table.get? s.rows.nextValue key).isSome →
      (Table.get? rows.nextValue key).isSome) :
    s.Sound ({ s with rows }.owe process .nothing) [] := by
  have howes : ∀ q key last, ({ s with rows }.owe process .nothing).Owes q key last →
      q ≠ process ∧ s.Owes q key last := by
    intro q key last hq
    rcases owes_owe.mp hq with ⟨-, hmem⟩ | hq
    · simp [Owed.draws] at hmem
    · exact hq
  have hrefused : ∀ q key last, ({ s with rows }.owe process .nothing).OwesRefused q key last →
      q ≠ process ∧ s.OwesRefused q key last := by
    intro q key last hq
    rcases owesRefused_owe.mp hq with ⟨-, draws, heq, -⟩ | hq
    · cases heq
    · exact hq
  refine ⟨Advance.of_subset ?_, ⟨hgood, h.copies, ?_, ?_, ?_, ?_⟩, hmono⟩
  · intro key n hn
    rcases hn with hlt | ⟨q, last, hq, hle⟩
    · exact Or.inl (lt_of_lt_of_le hlt (hmono key))
    · by_cases heq : q = process
      · subst heq
        left
        have := (hwritten key last hq).1
        simp only [owe_rows]
        omega
      · exact Or.inr ⟨q, last, owes_owe.mpr (Or.inr ⟨heq, hq⟩), hle⟩
  · exact fun q key last hq => h.bounds q key last (howes q key last hq).2
  · intro q draws howed
    rw [owe_owed] at howed
    split at howed
    · cases howed
    · exact h.keys q draws howed
  · intro q key last hover
    simp only [owe_rows]
    rcases hover with hq | ⟨hq, hnone⟩
    · obtain ⟨hne, hq⟩ := hrefused q key last hq
      rcases hmoved key with hsame | ⟨last', howed, hnext⟩
      · rw [hsame]
        exact h.overwritten q key last (Or.inl hq)
      · have := h.order q process key last last' hne hq howed
        omega
    · obtain ⟨hne, hq⟩ := howes q key last hq
      simp only [owe_rows] at hnone
      -- a scope with no row yet was not written by this process
      have hsame : rows.nextNumber key = s.rows.nextNumber key := by
        rcases hmoved key with hsame | ⟨last', howed, -⟩
        · exact hsame
        · have := (hwritten key last' howed).2
          simp [hnone] at this
      have hnone' : Table.get? s.rows.nextValue key = none := by
        by_contra hsome
        have := hrow key (Option.isSome_iff_ne_none.mpr hsome)
        simp [hnone] at this
      rw [hsame]
      exact h.overwritten q key last (Or.inr ⟨hq, hnone'⟩)
  · intro q other key last last' hne hq hother
    exact h.order q other key last last' hne (hrefused q key last hq).2
      (howes other key last' hother).2

/-- A refused request's numbers written. -/
theorem Numbering.Accounted.recorded {s : Numbering} (h : s.Accounted) {process : Nat}
    {draws : List (Scope × Int)} (howed : s.owed process = .refused draws) :
    s.Sound ({ s with rows := s.rows.writeSequences draws }.owe process .nothing) [] := by
  have hkeys := h.keys process draws howed
  have howes : ∀ key last, s.Owes process key last ↔ (key, last) ∈ draws := by
    simp [Owes, howed, Owed.draws]
  have hspec := NumberRows.writeSequences_nextNumber hkeys s.rows
  refine h.settles (h.good.writeSequences fun p hp => h.bounds process p.1 p.2 ((howes _ _).mpr hp))
    ?_ ?_ ?_ fun key hrow => NumberRows.writeSequences_row (Or.inl hrow)
  · intro key
    by_cases hmem : ∃ last, (key, last) ∈ draws
    · obtain ⟨last, hmem⟩ := hmem
      rw [(hspec key).1 last hmem]
      exact h.overwritten process key last (Or.inl ⟨draws, howed, hmem⟩)
    · rw [(hspec key).2 fun last h => hmem ⟨last, h⟩]
  · intro key last hq
    have hmem := (howes key last).mp hq
    exact ⟨le_of_eq ((hspec key).1 last hmem).symm,
      NumberRows.writeSequences_row (Or.inr ⟨last, hmem⟩)⟩
  · intro key
    by_cases hmem : ∃ last, (key, last) ∈ draws
    · obtain ⟨last, hmem⟩ := hmem
      exact Or.inr ⟨last, (howes key last).mpr hmem, (hspec key).1 last hmem⟩
    · exact Or.inl ((hspec key).2 fun last h => hmem ⟨last, h⟩)

/-- An aborted batch's numbers written. -/
theorem Numbering.Accounted.kept {s : Numbering} (h : s.Accounted) {process : Nat}
    {draws : Table Scope Int} (howed : s.owed process = .aborted draws) :
    s.Sound ({ s with rows := s.rows.keepDraws draws }.owe process .nothing) [] := by
  have howes : ∀ key last, s.Owes process key last ↔ (key, last) ∈ draws := by
    simp [Owes, howed, Owed.draws]
  have hspec := NumberRows.keepDraws_spec s.rows draws
  refine h.settles (h.good.keepDraws fun p hp => h.bounds process p.1 p.2 ((howes _ _).mpr hp))
    ?_ ?_ ?_ fun key hrow => ((hspec key).2.1 hrow).2
  · intro key
    obtain ⟨hreach, hheld, hmoved, -⟩ := hspec key
    cases hrow : Table.get? s.rows.nextValue key with
    | some n => exact (hheld (by simp [hrow])).1
    | none =>
        rcases hmoved with hsame | ⟨last, hmem, hnext⟩
        · exact le_of_eq hsame.symm
        · rw [hnext]
          exact h.overwritten process key last (Or.inr ⟨(howes key last).mpr hmem, hrow⟩)
  · exact fun key last hq => (hspec key).1 last ((howes key last).mp hq)
  · intro key
    rcases (hspec key).2.2.1 with hsame | ⟨last, hmem, hnext⟩
    · exact Or.inl hsame
    · exact Or.inr ⟨last, (howes key last).mpr hmem, hnext⟩

/-- An import that raises sequences. -/
theorem Numbering.Accounted.imported {s : Numbering} (h : s.Accounted)
    {raised : List (Scope × Int)}
    (hbounds : ∀ p ∈ raised, 0 ≤ p.2 ∧ p.2 ≤ SEQUENCE_MOST) (hclear : s.RaiseClear raised) :
    s.Sound { s with rows := s.rows.keepDraws raised } [] := by
  have hspec := NumberRows.keepDraws_spec s.rows raised
  have hmono : ∀ key, s.rows.nextNumber key ≤ (s.rows.keepDraws raised).nextNumber key := by
    intro key
    obtain ⟨hreach, hheld, hmoved, -⟩ := hspec key
    cases hrow : Table.get? s.rows.nextValue key with
    | some n => exact (hheld (by simp [hrow])).1
    | none =>
        rcases hmoved with hsame | ⟨last, hmem, -⟩
        · exact le_of_eq hsame.symm
        · -- a scope with no row starts at the restore's floor or past it
          obtain hsome | ⟨last', hmem', hfloor⟩ := (hclear key last hmem).2
          · simp [hrow] at hsome
          · have := (hreach last' hmem').1
            simp only [NumberRows.nextNumber, hrow, Option.getD_none] at this ⊢
            omega
  refine h.rows (h.good.keepDraws hbounds)
    (Advance.of_subset fun key n hn => lt_of_lt_of_le hn (hmono key)) (by simp) ?_
  intro process key last hover
  obtain ⟨hreach, -, hmoved, hother⟩ := hspec key
  rcases hover with hrefused | ⟨howes, hnone⟩
  · have hrefused : s.OwesRefused process key last := hrefused
    rcases hmoved with hsame | ⟨last', hmem, hnext⟩
    · rw [hsame]
      exact h.overwritten process key last (Or.inl hrefused)
    · have := (hclear key last' hmem).1 process last hrefused
      omega
  · have habsent : ∀ last', (key, last') ∉ raised := by
      intro last' hmem
      have hsome := (hreach last' hmem).2
      have hnone : Table.get? (s.rows.keepDraws raised).nextValue key = none := hnone
      simp [hnone] at hsome
    obtain ⟨hsame, hrow⟩ := hother habsent
    rw [hsame]
    exact h.overwritten process key last (Or.inr ⟨howes, hrow.symm.trans hnone⟩)

/-- **Step.**  Every permitted step is sound, one case for each kind. -/
theorem Numbering.Accounted.step {s s' : Numbering} {a : NumberStep}
    {numbers : List (Scope × Int)} (h : s.Accounted) (hclear : s.Clear a)
    (hstep : s.step a = some (s', numbers)) : s.Sound s' numbers := by
  cases a with
  | applied p scopes =>
      simp only [Numbering.step] at hstep
      split at hstep
      case h_2 => cases hstep
      case h_1 howed =>
        obtain ⟨rfl, rfl⟩ := Prod.mk.inj (Option.some.inj hstep)
        have hreq := h.good.request_draws scopes
        have hspec := NumberRows.writeSequences_nextNumber hreq.keys s.rows
        refine h.drawn (h.good.writeSequences fun q hq => ?_) hreq.advance hreq.named hclear
          ?_ (fun key hrow => NumberRows.writeSequences_row (Or.inl hrow)) ?_
        · have := hreq.last q hq
          have := (h.good.nextNumber q.1).1
          omega
        · exact fun key hkey => (hspec key).2 fun last hmem => hkey (hreq.last _ hmem).1
        · intro key hne
          by_contra hnone
          refine hne ((hspec key).2 fun last hmem => hnone ?_)
          exact NumberRows.writeSequences_row (Or.inr ⟨last, hmem⟩)
  | imported p raised =>
      simp only [Numbering.step, NumberRows.raiseAll] at hstep
      split at hstep
      case h_2 => cases hstep
      case h_1 howed =>
        split at hstep
        case isFalse => cases hstep
        case isTrue hall =>
          obtain ⟨rfl, rfl⟩ := Prod.mk.inj (Option.some.inj hstep)
          refine h.imported (fun q hq => ?_) hclear
          have := List.all_eq_true.mp hall q hq
          simp only [decide_eq_true_eq] at this
          exact ⟨this.1, this.2.le⟩
  | refused p scopes =>
      simp only [Numbering.step] at hstep
      split at hstep
      case h_2 => cases hstep
      case h_1 howed =>
        obtain ⟨rfl, rfl⟩ := Prod.mk.inj (Option.some.inj hstep)
        have hreq := h.good.request_draws scopes
        split
        case isTrue hempty =>
          -- nothing drawn, so no number either
          have hnone : ((Allocator.read s.rows).drawAll scopes).2 = [] := by
            apply List.eq_nil_iff_forall_not_mem.mpr
            intro q hq
            obtain ⟨last, hmem, -⟩ := hreq.covered q hq
            simp [Allocator.draws, List.isEmpty_iff.mp hempty] at hmem
          rw [hnone]
          exact ⟨Advance.of_subset fun _ => subset_rfl, h, fun _ => le_refl _⟩
        case isFalse =>
          refine h.owes howed hreq.nodup hreq.fresh hreq.covered
            (fun q hq => hclear _ (hreq.named q hq)) (fun q hq => ?_) (fun draws hd => ?_)
          · obtain ⟨hnamed, hlow, hhigh⟩ := hreq.last q hq
            exact ⟨hclear _ hnamed, hlow, hhigh⟩
          · obtain rfl := Owed.refused.inj hd
            exact hreq.keys
  | recorded p =>
      simp only [Numbering.step] at hstep
      split at hstep
      case h_2 => cases hstep
      case h_1 draws howed =>
        obtain ⟨rfl, rfl⟩ := Prod.mk.inj (Option.some.inj hstep)
        exact h.recorded howed
  | committed p requests =>
      simp only [Numbering.step] at hstep
      split at hstep
      case h_2 => cases hstep
      case h_1 howed =>
        obtain ⟨rfl, rfl⟩ := Prod.mk.inj (Option.some.inj hstep)
        have hbatch := h.good.batch [] requests
        exact h.drawn hbatch.good hbatch.advance hbatch.named hclear hbatch.same hbatch.row
          hbatch.written
  | aborted p requests =>
      simp only [Numbering.step] at hstep
      split at hstep
      case h_2 => cases hstep
      case h_1 howed =>
        obtain ⟨rfl, rfl⟩ := Prod.mk.inj (Option.some.inj hstep)
        have hbatch := h.good.batch [] requests
        have hfresh : ∀ q ∈ (runBatch s.rows [] requests).2.2, s.rows.nextNumber q.1 ≤ q.2 := by
          intro q hq
          simpa [NumberRows.used] using hbatch.advance.fresh q hq
        split
        case isTrue hempty =>
          have hnone : (runBatch s.rows [] requests).2.2 = [] := by
            apply List.eq_nil_iff_forall_not_mem.mpr
            intro q hq
            obtain ⟨last, hget, -⟩ := hbatch.covered q hq
            simp [List.isEmpty_iff.mp hempty] at hget
          rw [hnone]
          exact ⟨Advance.of_subset fun _ => subset_rfl, h, fun _ => le_refl _⟩
        case isFalse =>
          refine h.owes howed hbatch.advance.nodup hfresh (fun q hq => ?_)
            (fun q hq => hclear _ (hbatch.named q hq)) (fun q hq => ?_) (fun draws hd => ?_)
          · obtain ⟨last, hget, hle⟩ := hbatch.covered q hq
            exact ⟨last, Table.mem_of_get? hget, hle⟩
          · rcases hbatch.last q hq with hnil | ⟨hnamed, hlow, hhigh⟩
            · cases hnil
            · exact ⟨hclear _ hnamed, hlow, hhigh⟩
          · cases hd
  | kept p =>
      simp only [Numbering.step] at hstep
      split at hstep
      case h_2 => cases hstep
      case h_1 draws howed =>
        obtain ⟨rfl, rfl⟩ := Prod.mk.inj (Option.some.inj hstep)
        exact h.kept howed
  | copied =>
      obtain ⟨rfl, rfl⟩ := Prod.mk.inj (Option.some.inj hstep)
      refine ⟨Advance.of_subset fun _ => subset_rfl, { h with copies := ?_ }, fun _ => le_refl _⟩
      intro copy hcopy
      rcases List.mem_append.mp hcopy with hcopy | hcopy
      · exact h.copies copy hcopy
      · exact List.mem_singleton.mp hcopy ▸ h.good
  | restored i recorded now =>
      simp only [Numbering.step] at hstep
      split at hstep
      case h_2 => cases hstep
      case h_1 copy hcopy =>
        obtain ⟨rows, hrows, heq⟩ := Option.map_eq_some_iff.mp hstep
        obtain ⟨rfl, rfl⟩ := Prod.mk.inj heq
        have hcovers := hclear copy rows hcopy hrows
        have hgood := (h.copies copy (List.mem_of_getElem? hcopy)).restore hrows
        exact h.rows hgood
          (Advance.of_subset fun key n hn => lt_of_lt_of_le hn (hcovers key).1) (by simp)
          fun process key last hover => (hcovers key).2 process last hover

/-- **No number twice.**  Over every run of clear steps from a new store, no
two draws of a scope give the same number, and from any state of the run on
the next number of no scope goes down. -/
theorem numbers_drawn_once {drawn : List (Scope × Int)} {s : Numbering}
    (run : numbering.Path Numbering.Clear .fresh drawn s) :
    drawn.Nodup ∧ ∀ later t, numbering.Path Numbering.Clear s later t →
      ∀ key, s.rows.nextNumber key ≤ t.rows.nextNumber key := by
  let I : Numbering → List (Scope × Int) → Prop := fun u given =>
    u.Accounted ∧ Dispensed u.used given
  have preserved : ∀ u given a v new, I u given → u.Clear a →
      numbering.step u a = some (v, new) → I v (given ++ new) := by
    intro u given a v new hI hclear hstep
    have hsound := hI.1.step hclear hstep
    exact ⟨hsound.accounted, hI.2.advance hsound.advance⟩
  have hend : I s drawn := run.invariant I
    ⟨Numbering.accounted_fresh, Dispensed.nil _⟩ preserved
  refine ⟨hend.2.nodup, fun later t onward => ?_⟩
  refine (Machine.Path.relates I
    (fun u v => ∀ key, u.rows.nextNumber key ≤ v.rows.nextNumber key) (fun _ _ => le_refl _)
    (fun _ _ _ h₁ h₂ key => (h₁ key).trans (h₂ key)) preserved ?_ hend onward).1
  intro u given a v new hI hclear hstep
  exact (hI.1.step hclear hstep).mono

/-- Where no process owes a number, every scope may be drawn from. -/
theorem Numbering.free_of_idle {s : Numbering} (h : ∀ process, s.owed process = .nothing)
    (key : Scope) : s.Free key := by
  intro process last howes
  simp [Owes, h process, Owed.draws] at howes

/-- Tickets numbered in no scope. -/
def ticketNumber : Scope := { sequence := "ticket_number", scope := "" }

/-- A store with one row for tickets. -/
private def ticketRows (next floor : Int) : NumberRows :=
  { nextValue := [(ticketNumber, next)], sequenceFloor := floor }

/-- A store no process owes anything. -/
private def idle (rows : NumberRows) (copies : List NumberRows) : Numbering :=
  { rows, owed := fun _ => .nothing, copies }

/-- A copy restored past what was drawn, then a refused request recorded: the
run is clear, so its two draws differ. -/
theorem numbers_drawn_once_run :
    [(ticketNumber, 1), (ticketNumber, (2001 : Int))].Nodup := by
  have free : ∀ rows copies key, (idle rows copies).Free key := fun _ _ key =>
    Numbering.free_of_idle (fun _ => rfl) key
  have applied : numbering.Path Numbering.Clear .fresh [(ticketNumber, 1)]
      (idle (ticketRows 2 0) []) :=
    Machine.Path.snoc (a := NumberStep.applied 1 [ticketNumber]) Machine.Path.nil
      (fun key _ => free .fresh [] key) rfl
  have copied : numbering.Path Numbering.Clear .fresh [(ticketNumber, 1)]
      (idle (ticketRows 2 0) [ticketRows 2 0]) :=
    Machine.Path.snoc (a := NumberStep.copied) applied trivial rfl
  have restore : restoreCopy (ticketRows 2 0) [] 0 = some (ticketRows 2001 1000) := by decide
  have covers : (idle (ticketRows 2 0) [ticketRows 2 0]).CoversLive (ticketRows 2001 1000) := by
    refine fun key => ⟨?_, fun process last hover => ?_⟩
    · simp only [idle, ticketRows, NumberRows.nextNumber, Table.get?_cons]
      split <;> simp
    · simp [Numbering.Overwrites, Numbering.OwesRefused, Numbering.Owes, Owed.draws, idle]
        at hover
  have restored : numbering.Path Numbering.Clear .fresh [(ticketNumber, 1)]
      (idle (ticketRows 2001 1000) [ticketRows 2 0]) := by
    refine Machine.Path.snoc (a := NumberStep.restored 0 [] 0) copied ?_ ?_
    · intro copy rows hcopy hrows
      obtain rfl := Option.some.inj hcopy
      obtain rfl := Option.some.inj (hrows.symm.trans restore)
      exact covers
    · simp [numbering, Numbering.step, idle, restore]
  have refused := Machine.Path.snoc (a := NumberStep.refused 0 [ticketNumber]) restored
    (fun key _ => free _ _ key) rfl
  exact (numbers_drawn_once refused).1

/-- **The second transaction.**  Between a refused request's rollback and the
transaction that keeps its numbers, another process draws the same ones; the
number written then lowers what the store holds, and one is drawn again. -/
theorem refused_number_drawn_again :
    ¬ ∀ (drawn : List (Scope × Int)) (s : Numbering),
      numbering.Path Machine.anyAction .fresh drawn s →
        drawn.Nodup ∧ ∀ later t, numbering.Path Machine.anyAction s later t →
          ∀ key, s.rows.nextNumber key ≤ t.rows.nextNumber key := by
  intro h
  have run : (numbering.runAll .fresh
      [.refused 0 [ticketNumber], .applied 1 [ticketNumber, ticketNumber], .recorded 0,
        .applied 1 [ticketNumber]]).map Prod.snd =
      some [(ticketNumber, 1), (ticketNumber, 1), (ticketNumber, 2), (ticketNumber, 2)] := by
    decide
  obtain ⟨⟨s, drawn⟩, hrun, rfl⟩ := Option.map_eq_some_iff.mp run
  exact absurd (h _ s (Machine.runAll_path hrun)).1 (by decide)

end ObjectFlow
