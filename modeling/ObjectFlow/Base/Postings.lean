import Mathlib.Data.Finset.Sort
import ObjectFlow.Base.Paging
import ObjectFlow.Base.Table

/-!
# An index kept as its entries change

Entries stand in numbered slots, and an index holds, for each key, the slots
whose entry it keys.  It is not rebuilt when an entry is added or replaced: each
slot replaced is noted, and the index, when next read, keys the slots added and
those noted since it last was.  Read after that it holds each slot under the
keys of what the slot holds now, as one built afresh would.
-/

namespace Base

variable {κ α : Type*} [DecidableEq κ]

/-- Slots by key, with the keys each slot is held under. -/
structure Postings (κ : Type*) where
  byKey : Table κ (Finset ℕ) := []
  keyOf : Table ℕ (List κ) := []

namespace Postings

variable (p : Postings κ) (n : ℕ)

/-- The slots held under a key. -/
def under (k : κ) : Finset ℕ := (Table.get? p.byKey k).getD ∅

/-- The keys a slot is held under. -/
def keys : List κ := (Table.get? p.keyOf n).getD []

/-- The slots by key with a slot taken out under some of them. -/
def takenOut (byKey : Table κ (Finset ℕ)) (olds : List κ) : Table κ (Finset ℕ) :=
  olds.foldl (fun t old =>
    match Table.get? t old with
    | some slots => Table.put t old (slots.erase n)
    | none => t) byKey

/-- The slots by key with a slot put under some of them. -/
def putUnder (byKey : Table κ (Finset ℕ)) (news : List κ) : Table κ (Finset ℕ) :=
  news.foldl (fun t k => Table.put t k (insert n ((Table.get? t k).getD ∅))) byKey

/-- A slot keyed anew: taken out under its old keys and put under its new
ones. -/
def rekey (news : List κ) : Postings κ where
  byKey := putUnder n (takenOut n p.byKey (p.keys n)) news
  keyOf :=
    if news.isEmpty then Table.erase p.keyOf n else Table.put (Table.erase p.keyOf n) n news

/-- A slot is held under a key where the key is one of its own. -/
def Coherent : Prop := ∀ k n, n ∈ p.under k ↔ k ∈ p.keys n

theorem mem_takenOut (byKey : Table κ (Finset ℕ)) (olds : List κ) (k : κ) (m : ℕ) :
    m ∈ (Table.get? (takenOut n byKey olds) k).getD ∅ ↔
      m ∈ (Table.get? byKey k).getD ∅ ∧ ¬ (m = n ∧ k ∈ olds) := by
  induction olds generalizing byKey with
  | nil => simp [takenOut]
  | cons old rest ih =>
      rw [takenOut, List.foldl_cons, ← takenOut, ih]
      cases hold : Table.get? byKey old with
      | none =>
          by_cases hk : k = old
          · subst hk
            simp [hold]
          · simp [hk]
      | some slots =>
          by_cases hk : old = k
          · subst hk
            simp only [hold, Table.get?_put, if_true, Option.getD_some, Finset.mem_erase,
              List.mem_cons, true_or, and_true]
            grind
          · simp [hk, Ne.symm hk]

theorem mem_putUnder (byKey : Table κ (Finset ℕ)) (news : List κ) (k : κ) (m : ℕ) :
    m ∈ (Table.get? (putUnder n byKey news) k).getD ∅ ↔
      m ∈ (Table.get? byKey k).getD ∅ ∨ m = n ∧ k ∈ news := by
  induction news generalizing byKey with
  | nil => simp [putUnder]
  | cons new rest ih =>
      rw [putUnder, List.foldl_cons, ← putUnder, ih, Table.get?_put]
      by_cases hk : new = k
      · subst hk
        simp only [if_true, Option.getD_some, Finset.mem_insert, List.mem_cons, true_or, and_true]
        grind
      · simp [hk, Ne.symm hk]

@[simp] theorem keys_rekey (news : List κ) (m : ℕ) :
    (p.rekey n news).keys m = if m = n then news else p.keys m := by
  unfold rekey keys
  dsimp only
  by_cases hm : m = n
  · subst hm
    cases news <;> simp
  · cases news <;> simp [hm, Ne.symm hm]

variable {p} in
/-- **Keying a slot anew** leaves every slot held under its own keys. -/
theorem Coherent.rekey (h : p.Coherent) (news : List κ) : (p.rekey n news).Coherent := by
  intro k m
  have hheld := h k m
  rw [keys_rekey]
  unfold under at hheld ⊢
  rw [Postings.rekey, mem_putUnder, mem_takenOut, hheld]
  by_cases hm : m = n
  · subst hm
    simp
  · simp [hm]

end Postings

/-- An index read up to some of the slots and of the replacements noted. -/
structure Column (κ : Type*) extends Postings κ where
  slots : ℕ := 0
  changes : ℕ := 0

namespace Column

variable (column : Column κ) (keysOf : α → List κ) (entries : List α) (changed : List ℕ)

/-- A slot keyed as the entry it holds now is. -/
def key (n : ℕ) : Column κ :=
  { column with toPostings := column.rekey n ((entries[n]?.map keysOf).getD []) }

/-- The slots added since the index was last read keyed, then those replaced
since. -/
def caughtUp : Column κ :=
  let fresh := changed.drop column.changes
  let added := (List.range' column.slots (entries.length - column.slots)).foldl
    (fun c n => c.key keysOf entries n) column
  { fresh.foldl (fun c n => c.key keysOf entries n) added with
    slots := entries.length, changes := changed.length }

/-- Whether an index holds a slot under the keys of what the slot holds. -/
def Fresh (n : ℕ) : Prop := column.keys n = (entries[n]?.map keysOf).getD []

/-- **What holds of an index between reads**: each slot it has read is held
under the keys of its entry, or its replacement is still to be read. -/
structure Behind : Prop where
  coherent : column.Coherent
  slots_le : column.slots ≤ entries.length
  changes_le : column.changes ≤ changed.length
  unread : ∀ n, column.slots ≤ n → column.keys n = []
  fresh : ∀ n < column.slots, column.Fresh keysOf entries n ∨ n ∈ changed.drop column.changes

/-- An index that holds every slot under the keys of its entry, and nothing
else. -/
structure Exact : Prop where
  coherent : column.Coherent
  fresh : ∀ n, column.Fresh keysOf entries n

variable {column keysOf entries changed}

theorem behind_empty : ({} : Column κ).Behind keysOf entries changed where
  coherent k n := by simp [Postings.under, Postings.keys]
  slots_le := Nat.zero_le _
  changes_le := Nat.zero_le _
  unread _ _ := rfl
  fresh n hn := absurd hn (Nat.not_lt_zero n)

/-- An entry in a new slot is still to be read. -/
theorem Behind.push (h : column.Behind keysOf entries changed) (a : α) :
    column.Behind keysOf (entries ++ [a]) changed where
  coherent := h.coherent
  slots_le := by
    rw [List.length_append]
    exact Nat.le_add_right_of_le h.slots_le
  changes_le := h.changes_le
  unread := h.unread
  fresh n hn := by
    have hlt := Nat.lt_of_lt_of_le hn h.slots_le
    have hread := h.fresh n hn
    unfold Fresh at hread ⊢
    rwa [List.getElem?_append_left hlt]

/-- An entry changed, and its slot noted, is still to be read. -/
theorem Behind.change (h : column.Behind keysOf entries changed) (n : ℕ) (f : α → α) :
    column.Behind keysOf (entries.modify n f) (changed ++ [n]) where
  coherent := h.coherent
  slots_le := by
    rw [List.length_modify]
    exact h.slots_le
  changes_le := by
    rw [List.length_append]
    exact Nat.le_add_right_of_le h.changes_le
  unread := h.unread
  fresh m hm := by
    rw [List.drop_append_of_le_length h.changes_le, List.mem_append, List.mem_singleton]
    by_cases hmn : m = n
    · exact .inr (.inr hmn)
    · rcases h.fresh m hm with hfresh | hlater
      · refine .inl ?_
        unfold Fresh at hfresh ⊢
        rwa [List.getElem?_modify_ne f entries (Ne.symm hmn)]
      · exact .inr (.inl hlater)

theorem fresh_key (n m : ℕ) (h : m = n ∨ column.Fresh keysOf entries m) :
    (column.key keysOf entries n).Fresh keysOf entries m := by
  unfold Fresh at h ⊢
  rw [key, Postings.keys_rekey]
  split
  case isTrue hm => rw [hm]
  case isFalse hm => exact h.resolve_left hm

/-- Slots noted whose entries stand as they were. -/
theorem Behind.noted (h : column.Behind keysOf entries changed) (ns : List ℕ) :
    column.Behind keysOf entries (changed ++ ns) where
  coherent := h.coherent
  slots_le := h.slots_le
  changes_le := by
    rw [List.length_append]
    exact Nat.le_add_right_of_le h.changes_le
  unread := h.unread
  fresh m hm := by
    rw [List.drop_append_of_le_length h.changes_le, List.mem_append]
    exact (h.fresh m hm).imp_right .inl

variable (keysOf entries) in
/-- Slots keyed one after another are held under the keys of their entries, and
those so held before still are. -/
theorem foldl_key (ns : List ℕ) (h : column.Coherent) :
    let out := ns.foldl (fun c n => c.key keysOf entries n) column
    out.Coherent ∧
      ∀ m, m ∈ ns ∨ column.Fresh keysOf entries m → out.Fresh keysOf entries m := by
  induction ns generalizing column with
  | nil => exact ⟨h, fun m hm => hm.resolve_left (List.not_mem_nil)⟩
  | cons n rest ih =>
      have hnext : (column.key keysOf entries n).Coherent := h.rekey n _
      obtain ⟨hcoherent, hfresh⟩ := ih hnext
      refine ⟨hcoherent, fun m hm => hfresh m ?_⟩
      rw [List.mem_cons] at hm
      by_cases hrest : m ∈ rest
      · exact .inl hrest
      · exact .inr (fresh_key n m (by grind))

/-- **Catching up** leaves an index that holds each slot under the keys of what
it holds now. -/
theorem Behind.caughtUp (h : column.Behind keysOf entries changed) :
    (column.caughtUp keysOf entries changed).Exact keysOf entries := by
  obtain ⟨hadded, hfirst⟩ := foldl_key keysOf entries
    (List.range' column.slots (entries.length - column.slots)) h.coherent
  obtain ⟨hcoherent, hsecond⟩ := foldl_key keysOf entries
    (changed.drop column.changes) hadded
  refine ⟨hcoherent, fun n => hsecond n ?_⟩
  by_cases hread : n < column.slots
  · rcases h.fresh n hread with hfresh | hlater
    · exact .inr (hfirst n (.inr hfresh))
    · exact .inl hlater
  · refine .inr (hfirst n ?_)
    by_cases hheld : n < entries.length
    · exact .inl (List.mem_range'_1.mpr (by omega))
    · refine .inr ?_
      rw [Fresh, h.unread n (by omega), List.getElem?_eq_none (by omega)]
      rfl

/-- An index that is exact has nothing still to be read. -/
theorem Behind.of_caughtUp (h : column.Behind keysOf entries changed) :
    (column.caughtUp keysOf entries changed).Behind keysOf entries changed where
  coherent := h.caughtUp.coherent
  slots_le := Nat.le_refl _
  changes_le := Nat.le_refl _
  unread n hn := by
    rw [h.caughtUp.fresh n, List.getElem?_eq_none hn]
    rfl
  fresh n _ := .inl (h.caughtUp.fresh n)

/-- The slots an exact index holds under a key are those of the entries it
keys. -/
theorem Exact.mem_under (h : column.Exact keysOf entries) {k : κ} {n : ℕ} :
    n ∈ column.under k ↔ ∃ a, entries[n]? = some a ∧ k ∈ keysOf a := by
  rw [h.coherent k n, h.fresh n]
  cases entries[n]? <;> simp

end Column

/-- The entries of a list's slots, in their order, are the list. -/
theorem filterMap_range (entries : List α) :
    (List.range entries.length).filterMap (entries[·]?) = entries := by
  induction entries with
  | nil => rfl
  | cons a rest ih =>
      rw [List.length_cons, List.range_succ_eq_map, List.filterMap_cons, List.filterMap_map]
      exact congrArg (a :: ·) ih

/-- The entries of some slots, in the order of the slots, are the entries
selected, where the slots are those of the entries selected. -/
theorem filterMap_sort {entries : List α} {p : α → Bool} {found : Finset ℕ}
    (h : ∀ n, n ∈ found ↔ ∃ a, entries[n]? = some a ∧ p a = true) :
    (found.sort (· ≤ ·)).filterMap (entries[·]?) = entries.filter p := by
  have hsorted : Ascending id (found.sort (· ≤ ·)) := found.sortedLT_sort.pairwise
  have hrange : Ascending id ((List.range entries.length).filter fun n => (entries[n]?).any p) :=
    List.pairwise_lt_range.filter _
  have hsort : found.sort (· ≤ ·) = (List.range entries.length).filter fun n =>
      (entries[n]?).any p := by
    refine hrange.ext hsorted fun n => ?_
    rw [Finset.mem_sort, h, List.mem_filter, List.mem_range, Option.any_eq_true]
    exact ⟨fun ⟨a, ha, hp⟩ => ⟨(List.getElem?_eq_some_iff.mp ha).1, a, ha, hp⟩, fun ⟨_, ha⟩ => ha⟩
  calc (found.sort (· ≤ ·)).filterMap (entries[·]?)
      = (List.range entries.length).filterMap fun n => (entries[n]?).filter p := by
        rw [hsort, List.filterMap_filter]
        refine List.filterMap_congr fun n _ => ?_
        cases entries[n]? with
        | none => rfl
        | some a => simp [Option.filter_some]
    _ = ((List.range entries.length).filterMap (entries[·]?)).filter p := by
        rw [List.filter_filterMap]
    _ = entries.filter p := by rw [filterMap_range]

end Base
