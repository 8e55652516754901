import Mathlib.Data.List.Basic
import Mathlib.Data.List.Perm.Basic

/-!
# Values behind counted pointers

A value is held in a cell, and each pointer to it counted there.  A change
through a pointer is made in place where the cell has no other, and otherwise in
a copy the pointer goes to instead.  Where each count is of the pointers there
are, a change through one is read through no other.
-/

namespace Base

/-- A value, and how many pointers there are to it. -/
structure Cell (τ : Type*) where
  value : τ
  count : ℕ

/-- The cells made, each at the place it was made. -/
abbrev Heap (τ : Type*) := List (Cell τ)

namespace Heap

variable {τ : Type*} (heap : Heap τ)

/-- The value a pointer leads to. -/
def read (a : ℕ) : Option τ := heap[a]?.map Cell.value

/-- How many pointers a cell counts. -/
def counted (a : ℕ) : ℕ := (heap[a]?.map Cell.count).getD 0

/-- A new cell, with one pointer to it. -/
def alloc (v : τ) : Heap τ × ℕ := (heap ++ [⟨v, 1⟩], heap.length)

/-- Another pointer to a cell. -/
def retain (a : ℕ) : Heap τ := heap.modify a fun c => { c with count := c.count + 1 }

/-- A pointer to a cell given up. -/
def release (a : ℕ) : Heap τ := heap.modify a fun c => { c with count := c.count - 1 }

/-- A value changed through a pointer, in place where there is no other, and in a
copy where there is. -/
def makeMut (a : ℕ) (f : τ → τ) : Heap τ × ℕ :=
  if heap.counted a = 1 then (heap.modify a fun c => { c with value := f c.value }, a)
  else
    match heap.read a with
    | some v => (heap.release a).alloc (f v)
    | none => (heap, a)

/-- Each cell counts the pointers there are to it. -/
def Counts (pointers : List ℕ) : Prop := ∀ a, heap.counted a = pointers.count a

variable {heap} {pointers : List ℕ} {a : ℕ}

theorem Counts.perm {pointers' : List ℕ} (h : heap.Counts pointers)
    (hperm : pointers'.Perm pointers) : heap.Counts pointers' := by
  intro a
  rw [h a, hperm.count_eq]

theorem counted_pos (h : 0 < heap.counted a) : a < heap.length := by
  by_contra hlarge
  simp [counted, List.getElem?_eq_none (Nat.le_of_not_lt hlarge)] at h

/-- A pointer leads to a cell. -/
theorem Counts.lt (h : heap.Counts pointers) (ha : a ∈ pointers) : a < heap.length := by
  refine counted_pos ?_
  rw [h a]
  exact List.count_pos_iff.mpr ha

theorem counted_modify (f : Cell τ → Cell τ) (b : ℕ) :
    counted (heap.modify a f) b =
      if a = b then (heap[b]?.map fun c => (f c).count).getD 0 else heap.counted b := by
  unfold counted
  rw [List.getElem?_modify]
  by_cases hab : a = b <;> cases heap[b]? <;> simp [hab]

theorem read_modify (f : Cell τ → Cell τ) (b : ℕ) :
    read (heap.modify a f) b =
      if a = b then heap[b]?.map fun c => (f c).value else heap.read b := by
  unfold read
  rw [List.getElem?_modify]
  by_cases hab : a = b <;> cases heap[b]? <;> simp [hab]

@[simp] theorem read_retain (b : ℕ) : (heap.retain a).read b = heap.read b := by
  rw [retain, read_modify]
  split <;> rfl

@[simp] theorem read_release (b : ℕ) : (heap.release a).read b = heap.read b := by
  rw [release, read_modify]
  split <;> rfl

/-- **A pointer copied** is counted. -/
theorem Counts.retain (h : heap.Counts pointers) (ha : a ∈ pointers) :
    (heap.retain a).Counts (a :: pointers) := by
  intro b
  have hlt := h.lt ha
  have hcounts := h b
  rw [Heap.retain, counted_modify, List.count_cons]
  by_cases hab : a = b
  · subst hab
    rw [if_pos rfl, ← hcounts]
    simp [counted, List.getElem?_eq_getElem hlt]
  · simp [hab, hcounts]

/-- **A pointer given up** is counted no more. -/
theorem Counts.release (h : heap.Counts (a :: pointers)) : (heap.release a).Counts pointers := by
  intro b
  have hlt := h.lt List.mem_cons_self
  have hcounts := h b
  rw [Heap.release, counted_modify]
  rw [List.count_cons] at hcounts
  by_cases hab : a = b
  · subst hab
    rw [if_pos rfl]
    simp only [counted, List.getElem?_eq_getElem hlt, Option.map_some, Option.getD_some,
      beq_self_eq_true, if_true] at hcounts ⊢
    omega
  · simpa [hab] using hcounts

/-- **A value put behind a pointer** is read through it, and every other value as
it was. -/
theorem Counts.alloc (h : heap.Counts pointers) (v : τ) :
    (heap.alloc v).1.Counts ((heap.alloc v).2 :: pointers) ∧
      (heap.alloc v).1.read (heap.alloc v).2 = some v ∧
        ∀ b ∈ pointers, (heap.alloc v).1.read b = heap.read b := by
  have hnew : pointers.count heap.length = 0 := by
    rw [List.count_eq_zero]
    exact fun hmem => Nat.lt_irrefl _ (h.lt hmem)
  refine ⟨fun b => ?_, by simp [Heap.alloc, read], fun b hb => ?_⟩
  · have hcounts := h b
    unfold Heap.alloc
    rw [List.count_cons]
    rcases Nat.lt_trichotomy b heap.length with hlt | heq | hgt
    · rw [← hcounts]
      simp only [counted, List.getElem?_append_left hlt]
      simp [(Nat.ne_of_lt hlt).symm]
    · subst heq
      simp [counted, hnew]
    · rw [← hcounts]
      have hnone : (heap ++ [⟨v, 1⟩])[b]? = none :=
        List.getElem?_eq_none (by rw [List.length_append]; exact hgt)
      simp [counted, hnone, List.getElem?_eq_none (Nat.le_of_lt hgt), Nat.ne_of_lt hgt]
  · simp [Heap.alloc, read, List.getElem?_append_left (h.lt hb)]

/-- **A change through a pointer** is read through it, and through no other. -/
theorem Counts.makeMut (h : heap.Counts (a :: pointers)) (f : τ → τ) :
    (heap.makeMut a f).1.Counts ((heap.makeMut a f).2 :: pointers) ∧
      (heap.makeMut a f).1.read (heap.makeMut a f).2 = (heap.read a).map f ∧
        ∀ b ∈ pointers, (heap.makeMut a f).1.read b = heap.read b := by
  have hlt := h.lt List.mem_cons_self
  have hread : heap.read a = some heap[a].value := by simp [read, hlt]
  unfold Heap.makeMut
  split
  case isTrue hone =>
    -- the only pointer there is: no other leads to the cell changed
    have hcount := h a
    rw [hone, List.count_cons_self] at hcount
    have hother : a ∉ pointers := List.count_eq_zero.mp (by omega)
    refine ⟨fun b => ?_, ?_, fun b hb => ?_⟩
    · rw [counted_modify, ← h b]
      split
      · rfl
      · rfl
    · rw [read_modify, if_pos rfl, read]
      cases heap[a]? <;> rfl
    · have hab : a ≠ b := fun heq => hother (heq ▸ hb)
      rw [read_modify, if_neg hab]
  case isFalse =>
    rw [hread]
    dsimp only
    obtain ⟨hcounts, hnew, hkept⟩ := h.release.alloc (f heap[a].value)
    refine ⟨hcounts, hnew, fun b hb => ?_⟩
    rw [hkept b hb, read_release]

/-- Pointers copied, one after another. -/
theorem Counts.retainAll (h : heap.Counts pointers) {l : List ℕ} (hl : ∀ a ∈ l, a ∈ pointers) :
    (l.foldl Heap.retain heap).Counts (l ++ pointers) ∧
      ∀ b, (l.foldl Heap.retain heap).read b = heap.read b := by
  induction l generalizing heap pointers with
  | nil => exact ⟨h, fun b => rfl⟩
  | cons a rest ih =>
      have hfirst := h.retain (hl a List.mem_cons_self)
      obtain ⟨hcounts, hread⟩ := ih hfirst fun b hb =>
        List.mem_cons_of_mem _ (hl b (List.mem_cons_of_mem _ hb))
      refine ⟨hcounts.perm ?_, fun b => ?_⟩
      · exact List.perm_middle.symm
      · rw [List.foldl_cons, hread, read_retain]

/-- Pointers given up, one after another. -/
theorem Counts.releaseAll {l : List ℕ} (h : heap.Counts (l ++ pointers)) :
    (l.foldl Heap.release heap).Counts pointers ∧
      ∀ b, (l.foldl Heap.release heap).read b = heap.read b := by
  induction l generalizing heap with
  | nil => exact ⟨h, fun b => rfl⟩
  | cons a rest ih =>
      have hfirst : (heap.release a).Counts (rest ++ pointers) := Counts.release h
      obtain ⟨hcounts, hread⟩ := ih hfirst
      refine ⟨hcounts, fun b => ?_⟩
      rw [List.foldl_cons, hread, read_release]

/-- The pointers of a list lead to the values of another, each to its own. -/
def Leads (heap : Heap τ) (ptrs : List ℕ) (l : List τ) : Prop :=
  List.Forall₂ (fun p v => heap.read p = some v) ptrs l

/-- Pointers lead where they led while what they read stands. -/
theorem Leads.frame {heap' : Heap τ} {ptrs : List ℕ} {l : List τ} (h : heap.Leads ptrs l)
    (hsame : ∀ p ∈ ptrs, heap'.read p = heap.read p) : heap'.Leads ptrs l := by
  induction h with
  | nil => exact .nil
  | cons hread _ ih =>
      exact .cons ((hsame _ List.mem_cons_self).trans hread)
        (ih fun p hp => hsame p (List.mem_cons_of_mem _ hp))

/-- What pointers read is what they lead to. -/
theorem Leads.filterMap {ptrs : List ℕ} {l : List τ} (h : heap.Leads ptrs l) :
    ptrs.filterMap heap.read = l := by
  induction h with
  | nil => rfl
  | cons hread _ ih => rw [List.filterMap_cons_some hread, ih]

theorem Leads.getElem? {ptrs : List ℕ} {l : List τ} (h : heap.Leads ptrs l) (n : ℕ) :
    (ptrs[n]?).bind heap.read = l[n]? := by
  induction h generalizing n with
  | nil => rfl
  | cons hread _ ih =>
      cases n with
      | zero => exact hread
      | succ n => exact ih n

end Heap

end Base
