import Mathlib.Data.List.Forall2
import Mathlib.Data.List.Sort
import ObjectFlow.Base.Table

/-!
# Two lists read alike

Two lists related entry by entry, and what reads no more of an entry than the
relation fixes: it reads the same of both.  A law over two runs of a program is
proved so, one lemma for each way the program walks a list.
-/

namespace Base

open List

section Related

variable {α β γ : Type*} {R : α → β → Prop} {l : List α} {l' : List β}

/-- Two lists related stand apart at one place of both. -/
theorem split_alike (h : Forall₂ R l l') {n : ℕ} {a : α} (ha : l[n]? = some a) :
    ∃ before after before' b after', l = before ++ a :: after ∧ l' = before' ++ b :: after' ∧
      before.length = n ∧ before'.length = n ∧ Forall₂ R before before' ∧ R a b ∧
        Forall₂ R after after' := by
  induction h generalizing n with
  | nil => cases ha
  | @cons x y rest rest' hxy hrest ih =>
      cases n with
      | zero =>
          cases ha
          exact ⟨[], rest, [], y, rest', rfl, rfl, rfl, rfl, .nil, hxy, hrest⟩
      | succ n =>
          obtain ⟨before, after, before', b, after', hl, hl', hn, hn', hbefore, hab, hafter⟩ := ih ha
          refine ⟨x :: before, after, y :: before', b, after', ?_, ?_, ?_, ?_, .cons hxy hbefore, hab,
            hafter⟩
          · rw [hl, cons_append]
          · rw [hl', cons_append]
          · rw [length_cons, hn]
          · rw [length_cons, hn']

theorem map_alike (h : Forall₂ R l l') {f : α → γ} {g : β → γ}
    (hfg : ∀ a b, R a b → f a = g b) : l.map f = l'.map g := by
  induction h with
  | nil => rfl
  | cons hab _ ih => rw [map_cons, map_cons, hfg _ _ hab, ih]

theorem flatMap_alike (h : Forall₂ R l l') {f : α → List γ} {g : β → List γ}
    (hfg : ∀ a b, R a b → f a = g b) : l.flatMap f = l'.flatMap g := by
  rw [flatMap_def, flatMap_def, map_alike h hfg]

theorem filterMap_alike (h : Forall₂ R l l') {f : α → Option γ} {g : β → Option γ}
    (hfg : ∀ a b, R a b → f a = g b) : l.filterMap f = l'.filterMap g := by
  induction h with
  | nil => rfl
  | cons hab _ ih => rw [filterMap_cons, filterMap_cons, hfg _ _ hab, ih]

theorem filter_alike (h : Forall₂ R l l') {p : α → Bool} {q : β → Bool}
    (hpq : ∀ a b, R a b → p a = q b) : Forall₂ R (l.filter p) (l'.filter q) := by
  induction h with
  | nil => exact .nil
  | @cons a b _ _ hab _ ih =>
      rw [filter_cons, filter_cons, hpq a b hab]
      split
      · exact .cons hab ih
      · exact ih

theorem find?_alike (h : Forall₂ R l l') {p : α → Bool} {q : β → Bool}
    (hpq : ∀ a b, R a b → p a = q b) : Option.Rel R (l.find? p) (l'.find? q) := by
  induction h with
  | nil => exact .none
  | @cons a b _ _ hab _ ih =>
      rw [find?_cons, find?_cons, hpq a b hab]
      split
      · exact .some hab
      · exact ih

theorem getLast?_alike (h : Forall₂ R l l') : Option.Rel R l.getLast? l'.getLast? := by
  rw [← head?_reverse, ← head?_reverse]
  have hrev := forall₂_reverse_iff.mpr h
  generalize l.reverse = first, l'.reverse = second at hrev
  cases hrev with
  | nil => exact .none
  | cons hab _ => exact .some hab

theorem any_alike (h : Forall₂ R l l') {p : α → Bool} {q : β → Bool}
    (hpq : ∀ a b, R a b → p a = q b) : l.any p = l'.any q := by
  induction h with
  | nil => rfl
  | cons hab _ ih => rw [any_cons, any_cons, hpq _ _ hab, ih]

/-- Entries kept by a predicate and changed: those that differ are left out or
changed into the same. -/
theorem filter_map_alike (h : Forall₂ R l l') {p : α → Bool} {q : β → Bool} {f : α → γ} {g : β → γ}
    (hpq : ∀ a b, R a b → p a = q b) (hfg : ∀ a b, R a b → p a = true → f a = g b) :
    (l.filter p).map f = (l'.filter q).map g := by
  induction h with
  | nil => rfl
  | @cons a b _ _ hab _ ih =>
      rw [filter_cons, filter_cons, ← hpq a b hab]
      by_cases hp : p a = true
      · rw [if_pos hp, if_pos hp, map_cons, map_cons, hfg a b hab hp, ih]
      · rw [if_neg hp, if_neg hp, ih]

theorem optionMap_alike {o : Option α} {o' : Option β} (h : Option.Rel R o o') {f : α → γ}
    {g : β → γ} (hfg : ∀ a b, R a b → f a = g b) : o.map f = o'.map g := by
  cases h with
  | some hab => exact congrArg some (hfg _ _ hab)
  | none => rfl

theorem optionBind_alike {o : Option α} {o' : Option β} (h : Option.Rel R o o')
    {f : α → Option γ} {g : β → Option γ} (hfg : ∀ a b, R a b → f a = g b) :
    o.bind f = o'.bind g := by
  cases h with
  | some hab => exact hfg _ _ hab
  | none => rfl

theorem optionAny_alike {o : Option α} {o' : Option β} (h : Option.Rel R o o') {p : α → Bool}
    {q : β → Bool} (hpq : ∀ a b, R a b → p a = q b) : o.any p = o'.any q := by
  cases h with
  | some hab => exact hpq _ _ hab
  | none => rfl

end Related

/-- **Sorted views.**  Two lists that one view shows the same are shown the same
sorted by what the view shows. -/
theorem sorted_alike {α β γ : Type*} {r : γ → γ → Prop} [DecidableRel r] {l : List α} {l' : List β}
    {f : α → γ} {g : β → γ} (h : l.map f = l'.map g) :
    (l.insertionSort fun a b => r (f a) (f b)).map f =
      (l'.insertionSort fun a b => r (g a) (g b)).map g := by
  rw [map_insertionSort (fun a b => r (f a) (f b)) r f l fun _ _ _ _ => Iff.rfl, h]
  exact (map_insertionSort (fun a b => r (g a) (g b)) r g l' fun _ _ _ _ => Iff.rfl).symm

/-! ### Tables alike but at some keys -/

variable {κ ν : Type*}

/-- Tables with the same keys in the same order, their values differing at most
at the keys given. -/
def AlikeBut (p : κ → Prop) : Table κ ν → Table κ ν → Prop :=
  Forall₂ fun a b => a.1 = b.1 ∧ (a.2 = b.2 ∨ p a.1)

theorem AlikeBut.refl (p : κ → Prop) (t : Table κ ν) : AlikeBut p t t :=
  forall₂_same.mpr fun _ _ => ⟨rfl, .inl rfl⟩

theorem AlikeBut.keys {p : κ → Prop} {t t' : Table κ ν} (h : AlikeBut p t t') :
    Table.keys t = Table.keys t' :=
  map_alike h fun _ _ hab => hab.1

/-- Without the keys they may differ at, they are the same. -/
theorem AlikeBut.filter_eq {p : κ → Prop} {t t' : Table κ ν} (h : AlikeBut p t t') {q : κ → Bool}
    (hq : ∀ k, p k → q k = false) : (t.filter fun e => q e.1) = t'.filter fun e => q e.1 := by
  induction h with
  | nil => rfl
  | @cons a b _ _ hab _ ih =>
      obtain ⟨k, v⟩ := a
      obtain ⟨k', v'⟩ := b
      obtain ⟨hk, hv⟩ := hab
      obtain rfl : k = k' := hk
      rw [filter_cons, filter_cons, ih]
      rcases hv with hv | hp
      · obtain rfl : v = v' := hv
        rfl
      · rw [hq k hp]
        rfl

theorem get?_alike [DecidableEq κ] {R : κ → ν → ν → Prop} {t t' : Table κ ν}
    (h : Forall₂ (fun a b => a.1 = b.1 ∧ R a.1 a.2 b.2) t t') (key : κ) :
    Option.Rel (R key) (Table.get? t key) (Table.get? t' key) := by
  induction h with
  | nil => exact .none
  | @cons a b _ _ hab _ ih =>
      obtain ⟨k, v⟩ := a
      obtain ⟨k', v'⟩ := b
      obtain ⟨hk, hv⟩ := hab
      obtain rfl : k = k' := hk
      rw [Table.get?_cons, Table.get?_cons]
      split
      · rename_i hkey
        exact .some (hkey ▸ hv)
      · exact ih

end Base
