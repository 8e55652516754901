import ObjectFlow.Base.Noted

/-!
# Computations alike but for their notes

Two computations that end alike and whose notes stand in a relation, unless the
second has noted something that excuses them.  Where the relation holds of any
notes with themselves and of notes put together, and an excuse once noted stays
one, this passes through every way of putting computations together.
-/

namespace Base

namespace Noted

variable {ν ε α β : Type}

/-- What is asked of the notes of two computations: a relation, and what
excuses them of it. -/
structure Terms (ν : Type) where
  related : List ν → List ν → Prop
  excused : List ν → Prop
  refl : ∀ ns, related ns ns
  append : ∀ {ns ns' ms ms'}, related ns ns' → related ms ms' → related (ns ++ ms) (ns' ++ ms')
  excused_left : ∀ {ns} ms, excused ns → excused (ns ++ ms)
  excused_right : ∀ ns {ms}, excused ms → excused (ns ++ ms)

/-- Two computations that end alike, their notes related, unless the second's
notes excuse them. -/
def Concurs (terms : Terms ν) (x y : Noted ν ε α) : Prop :=
  terms.excused y.notes ∨ (x.outcome = y.outcome ∧ terms.related x.notes y.notes)

section Rules

variable {terms : Terms ν}

theorem Concurs.refl (x : Noted ν ε α) : Concurs terms x x := .inr ⟨rfl, terms.refl _⟩

theorem Concurs.of_eq {x y : Noted ν ε α} (h : x = y) : Concurs terms x y := by
  rw [h]
  exact Concurs.refl y

/-- Two computations alike that nothing excuses end alike. -/
theorem Concurs.ends {x y : Noted ν ε α} (h : Concurs terms x y) (hnot : ¬ terms.excused y.notes) :
    x.outcome = y.outcome ∧ terms.related x.notes y.notes :=
  h.resolve_left hnot

/-- **Sequences are alike** where their parts are, the second after the value
the first ends in. -/
theorem Concurs.bind {x y : Noted ν ε α} {f g : α → Noted ν ε β} (h : Concurs terms x y)
    (h' : ∀ a, y.outcome = .ok a → Concurs terms (f a) (g a)) :
    Concurs terms (x >>= f) (y >>= g) := by
  cases hy : y.outcome with
  | error e =>
      rw [bind_of_error hy]
      rcases h with hexcused | ⟨houtcome, hnotes⟩
      · exact .inl hexcused
      · rw [bind_of_error (houtcome.trans hy)]
        exact .inr ⟨rfl, hnotes⟩
  | ok a =>
      rw [bind_of_ok hy]
      rcases h with hexcused | ⟨houtcome, hnotes⟩
      · exact .inl (terms.excused_left _ hexcused)
      · rw [bind_of_ok (houtcome.trans hy)]
        rcases h' a hy with hexcused | ⟨hrest, hmore⟩
        · exact .inl (terms.excused_right _ hexcused)
        · exact .inr ⟨hrest, terms.append hnotes hmore⟩

/-- What follows the same computation. -/
theorem Concurs.after {x : Noted ν ε α} {f g : α → Noted ν ε β}
    (h : ∀ a, x.outcome = .ok a → Concurs terms (f a) (g a)) : Concurs terms (x >>= f) (x >>= g) :=
  Concurs.bind (Concurs.refl x) h

theorem Concurs.attempt {x y : Noted ν ε α} (h : Concurs terms x y) :
    Concurs terms x.attempt y.attempt := by
  rcases h with hexcused | ⟨houtcome, hnotes⟩
  · exact .inl hexcused
  · exact .inr ⟨congrArg Except.ok houtcome, hnotes⟩

theorem Concurs.forM {f g : α → Noted ν ε Unit} (items : List α)
    (h : ∀ a ∈ items, Concurs terms (f a) (g a)) :
    Concurs terms (items.forM f) (items.forM g) := by
  induction items with
  | nil => exact Concurs.refl _
  | cons a rest ih =>
      apply Concurs.bind (h a List.mem_cons_self)
      intro _ _
      exact ih fun b hb => h b (List.mem_cons_of_mem _ hb)

end Rules

end Noted

end Base
