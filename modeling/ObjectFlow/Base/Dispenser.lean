import Mathlib.Data.Set.Basic
import Mathlib.Data.List.Nodup

/-!
# Dispensers

A dispenser gives out elements per key, and what matters is that none is given
twice.  The argument needs no counter: a set for each key accounts for all that
was given, the next elements come from outside it, and it only grows.
-/

namespace Base

variable {κ ν : Type*}

/-- What was given out is without repetition and inside its accounted sets. -/
structure Dispensed (used : κ → Set ν) (given : List (κ × ν)) : Prop where
  nodup : given.Nodup
  accounted : ∀ p ∈ given, p.2 ∈ used p.1

/-- Elements given out between two accounts: each new at the first, held by
the second, and the account only grows. -/
structure Advance (used used' : κ → Set ν) (new : List (κ × ν)) : Prop where
  nodup : new.Nodup
  fresh : ∀ p ∈ new, p.2 ∉ used p.1
  accounted : ∀ p ∈ new, p.2 ∈ used' p.1
  grows : ∀ k, used k ⊆ used' k

/-- Nothing has been given out. -/
theorem Dispensed.nil (used : κ → Set ν) : Dispensed used [] :=
  ⟨List.nodup_nil, by simp⟩

/-- Giving nothing out, with an account that grows. -/
theorem Advance.of_subset {used used' : κ → Set ν} (h : ∀ k, used k ⊆ used' k) :
    Advance used used' [] :=
  ⟨List.nodup_nil, by simp, by simp, h⟩

/-- Lists inside an account and outside it share nothing. -/
private theorem disjoint_of_account {used : κ → Set ν} {given new : List (κ × ν)}
    (inside : ∀ p ∈ given, p.2 ∈ used p.1) (outside : ∀ p ∈ new, p.2 ∉ used p.1) :
    given.Disjoint new := by
  intro p hgiven hnew
  exact outside p hnew (inside p hgiven)

/-- Two advances in turn. -/
theorem Advance.trans {used used' used'' : κ → Set ν} {first second : List (κ × ν)}
    (h₁ : Advance used used' first) (h₂ : Advance used' used'' second) :
    Advance used used'' (first ++ second) where
  nodup := List.Nodup.append h₁.nodup h₂.nodup
    (disjoint_of_account h₁.accounted h₂.fresh)
  fresh p hp := by
    rcases List.mem_append.mp hp with hp | hp
    · exact h₁.fresh p hp
    · exact fun hused => h₂.fresh p hp (h₁.grows p.1 hused)
  accounted p hp := by
    rcases List.mem_append.mp hp with hp | hp
    · exact h₂.grows p.1 (h₁.accounted p hp)
    · exact h₂.accounted p hp
  grows k := (h₁.grows k).trans (h₂.grows k)

/-- **Step rule.**  An advance keeps what was given out free of repetition. -/
theorem Dispensed.advance {used used' : κ → Set ν} {given new : List (κ × ν)}
    (h : Dispensed used given) (step : Advance used used' new) :
    Dispensed used' (given ++ new) where
  nodup := List.Nodup.append h.nodup step.nodup
    (disjoint_of_account h.accounted step.fresh)
  accounted p hp := by
    rcases List.mem_append.mp hp with hp | hp
    · exact step.grows p.1 (h.accounted p hp)
    · exact step.accounted p hp

end Base
