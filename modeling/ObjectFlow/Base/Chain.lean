import Mathlib.Logic.Relation

/-!
# Links that never come back

Each thing names at most one other, its next, and some of them are ended.  A
link is written on an ended thing, and towards one that had none when that thing
ended; an ended thing keeps its link, and gains none towards it.  Then links
never come back to where they are followed from, however their writes are
nested.
-/

namespace Base

open Relation

variable {α : Type}

/-- What each thing names as its next, and which things are ended. -/
structure Chains (α : Type) where
  next : α → Option α
  ended : α → Prop

namespace Chains

/-- One thing names another. -/
def Links (c : Chains α) (x y : α) : Prop := c.next x = some y

/-- Only what is ended names a next, and no chain comes back. -/
structure Sound (c : Chains α) : Prop where
  ended : ∀ {x y}, c.Links x y → c.ended x
  acyclic : ∀ x, ¬ TransGen c.Links x x

/-- What is ended stays so, keeps what it names, and is named by none besides
those that named it. -/
structure Grows (c d : Chains α) : Prop where
  ended : ∀ {x}, c.ended x → d.ended x
  kept : ∀ {x}, c.ended x → d.next x = c.next x
  into : ∀ {x y}, c.ended y → d.Links x y → c.Links x y

variable {c d e : Chains α} {a b : α}

theorem Grows.refl (c : Chains α) : c.Grows c := ⟨id, fun _ => rfl, fun _ => id⟩

theorem Grows.trans (h : c.Grows d) (h' : d.Grows e) : c.Grows e where
  ended := fun hx => h'.ended (h.ended hx)
  kept := fun hx => (h'.kept (h.ended hx)).trans (h.kept hx)
  into := fun hy hxy => h.into hy (h'.into (h.ended hy) hxy)

/-- What led to an ended thing is all that leads to it later. -/
theorem Grows.leads (h : c.Grows d) (hc : c.Sound) {x y : α} (hy : c.ended y)
    (hxy : TransGen d.Links x y) : TransGen c.Links x y := by
  induction hxy using TransGen.head_induction_on with
  | single hlink => exact .single (h.into hy hlink)
  | head hlink _ ih =>
      -- what follows leads on from a thing with a link, which is ended
      obtain ⟨z, hnext, -⟩ := TransGen.head'_iff.mp ih
      exact .head (h.into (hc.ended hnext) hlink) ih

/-- With fewer links, still on ended things, no chain comes back. -/
theorem Sound.fewer (hc : c.Sound) (hended : ∀ {x y}, d.Links x y → d.ended x)
    (hfewer : ∀ {x y}, d.Links x y → c.Links x y) : d.Sound where
  ended := hended
  acyclic := by
    have hsub : d.Links ≤ c.Links := fun x y => hfewer
    exact fun x hx => hc.acyclic x (TransGen.mono hsub x x hx)

/-- One link written: `a` names `b` now, and nothing else has changed. -/
structure Written (c d : Chains α) (a b : α) : Prop where
  ended : ∀ x, d.ended x ↔ c.ended x
  next : d.next a = some b
  others : ∀ x, x ≠ a → d.next x = c.next x

/-- A chain after a link is written went on before it, or goes through it. -/
theorem Written.leads (h : Written c d a b) {x y : α} (hxy : TransGen d.Links x y) :
    TransGen c.Links x y ∨ ReflTransGen c.Links x a ∧ ReflTransGen c.Links b y := by
  have hstep : ∀ x y, d.Links x y → c.Links x y ∨ x = a ∧ y = b := by
    intro x y hlink
    by_cases hx : x = a
    · subst hx
      exact .inr ⟨rfl, Option.some.inj (hlink.symm.trans h.next)⟩
    · exact .inl ((h.others x hx).symm.trans hlink)
  induction hxy with
  | single hlink =>
      rcases hstep _ _ hlink with hold | ⟨rfl, rfl⟩
      · exact .inl (.single hold)
      · exact .inr ⟨.refl, .refl⟩
  | tail _ hlink ih =>
      rcases hstep _ _ hlink with hold | ⟨rfl, rfl⟩
      · rcases ih with hbefore | ⟨hto, hfrom⟩
        · exact .inl (hbefore.tail hold)
        · exact .inr ⟨hto, hfrom.tail hold⟩
      · rcases ih with hbefore | ⟨hto, -⟩
        · exact .inr ⟨hbefore.to_reflTransGen, .refl⟩
        · exact .inr ⟨hto, .refl⟩

/-- **A link written on an ended thing**, towards another that named none when
that thing was ended already, makes no chain come back. -/
theorem Sound.written (hc : c.Sound) (hd : d.Sound) (hgrows : c.Grows d) (ha : c.ended a)
    (hb : c.next b = none) (hne : b ≠ a) (h : Written d e a b) : e.Sound where
  ended := by
    intro x y hlink
    by_cases hx : x = a
    · rw [h.ended, hx]
      exact hgrows.ended ha
    · rw [h.ended]
      exact hd.ended ((h.others x hx).symm.trans hlink)
  acyclic := by
    intro x hx
    rcases h.leads hx with hbefore | ⟨hto, hfrom⟩
    · exact hd.acyclic x hbefore
    · -- then `b` led to `a` before, and named something as `a` ended
      have hback : TransGen d.Links b a := by
        rcases reflTransGen_iff_eq_or_transGen.mp (hfrom.trans hto) with heq | hback
        · exact absurd heq.symm hne
        · exact hback
      obtain ⟨z, hnext, -⟩ := TransGen.head'_iff.mp (hgrows.leads hc ha hback)
      rw [Links, hb] at hnext
      cases hnext

/-- A link between two things that were not ended is none of what is kept. -/
theorem Grows.written (h : c.Grows d) (ha : ¬ c.ended a) (hb : ¬ c.ended b)
    (hwritten : Written d e a b) : c.Grows e where
  ended := fun hx => (hwritten.ended _).mpr (h.ended hx)
  kept := by
    intro x hx
    have hne : x ≠ a := fun heq => ha (heq ▸ hx)
    exact (hwritten.others x hne).trans (h.kept hx)
  into := by
    intro x y hy hlink
    by_cases hx : x = a
    · subst hx
      have heq : b = y := Option.some.inj (hwritten.next.symm.trans hlink)
      exact absurd (heq ▸ hy) hb
    · exact h.into hy ((hwritten.others x hx).symm.trans hlink)

end Chains

end Base
