import Mathlib.Data.List.Basic
import Mathlib.Control.Basic

/-!
# Programs over a state that may stop

A program runs in a state, ends in a value or stops with a reason, and leaves
a state either way.  What it is known to do is a relation between the state it
starts in and the one a value leaves it in: `Advances R` says each run that
ends in a value relates the two.  For a reflexive and transitive relation the
rule passes through every way of putting programs together, so a long program
advances it as soon as the few steps that change the state do.
-/

namespace Base

/-- A program over a state, which may stop. -/
def Program (σ ε α : Type) := σ → Except ε α × σ

namespace Program

variable {σ ε α β : Type}

instance : Monad (Program σ ε) where
  pure a := fun s => (.ok a, s)
  bind p f := fun s =>
    match p s with
    | (.ok a, t) => f a t
    | (.error e, t) => (.error e, t)

/-- The state read. -/
def read (f : σ → α) : Program σ ε α := fun s => (.ok (f s), s)

/-- A computation over the state as it stands, which may stop. -/
def check (f : σ → Except ε α) : Program σ ε α := fun s => (f s, s)

/-- The state changed. -/
def modify (f : σ → σ) : Program σ ε Unit := fun s => (.ok (), f s)

/-- A value drawn from the state. -/
def draw (f : σ → α × σ) : Program σ ε α := fun s => (.ok (f s).1, (f s).2)

/-- A stop. -/
def stop (e : ε) : Program σ ε α := fun s => (.error e, s)

/-- A program whose reason to stop is told another way. -/
def mapStop (f : ε → ε) (p : Program σ ε α) : Program σ ε α := fun s =>
  match p s with
  | (.ok a, t) => (.ok a, t)
  | (.error e, t) => (.error (f e), t)

/-- A program whose reason to stop is told from the state it leaves. -/
def tellStop (f : σ → ε → ε) (p : Program σ ε α) : Program σ ε α := fun s =>
  match p s with
  | (.ok a, t) => (.ok a, t)
  | (.error e, t) => (.error (f t e), t)

theorem bind_run (p : Program σ ε α) (f : α → Program σ ε β) (s : σ) :
    (p >>= f) s =
      match p s with
      | (.ok a, t) => f a t
      | (.error e, t) => (.error e, t) := rfl

/-- **A sequence ends in a value** where each of its parts does, the second
from where the first left off. -/
theorem bind_ok {p : Program σ ε α} {f : α → Program σ ε β} {s u : σ} {b : β}
    (h : (p >>= f) s = (.ok b, u)) : ∃ a t, p s = (.ok a, t) ∧ f a t = (.ok b, u) := by
  rw [bind_run] at h
  rcases hp : p s with ⟨_ | a, t⟩
  · rw [hp] at h
    cases h
  · rw [hp] at h
    exact ⟨a, t, rfl, h⟩

theorem check_ok {f : σ → Except ε α} {s t : σ} {a : α} (h : check f s = (.ok a, t)) :
    f s = .ok a ∧ t = s := by
  obtain ⟨hvalue, hstate⟩ := Prod.mk.inj h
  exact ⟨hvalue, hstate.symm⟩

/-- What follows a computation over the state goes on from that state. -/
theorem check_bind_ok {f : σ → Except ε α} {g : α → Program σ ε β} {s u : σ} {b : β}
    (h : (check f >>= g) s = (.ok b, u)) : ∃ a, f s = .ok a ∧ g a s = (.ok b, u) := by
  obtain ⟨a, t, hcheck, hg⟩ := bind_ok h
  obtain ⟨hvalue, hstate⟩ := check_ok hcheck
  exact ⟨a, hvalue, hstate ▸ hg⟩

theorem mapStop_ok {g : ε → ε} {p : Program σ ε α} {s u : σ} {a : α}
    (h : p.mapStop g s = (.ok a, u)) : p s = (.ok a, u) := by
  unfold mapStop at h
  rcases hp : p s with ⟨_ | b, t⟩
  · rw [hp] at h
    cases h
  · rw [hp] at h
    cases h
    rfl

theorem tellStop_ok {g : σ → ε → ε} {p : Program σ ε α} {s u : σ} {a : α}
    (h : p.tellStop g s = (.ok a, u)) : p s = (.ok a, u) := by
  unfold tellStop at h
  rcases hp : p s with ⟨_ | b, t⟩
  · rw [hp] at h
    cases h
  · rw [hp] at h
    cases h
    rfl

/-- Every run that ends in a value relates where it starts to where it
leaves. -/
def Advances (R : σ → σ → Prop) (p : Program σ ε α) : Prop :=
  ∀ s a t, p s = (.ok a, t) → R s t

section Rules

variable {R : σ → σ → Prop}

theorem Advances.pure (refl : ∀ s, R s s) (a : α) :
    Advances R (Pure.pure a : Program σ ε α) := by
  rintro s b t h
  cases h
  exact refl s

theorem Advances.read (refl : ∀ s, R s s) (f : σ → α) :
    Advances R (Program.read f : Program σ ε α) := by
  rintro s b t h
  cases h
  exact refl s

theorem Advances.check (refl : ∀ s, R s s) (f : σ → Except ε α) :
    Advances R (Program.check f) := by
  rintro s b t h
  obtain ⟨_, rfl⟩ := check_ok h
  exact refl _

theorem Advances.stop (e : ε) : Advances R (Program.stop e : Program σ ε α) := by
  rintro s b t h
  cases h

theorem Advances.modify {f : σ → σ} (h : ∀ s, R s (f s)) :
    Advances R (Program.modify f : Program σ ε Unit) := by
  rintro s b t hrun
  cases hrun
  exact h s

theorem Advances.draw {f : σ → α × σ} (h : ∀ s, R s (f s).2) :
    Advances R (Program.draw f : Program σ ε α) := by
  rintro s b t hrun
  cases hrun
  exact h s

theorem Advances.bind (trans : ∀ s t u, R s t → R t u → R s u) {p : Program σ ε α}
    {f : α → Program σ ε β} (hp : Advances R p) (hf : ∀ a, Advances R (f a)) :
    Advances R (p >>= f) := by
  intro s b u h
  obtain ⟨a, t, hpt, hfu⟩ := bind_ok h
  exact trans _ _ _ (hp s a t hpt) (hf a t b u hfu)

theorem Advances.mapStop {g : ε → ε} {p : Program σ ε α} (hp : Advances R p) :
    Advances R (p.mapStop g) :=
  fun s a t h => hp s a t (mapStop_ok h)

theorem Advances.tellStop {g : σ → ε → ε} {p : Program σ ε α} (hp : Advances R p) :
    Advances R (p.tellStop g) :=
  fun s a t h => hp s a t (tellStop_ok h)

/-- A loop advances what each of its turns does. -/
theorem Advances.forM (refl : ∀ s, R s s) (trans : ∀ s t u, R s t → R t u → R s u)
    {f : α → Program σ ε Unit} (items : List α) (h : ∀ a ∈ items, Advances R (f a)) :
    Advances R (items.forM f) := by
  induction items with
  | nil => exact Advances.pure refl ()
  | cons a rest ih =>
      have hrest := ih fun b hb => h b (List.mem_cons_of_mem _ hb)
      exact Advances.bind trans (h a (by simp)) fun _ => hrest

end Rules

/-- Every run that ends, ends in a value of which something holds. -/
def Yields (P : α → Prop) (p : Program σ ε α) : Prop := ∀ s a t, p s = (.ok a, t) → P a

theorem Yields.pure {P : α → Prop} {a : α} (h : P a) :
    Yields P (Pure.pure a : Program σ ε α) := by
  rintro s b t hrun
  cases hrun
  exact h

theorem Yields.bind {P : β → Prop} {p : Program σ ε α} {f : α → Program σ ε β}
    (h : ∀ a, Yields P (f a)) : Yields P (p >>= f) := by
  intro s b u hrun
  obtain ⟨a, t, -, hfu⟩ := bind_ok hrun
  exact h a t b u hfu

end Program

end Base
