import Mathlib.Data.List.Basic
import Mathlib.Control.Basic

/-!
# Computations that take notes

A computation that reads a fixed state, notes what it came across and ends in
a value or an error.  The notes taken before an error are kept with it.
-/

namespace Base

/-- What goes on from a value there is. -/
theorem ok_of_bind {α β ε : Type} {x : Except ε α} {f : α → Except ε β} {b : β}
    (h : (x >>= f) = .ok b) : ∃ a, x = .ok a ∧ f a = .ok b := by
  cases x with
  | error e => cases h
  | ok a => exact ⟨a, rfl, h⟩

/-- What a computation noted, in order, and how it ended. -/
structure Noted (ν ε α : Type) where
  notes : List ν
  outcome : Except ε α

namespace Noted

variable {ν ε α β : Type}

instance : Monad (Noted ν ε) where
  pure a := ⟨[], .ok a⟩
  bind x f :=
    match x.outcome with
    | .error e => ⟨x.notes, .error e⟩
    | .ok a => ⟨x.notes ++ (f a).notes, (f a).outcome⟩

/-- Something noted. -/
def note (n : ν) : Noted ν ε Unit := ⟨[n], .ok ()⟩

/-- Several things noted. -/
def noteAll (ns : List ν) : Noted ν ε Unit := ⟨ns, .ok ()⟩

/-- An end in an error. -/
def fail (e : ε) : Noted ν ε α := ⟨[], .error e⟩

/-- A computation that notes nothing. -/
def lift (x : Except ε α) : Noted ν ε α := ⟨[], x⟩

/-- A computation that keeps only the notes asked for. -/
def keeping (p : ν → Bool) (x : Noted ν ε α) : Noted ν ε α :=
  ⟨x.notes.filter p, x.outcome⟩

/-- A computation whose end, whichever it is, is its value. -/
def attempt (x : Noted ν ε α) : Noted ν ε (Except ε α) := ⟨x.notes, .ok x.outcome⟩

@[simp] theorem pure_notes (a : α) : (pure a : Noted ν ε α).notes = [] := rfl

@[simp] theorem pure_outcome (a : α) : (pure a : Noted ν ε α).outcome = .ok a := rfl

@[simp] theorem note_notes (n : ν) : (note n : Noted ν ε Unit).notes = [n] := rfl

@[simp] theorem note_outcome (n : ν) : (note n : Noted ν ε Unit).outcome = .ok () := rfl

@[simp] theorem noteAll_outcome (ns : List ν) :
    (noteAll ns : Noted ν ε Unit).outcome = .ok () := rfl

@[simp] theorem fail_notes (e : ε) : (fail e : Noted ν ε α).notes = [] := rfl

@[simp] theorem fail_outcome (e : ε) : (fail e : Noted ν ε α).outcome = .error e := rfl

@[simp] theorem keeping_outcome (p : ν → Bool) (x : Noted ν ε α) :
    (x.keeping p).outcome = x.outcome := rfl

@[simp] theorem attempt_notes (x : Noted ν ε α) : x.attempt.notes = x.notes := rfl

/-- What follows a value. -/
theorem bind_of_ok {x : Noted ν ε α} {a : α} (h : x.outcome = .ok a) (f : α → Noted ν ε β) :
    x >>= f = ⟨x.notes ++ (f a).notes, (f a).outcome⟩ := by
  show (match x.outcome with
    | .error e => (⟨x.notes, .error e⟩ : Noted ν ε β)
    | .ok a => ⟨x.notes ++ (f a).notes, (f a).outcome⟩) = _
  rw [h]

/-- Nothing follows an error. -/
theorem bind_of_error {x : Noted ν ε α} {e : ε} (h : x.outcome = .error e)
    (f : α → Noted ν ε β) : x >>= f = ⟨x.notes, .error e⟩ := by
  show (match x.outcome with
    | .error e => (⟨x.notes, .error e⟩ : Noted ν ε β)
    | .ok a => ⟨x.notes ++ (f a).notes, (f a).outcome⟩) = _
  rw [h]

@[simp] theorem pure_bind (a : α) (f : α → Noted ν ε β) : (pure a : Noted ν ε α) >>= f = f a := by
  rw [bind_of_ok (pure_outcome a)]
  simp

/-- **A sequence ends in a value** where each of its two parts does. -/
theorem bind_outcome_ok {x : Noted ν ε α} {f : α → Noted ν ε β} {b : β} :
    (x >>= f).outcome = .ok b ↔ ∃ a, x.outcome = .ok a ∧ (f a).outcome = .ok b := by
  cases hx : x.outcome with
  | error e => simp [bind_of_error hx]
  | ok a => simp [bind_of_ok hx]

/-- A sequence notes what its parts do. -/
theorem mem_bind_notes {x : Noted ν ε α} {f : α → Noted ν ε β} {n : ν}
    (h : n ∈ (x >>= f).notes) :
    n ∈ x.notes ∨ ∃ a, x.outcome = .ok a ∧ n ∈ (f a).notes := by
  cases hx : x.outcome with
  | error e =>
      rw [bind_of_error hx] at h
      exact .inl h
  | ok a =>
      rw [bind_of_ok hx] at h
      rcases List.mem_append.mp h with hfirst | hlast
      · exact .inl hfirst
      · exact .inr ⟨a, rfl, hlast⟩

end Noted

end Base
