import Mathlib.Data.List.Basic
import Mathlib.Order.Basic

/-!
# Runs of a machine with observable output

A machine takes one labelled action at a time.  An action may be impossible in
a state, and one that happens may emit observations.  A `Path` is a finite
run between two states, each of whose actions meets a side condition `ok`;
the vacuous condition gives every run.

The rules below are the only ones used afterwards: paths compose, an invariant
that each permitted action preserves holds along a path, and a relation that
each permitted action respects is respected by the path as a whole.
-/

namespace Base

/-- A deterministic machine: what an action does to a state and what it emits,
none where the action cannot happen there. -/
structure Machine (σ α ω : Type*) where
  step : σ → α → Option (σ × List ω)

namespace Machine

variable {σ α ω : Type*}

/-- A finite run of `M` from one state to another, every action of which meets
`ok` in the state it is taken in, with all it emitted in order. -/
inductive Path (M : Machine σ α ω) (ok : σ → α → Prop) (s : σ) :
    List ω → σ → Prop
  | nil : Path M ok s [] s
  | snoc {middle finish : σ} {emitted new : List ω} {a : α}
      (before : Path M ok s emitted middle)
      (permitted : ok middle a)
      (taken : M.step middle a = some (finish, new)) :
      Path M ok s (emitted ++ new) finish

/-- The condition every action meets. -/
def anyAction : σ → α → Prop := fun _ _ => True

/-- Two runs that meet compose, and so do their observations. -/
theorem Path.trans {M : Machine σ α ω} {ok : σ → α → Prop} {s t u : σ}
    {first second : List ω}
    (h₁ : Path M ok s first t) (h₂ : Path M ok t second u) :
    Path M ok s (first ++ second) u := by
  induction h₂ with
  | nil => simpa using h₁
  | snoc before permitted taken ih =>
      rw [← List.append_assoc]
      exact Path.snoc ih permitted taken

/-- Weakening the side condition keeps every run. -/
theorem Path.mono {M : Machine σ α ω} {ok ok' : σ → α → Prop} {s t : σ}
    {emitted : List ω} (himp : ∀ u a, ok u a → ok' u a)
    (h : Path M ok s emitted t) : Path M ok' s emitted t := by
  induction h with
  | nil => exact Path.nil
  | snoc before permitted taken ih =>
      exact Path.snoc ih (himp _ _ permitted) taken

/-- **Invariant rule.**  What holds at the start with nothing emitted, and is
preserved by each permitted action, holds at the end of every run. -/
theorem Path.invariant {M : Machine σ α ω} {ok : σ → α → Prop} {s : σ}
    (I : σ → List ω → Prop) (base : I s [])
    (preserved : ∀ u emitted a v new, I u emitted → ok u a →
      M.step u a = some (v, new) → I v (emitted ++ new))
    {t : σ} {emitted : List ω} (h : Path M ok s emitted t) : I t emitted := by
  induction h with
  | nil => exact base
  | snoc before permitted taken ih => exact preserved _ _ _ _ _ ih permitted taken

/-- **Two-state rule.**  A reflexive and transitive relation that each
permitted action respects, from states that keep an invariant, relates the
ends of every run. -/
theorem Path.relates {M : Machine σ α ω} {ok : σ → α → Prop}
    (I : σ → List ω → Prop) (R : σ → σ → Prop)
    (refl : ∀ u, R u u) (trans : ∀ u v w, R u v → R v w → R u w)
    (preserved : ∀ u emitted a v new, I u emitted → ok u a →
      M.step u a = some (v, new) → I v (emitted ++ new))
    (respected : ∀ u emitted a v new, I u emitted → ok u a →
      M.step u a = some (v, new) → R u v)
    {s t : σ} {earlier later : List ω} (hs : I s earlier)
    (h : Path M ok s later t) : R s t ∧ I t (earlier ++ later) := by
  induction h with
  | nil => exact ⟨refl s, by simpa using hs⟩
  | @snoc middle finish emitted new a before permitted taken ih =>
      obtain ⟨hR, hI⟩ := ih
      refine ⟨trans _ _ _ hR (respected _ _ _ _ _ hI permitted taken), ?_⟩
      rw [← List.append_assoc]
      exact preserved _ _ _ _ _ hI permitted taken

/-- The run of a list of actions, none where one of them cannot happen. -/
def runAll (M : Machine σ α ω) : σ → List α → Option (σ × List ω)
  | s, [] => some (s, [])
  | s, a :: rest =>
      match M.step s a with
      | none => none
      | some (t, new) => (runAll M t rest).map fun (u, later) => (u, new ++ later)

/-- What `runAll` computes is a run. -/
theorem runAll_path {M : Machine σ α ω} {s t : σ} {acts : List α}
    {emitted : List ω} (h : M.runAll s acts = some (t, emitted)) :
    Path M anyAction s emitted t := by
  induction acts generalizing s t emitted with
  | nil =>
      obtain ⟨rfl, rfl⟩ : s = t ∧ [] = emitted := by simpa [runAll] using h
      exact Path.nil
  | cons a rest ih =>
      cases hstep : M.step s a with
      | none => simp [runAll, hstep] at h
      | some next =>
          obtain ⟨u, new⟩ := next
          simp only [runAll, hstep, Option.map_eq_some_iff, Prod.mk.injEq] at h
          obtain ⟨⟨v, later⟩, hrest, rfl, rfl⟩ := h
          have first : Path M anyAction s ([] ++ new) u :=
            Path.snoc Path.nil trivial hstep
          exact Path.trans (by simpa using first) (ih hrest)

/-- Two machines' outcomes of one action: neither can take it, or both do, to
states related, and emit the same. -/
def Alike {σ' : Type*} (R : σ → σ' → Prop) : Option (σ × List ω) → Option (σ' × List ω) → Prop
  | none, none => True
  | some (s, emitted), some (t, emitted') => R s t ∧ emitted = emitted'
  | _, _ => False

/-- **Machines alike step by step** are alike over every list of actions. -/
theorem runAll_alike {σ' : Type*} {M : Machine σ α ω} {N : Machine σ' α ω} {R : σ → σ' → Prop}
    (hstep : ∀ s t a, R s t → Alike R (M.step s a) (N.step t a)) {s : σ} {t : σ'} (h : R s t)
    (acts : List α) : Alike R (M.runAll s acts) (N.runAll t acts) := by
  induction acts generalizing s t with
  | nil => exact ⟨h, rfl⟩
  | cons a rest ih =>
      have hfirst := hstep s t a h
      unfold runAll
      cases hM : M.step s a with
      | none =>
          cases hN : N.step t a with
          | none => trivial
          | some next => simp [hM, hN, Alike] at hfirst
      | some next =>
          cases hN : N.step t a with
          | none => simp [hM, hN, Alike] at hfirst
          | some next' =>
              rw [hM, hN] at hfirst
              obtain ⟨hrelated, hemitted⟩ := hfirst
              have hrest := ih hrelated
              dsimp only
              cases hMrest : M.runAll next.1 rest with
              | none =>
                  cases hNrest : N.runAll next'.1 rest with
                  | none => trivial
                  | some last => simp [hMrest, hNrest, Alike] at hrest
              | some last =>
                  cases hNrest : N.runAll next'.1 rest with
                  | none => simp [hMrest, hNrest, Alike] at hrest
                  | some last' =>
                      rw [hMrest, hNrest] at hrest
                      exact ⟨hrest.1, by rw [hemitted, hrest.2]⟩

end Machine

end Base
