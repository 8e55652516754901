import ObjectFlow.Base.Program

/-!
# Programs given enough turns

A program defined by recursion on the turns it is given stops for want of one
where they run out.  It has enough where each turn is paid for by what its state
has left: `SpendsAt k` says that from one state the program does not run out, and
leaves at least `k` less.  The rules pass through sequences, so a recursion has
enough turns as soon as each of its calls is paid for.
-/

namespace Base.Program

variable {σ ε α β : Type} {left : σ → Nat} {inv : σ → Prop} {out : ε → Prop}

/-- From one state, a program does not stop for a reason that is out of turns,
and ends where the invariant holds and at least so much less is left. -/
structure SpendsAt (left : σ → Nat) (inv : σ → Prop) (out : ε → Prop) (k : Nat)
    (p : Program σ ε α) (s : σ) : Prop where
  finished : ∀ e t, p s = (.error e, t) → ¬ out e
  spends : ∀ a t, p s = (.ok a, t) → inv t ∧ left t + k ≤ left s

theorem SpendsAt.mono {k k' : Nat} {p : Program σ ε α} {s : σ} (h : SpendsAt left inv out k p s)
    (hk : k' ≤ k) : SpendsAt left inv out k' p s where
  finished := h.finished
  spends := by
    intro a t hrun
    obtain ⟨hinv, hleft⟩ := h.spends a t hrun
    exact ⟨hinv, by omega⟩

theorem SpendsAt.pure {a : α} {s : σ} (hs : inv s) :
    SpendsAt left inv out 0 (Pure.pure a : Program σ ε α) s where
  finished := by
    intro e t hrun
    cases hrun
  spends := by
    intro b t hrun
    cases hrun
    exact ⟨hs, Nat.le_refl _⟩

/-- A program that stops, and not out of turns. -/
theorem SpendsAt.stopped {k : Nat} {p : Program σ ε α} {s : σ} {e : ε}
    (hrun : p s = (.error e, s)) (he : ¬ out e) : SpendsAt left inv out k p s where
  finished := by
    intro e' t hrun'
    rw [hrun] at hrun'
    cases hrun'
    exact he
  spends := by
    intro a t hrun'
    rw [hrun] at hrun'
    cases hrun'

/-- **A sequence has enough turns** where its parts do, the second of what the
first leaves. -/
theorem SpendsAt.bind {j k : Nat} {p : Program σ ε α} {q : α → Program σ ε β} {s : σ}
    (hp : SpendsAt left inv out j p s)
    (hq : ∀ a t, p s = (.ok a, t) → inv t → left t + j ≤ left s → SpendsAt left inv out k (q a) t) :
    SpendsAt left inv out (j + k) (p >>= q) s where
  finished := by
    intro e u hrun
    rw [bind_run] at hrun
    rcases hps : p s with ⟨_ | a, t⟩
    · rw [hps] at hrun
      cases hrun
      exact hp.finished _ _ hps
    · rw [hps] at hrun
      obtain ⟨hinv, hleft⟩ := hp.spends a t hps
      exact (hq a t hps hinv hleft).finished e u hrun
  spends := by
    intro b u hrun
    obtain ⟨a, t, hpt, hqu⟩ := bind_ok hrun
    obtain ⟨hinv, hleft⟩ := hp.spends a t hpt
    obtain ⟨hinv', hleft'⟩ := (hq a t hpt hinv hleft).spends b u hqu
    exact ⟨hinv', by omega⟩

/-- What follows the state read, from that state. -/
theorem SpendsAt.read {k : Nat} {r : σ → α} {q : α → Program σ ε β} {s : σ}
    (h : SpendsAt left inv out k (q (r s)) s) :
    SpendsAt left inv out k (Program.read r >>= q) s :=
  ⟨h.finished, h.spends⟩

end Base.Program
