import ObjectFlow.Base.Program

/-!
# Programs that mirror one another

Two programs over one state mirror one another, from the states where an
invariant holds, where the second ends in what the first's value is read as, in
the same state, and fails where the first fails, for whatever reason; and the
invariant holds where they end.  Which reasons to stop are failures is given: of
a stop for want of turns nothing is said, and a program known not to stop so is
mirrored whole.
-/

namespace Base.Program

variable {σ ε α β γ κ : Type} {fails : ε → Prop} {inv : σ → Prop}

/-- A run that stops for a reason that fails. -/
def Fails (fails : ε → Prop) (p : Program σ ε α) (s : σ) : Prop :=
  ∃ e t, p s = (.error e, t) ∧ fails e

/-- A program that ends where an invariant holds, if it begins so. -/
def Keeps (inv : σ → Prop) (p : Program σ ε α) : Prop := Advances (fun s t => inv s → inv t) p

/-- From one state, the second program ends where the first does, in what its
value is read as, and fails where it fails. -/
structure MirrorsAt (fails : ε → Prop) (inv : σ → Prop) (f : α → β) (p : Program σ ε α)
    (q : Program σ ε β) (s : σ) : Prop where
  value : ∀ a t, p s = (.ok a, t) → q s = (.ok (f a), t)
  fail : Fails fails p s → Fails fails q s
  keeps : ∀ a t, p s = (.ok a, t) → inv t

/-- The second program mirrors the first, from every state where the invariant
holds. -/
def Mirrors (fails : ε → Prop) (inv : σ → Prop) (f : α → β) (p : Program σ ε α)
    (q : Program σ ε β) : Prop :=
  ∀ s, inv s → MirrorsAt fails inv f p q s

theorem Mirrors.refl {p : Program σ ε α} (h : Keeps inv p) : Mirrors fails inv id p p :=
  fun s hs => ⟨fun _ _ => id, id, fun a t hrun => h s a t hrun hs⟩

theorem Mirrors.pure {f : α → β} {a : α} {b : β} (h : b = f a) :
    Mirrors fails inv f (Pure.pure a : Program σ ε α) (Pure.pure b) := by
  refine fun s hs => ⟨?_, ?_, ?_⟩
  · intro a t hrun
    cases hrun
    rw [h]
    rfl
  · rintro ⟨e, t, hrun, -⟩
    cases hrun
  · intro a t hrun
    cases hrun
    exact hs

/-- Programs that end in no value, and fail alike. -/
theorem Mirrors.stopped {f : α → β} {p : Program σ ε α} {q : Program σ ε β}
    (hvalue : ∀ s a t, p s ≠ (.ok a, t)) (hfail : ∀ s, Fails fails p s → Fails fails q s) :
    Mirrors fails inv f p q :=
  fun s _ => ⟨fun a t hrun => absurd hrun (hvalue s a t), hfail s,
    fun a t hrun => absurd hrun (hvalue s a t)⟩

/-- **A sequence is mirrored** by the sequence of what mirrors its parts. -/
theorem MirrorsAt.bind {f : α → β} {g : γ → κ} {p : Program σ ε α} {q : Program σ ε β}
    {k : α → Program σ ε γ} {l : β → Program σ ε κ} {s : σ} (hp : MirrorsAt fails inv f p q s)
    (hk : ∀ a t, p s = (.ok a, t) → inv t → MirrorsAt fails inv g (k a) (l (f a)) t) :
    MirrorsAt fails inv g (p >>= k) (q >>= l) s where
  value := by
    intro c u hrun
    obtain ⟨a, t, hpt, hku⟩ := bind_ok hrun
    rw [bind_run, hp.value a t hpt]
    exact (hk a t hpt (hp.keeps a t hpt)).value c u hku
  fail := by
    rintro ⟨e, u, hrun, he⟩
    rw [bind_run] at hrun
    rcases hps : p s with ⟨_ | a, t⟩
    · rw [hps] at hrun
      cases hrun
      obtain ⟨e', t', hqs, he'⟩ := hp.fail ⟨e, u, hps, he⟩
      exact ⟨e', t', by rw [bind_run, hqs], he'⟩
    · rw [hps] at hrun
      obtain ⟨e', t', hlt, he'⟩ := (hk a t hps (hp.keeps a t hps)).fail ⟨e, u, hrun, he⟩
      exact ⟨e', t', by rw [bind_run, hp.value a t hps]; exact hlt, he'⟩
  keeps := by
    intro c u hrun
    obtain ⟨a, t, hpt, hku⟩ := bind_ok hrun
    exact (hk a t hpt (hp.keeps a t hpt)).keeps c u hku

/-- What follows the state read, from that state. -/
theorem MirrorsAt.read {g : γ → κ} {r : σ → α} {k : α → Program σ ε γ} {l : α → Program σ ε κ}
    {s : σ} (h : MirrorsAt fails inv g (k (r s)) (l (r s)) s) :
    MirrorsAt fails inv g (Program.read r >>= k) (Program.read r >>= l) s :=
  ⟨h.value, h.fail, h.keeps⟩

/-- The second program may read the state where the first does not. -/
theorem MirrorsAt.readSecond {g : γ → κ} {r : σ → α} {p : Program σ ε γ}
    {l : α → Program σ ε κ} {s : σ} (h : MirrorsAt fails inv g p (l (r s)) s) :
    MirrorsAt fails inv g p (Program.read r >>= l) s :=
  ⟨h.value, h.fail, h.keeps⟩

theorem Mirrors.bind {f : α → β} {g : γ → κ} {p : Program σ ε α} {q : Program σ ε β}
    {k : α → Program σ ε γ} {l : β → Program σ ε κ} (hp : Mirrors fails inv f p q)
    (hk : ∀ a, Mirrors fails inv g (k a) (l (f a))) : Mirrors fails inv g (p >>= k) (q >>= l) :=
  fun s hs => (hp s hs).bind fun a t _ => hk a t

/-- After the same step, what mirrors what follows. -/
theorem Mirrors.step {g : γ → κ} {p : Program σ ε α} (hp : Keeps inv p) {k : α → Program σ ε γ}
    {l : α → Program σ ε κ} (hk : ∀ a, Mirrors fails inv g (k a) (l a)) :
    Mirrors fails inv g (p >>= k) (p >>= l) :=
  (Mirrors.refl hp).bind hk

/-- A value told another way, and read alike. -/
theorem Mirrors.map {f : α → β} {g : γ → β} {h : α → γ} {p : Program σ ε α}
    {q : Program σ ε β} (hp : Mirrors fails inv f p q) (hg : ∀ a, g (h a) = f a) :
    Mirrors fails inv g (p >>= fun a => Pure.pure (h a)) q := by
  refine fun s hs => ⟨?_, ?_, ?_⟩
  · intro c u hrun
    obtain ⟨a, t, hpt, hpure⟩ := bind_ok hrun
    cases hpure
    rw [(hp s hs).value a _ hpt, hg]
  · rintro ⟨e, u, hrun, he⟩
    rw [bind_run] at hrun
    rcases hps : p s with ⟨_ | a, t⟩
    · rw [hps] at hrun
      cases hrun
      exact (hp s hs).fail ⟨e, u, hps, he⟩
    · rw [hps] at hrun
      cases hrun
  · intro c u hrun
    obtain ⟨a, t, hpt, hpure⟩ := bind_ok hrun
    cases hpure
    exact (hp s hs).keeps a _ hpt

end Base.Program
