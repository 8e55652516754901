import ObjectFlow.Base.Program

/-!
# Programs in lockstep

A change of the state that a program never looks at: run from the state
changed, the program ends as it would have and leaves the state it would have,
changed so.  The states it is run from may be asked to keep something, which
every run then keeps.  The rules pass this through every way of putting
programs together, so two runs of a long program from states that differ by
such a change need only be compared where it reads the difference.
-/

namespace Base

namespace Program

variable {σ ε α β : Type}

/-- From each state that keeps `I`, the program run on the state changed by `φ`
ends as it does on the state itself and leaves what it leaves, changed so; and
`I` is kept. -/
def Commutes (φ : σ → σ) (I : σ → Prop) (p : Program σ ε α) : Prop :=
  ∀ s, I s → p (φ s) = ((p s).1, φ (p s).2) ∧ I (p s).2

section Rules

variable {φ : σ → σ} {I : σ → Prop}

theorem Commutes.pure (a : α) : Commutes φ I (Pure.pure a : Program σ ε α) :=
  fun _ hs => ⟨rfl, hs⟩

theorem Commutes.stop (e : ε) : Commutes φ I (Program.stop e : Program σ ε α) :=
  fun _ hs => ⟨rfl, hs⟩

/-- What is read is the same of the state changed. -/
theorem Commutes.read {f : σ → α} (h : ∀ s, f (φ s) = f s) :
    Commutes φ I (Program.read f : Program σ ε α) :=
  fun s hs => ⟨Prod.ext (congrArg Except.ok (h s)) rfl, hs⟩

theorem Commutes.check {f : σ → Except ε α} (h : ∀ s, I s → f (φ s) = f s) :
    Commutes φ I (Program.check f) :=
  fun s hs => ⟨Prod.ext (h s hs) rfl, hs⟩

theorem Commutes.modify {f : σ → σ} (h : ∀ s, f (φ s) = φ (f s)) (hkept : ∀ s, I s → I (f s)) :
    Commutes φ I (Program.modify f : Program σ ε Unit) :=
  fun s hs => ⟨Prod.ext rfl (h s), hkept s hs⟩

theorem Commutes.draw {f : σ → α × σ} (h : ∀ s, f (φ s) = ((f s).1, φ (f s).2))
    (hkept : ∀ s, I s → I (f s).2) : Commutes φ I (Program.draw f : Program σ ε α) := by
  intro s hs
  refine ⟨?_, hkept s hs⟩
  unfold Program.draw
  rw [h s]

/-- What follows need only be known to commute after the values that come of
what is before it. -/
theorem Commutes.bindYields {P : α → Prop} {p : Program σ ε α} {f : α → Program σ ε β}
    (hp : Commutes φ I p) (hyields : Yields P p) (hf : ∀ a, P a → Commutes φ I (f a)) :
    Commutes φ I (p >>= f) := by
  intro s hs
  obtain ⟨hsame, hkept⟩ := hp s hs
  simp only [bind_run, hsame]
  rcases hrun : p s with ⟨_ | a, t⟩
  · rw [hrun] at hkept
    exact ⟨rfl, hkept⟩
  · rw [hrun] at hkept
    exact hf a (hyields s a t hrun) t hkept

theorem Commutes.bind {p : Program σ ε α} {f : α → Program σ ε β} (hp : Commutes φ I p)
    (hf : ∀ a, Commutes φ I (f a)) : Commutes φ I (p >>= f) :=
  Commutes.bindYields hp (fun _ _ _ _ => trivial) fun a _ => hf a

/-- What goes on from the whole state goes on alike from the state changed. -/
theorem Commutes.readThen {f : σ → α} {k : α → Program σ ε β}
    (h : ∀ s, I s → k (f (φ s)) = k (f s)) (hk : ∀ s, I s → Commutes φ I (k (f s))) :
    Commutes φ I (Program.read f >>= k) := by
  intro s hs
  obtain ⟨hsame, hkept⟩ := hk s hs s hs
  refine ⟨?_, hkept⟩
  show k (f (φ s)) (φ s) = _
  rw [h s hs, hsame]
  rfl

/-- A computation over the state, then what follows its value. -/
theorem Commutes.checkThen {f : σ → Except ε α} {k : α → Program σ ε β}
    (h : ∀ s, I s → f (φ s) = f s) (hk : ∀ s a, I s → f s = .ok a → Commutes φ I (k a)) :
    Commutes φ I (Program.check f >>= k) := by
  intro s hs
  simp only [bind_run, Program.check, h s hs]
  rcases hf : f s with e | a
  · exact ⟨rfl, hs⟩
  · exact hk s a hs hf s hs

theorem Commutes.mapStop {g : ε → ε} {p : Program σ ε α} (hp : Commutes φ I p) :
    Commutes φ I (p.mapStop g) := by
  intro s hs
  obtain ⟨hsame, hkept⟩ := hp s hs
  simp only [Program.mapStop, hsame]
  rcases hrun : p s with ⟨_ | a, t⟩
  all_goals
    rw [hrun] at hkept
    exact ⟨rfl, hkept⟩

theorem Commutes.tellStop {g : σ → ε → ε} {p : Program σ ε α} (h : ∀ s e, g (φ s) e = g s e)
    (hp : Commutes φ I p) : Commutes φ I (p.tellStop g) := by
  intro s hs
  obtain ⟨hsame, hkept⟩ := hp s hs
  simp only [Program.tellStop, hsame]
  rcases hrun : p s with ⟨e | a, t⟩
  · rw [hrun] at hkept
    refine ⟨?_, hkept⟩
    show (Except.error (g (φ t) e), φ t) = (Except.error (g t e), φ t)
    rw [h t e]
  · rw [hrun] at hkept
    exact ⟨rfl, hkept⟩

/-- A loop commutes with what each of its turns does. -/
theorem Commutes.forM {f : α → Program σ ε Unit} (items : List α)
    (h : ∀ a ∈ items, Commutes φ I (f a)) : Commutes φ I (items.forM f) := by
  induction items with
  | nil => exact Commutes.pure ()
  | cons a rest ih =>
      have hrest := ih fun b hb => h b (List.mem_cons_of_mem _ hb)
      exact Commutes.bind (h a List.mem_cons_self) fun _ => hrest

end Rules

end Program

end Base
