import ObjectFlow.Base.Program

/-!
# Programs watched as they nest

A program run beside a count of the parts of it that are open, and of the most
that have been open at once.  The count changes nothing the program does.  The
same program, refused where one part more than a limit would open, ends as it
does exactly where it never opens so many.
-/

namespace Base

/-- A state, with how many parts of a program are open and the most that have
been. -/
structure Watched (σ : Type) where
  state : σ
  opened : Nat := 0
  most : Nat := 0

namespace Program

variable {σ ε ε' α β : Type}

/-- A program over the state alone, its stops told another way. -/
def watching (tell : ε → ε') (p : Program σ ε α) : Program (Watched σ) ε' α := fun s =>
  match p s.state with
  | (.ok a, t) => (.ok a, { s with state := t })
  | (.error e, t) => (.error (tell e), { s with state := t })

/-- A part counted as open while it runs. -/
def counted (p : Program (Watched σ) ε α) : Program (Watched σ) ε α := do
  modify fun s => { s with opened := s.opened + 1, most := max s.most (s.opened + 1) }
  let a ← p
  modify fun s => { s with opened := s.opened - 1 }
  return a

/-- The same, refused where as many as the limit are open. -/
def refusing (limit : Nat) (e : ε) (p : Program (Watched σ) ε α) : Program (Watched σ) ε α := do
  let opened ← read Watched.opened
  if limit ≤ opened then stop e else counted p

/-- From one state: the watched program does what the program does, never
lowers the most open, and is the refused program's run where no more than the
limit are ever open, which is refused where more are. -/
structure WatchedAt (limit : Nat) (p : Program σ ε α) (q : Program (Watched σ) ε α)
    (r : Program (Watched σ) (Option ε) α) (s : Watched σ) : Prop where
  value : (q s).1 = (p s.state).1
  state : (q s).2.state = (p s.state).2
  most : s.most ≤ (q s).2.most
  within : (q s).2.most ≤ limit → r s = ((q s).1.mapError some, (q s).2)
  past : s.most ≤ limit → limit < (q s).2.most → (r s).1 = .error none

/-- The same, from every state. -/
def Watches (limit : Nat) (p : Program σ ε α) (q : Program (Watched σ) ε α)
    (r : Program (Watched σ) (Option ε) α) : Prop :=
  ∀ s, WatchedAt limit p q r s

/-- Nothing follows a stop. -/
theorem stopped_bind {p : Program σ ε α} {f : α → Program σ ε β} {s : σ} {e : ε}
    (h : (p s).1 = .error e) : ((p >>= f) s).1 = .error e := by
  rw [bind_run]
  rcases hp : p s with ⟨e' | a, t⟩
  · rw [hp] at h
    exact congrArg Except.error (Except.error.inj h)
  · rw [hp] at h
    cases h

section Rules

variable {limit : Nat}

/-- What is run over the state alone opens nothing. -/
theorem Watches.alone (p : Program σ ε α) :
    Watches limit p (watching id p) (watching some p) := by
  intro s
  unfold watching
  rcases hrun : p s.state with ⟨_ | a, t⟩
  all_goals
    constructor
    · simp only [hrun, id]
    · simp only [hrun]
    · simp only [hrun, Nat.le_refl]
    · intro _
      simp only [hrun]
      rfl
    · intro hs hmost
      simp only [hrun] at hmost
      omega

theorem Watches.pure (a : α) :
    Watches limit (Pure.pure a : Program σ ε α) (Pure.pure a) (Pure.pure a) := by
  intro s
  constructor
  · rfl
  · rfl
  · exact Nat.le_refl _
  · intro _
    rfl
  · intro hs hmost
    exact absurd hs (Nat.not_le.mpr hmost)

/-- **A sequence is watched** where each of its parts is. -/
theorem Watches.bind {p : Program σ ε α} {q : Program (Watched σ) ε α}
    {r : Program (Watched σ) (Option ε) α} {p' : α → Program σ ε β}
    {q' : α → Program (Watched σ) ε β} {r' : α → Program (Watched σ) (Option ε) β}
    (h : Watches limit p q r) (h' : ∀ a, Watches limit (p' a) (q' a) (r' a)) :
    Watches limit (p >>= p') (q >>= q') (r >>= r') := by
  intro s
  have hfirst := h s
  rcases hrun : q s with ⟨e | a, t⟩
  · -- the first part stops, and nothing follows
    have hp : p s.state = (.error e, t.state) := by
      have hvalue := hfirst.value
      have hstate := hfirst.state
      rw [hrun] at hvalue hstate
      exact Prod.ext hvalue.symm hstate.symm
    have hq : (q >>= q') s = (.error e, t) := by rw [bind_run, hrun]
    have hp' : (p >>= p') s.state = (.error e, t.state) := by rw [bind_run, hp]
    constructor
    · rw [hq, hp']
    · rw [hq, hp']
    · have hmost := hfirst.most
      rw [hrun] at hmost
      rw [hq]
      exact hmost
    · intro hwithin
      rw [hq] at hwithin ⊢
      have hr := hfirst.within (by rw [hrun]; exact hwithin)
      rw [hrun] at hr
      rw [bind_run, hr]
      rfl
    · intro hs hpast
      rw [hq] at hpast
      exact stopped_bind (hfirst.past hs (by rw [hrun]; exact hpast))
  · have hp : p s.state = (.ok a, t.state) := by
      have hvalue := hfirst.value
      have hstate := hfirst.state
      rw [hrun] at hvalue hstate
      exact Prod.ext hvalue.symm hstate.symm
    have hnext := h' a t
    have hq : (q >>= q') s = q' a t := by rw [bind_run, hrun]
    have hp' : (p >>= p') s.state = p' a t.state := by rw [bind_run, hp]
    have hmost := hfirst.most
    rw [hrun] at hmost
    have hkept : t.most ≤ limit → (r >>= r') s = r' a t := by
      intro ht
      have hr := hfirst.within (by rw [hrun]; exact ht)
      rw [hrun] at hr
      rw [bind_run, hr]
      rfl
    constructor
    · rw [hq, hp']
      exact hnext.value
    · rw [hq, hp']
      exact hnext.state
    · rw [hq]
      exact Nat.le_trans hmost hnext.most
    · intro hwithin
      rw [hq] at hwithin ⊢
      rw [hkept (Nat.le_trans hnext.most hwithin)]
      exact hnext.within hwithin
    · intro hs hpast
      rw [hq] at hpast
      by_cases ht : t.most ≤ limit
      · rw [hkept ht]
        exact hnext.past ht hpast
      · exact stopped_bind (hfirst.past hs (by rw [hrun]; exact Nat.not_le.mp ht))

/-- Two ways to go on, by the same test. -/
theorem Watches.ite {c : Prop} [Decidable c] {p p' : Program σ ε α}
    {q q' : Program (Watched σ) ε α} {r r' : Program (Watched σ) (Option ε) α}
    (h : c → Watches limit p q r) (h' : ¬ c → Watches limit p' q' r') :
    Watches limit (if c then p else p') (if c then q else q') (if c then r else r') := by
  by_cases hc : c
  · rw [if_pos hc, if_pos hc, if_pos hc]
    exact h hc
  · rw [if_neg hc, if_neg hc, if_neg hc]
    exact h' hc

/-- **A part that opens** does what it does, counted or refused. -/
theorem Watches.entered {p : Program σ ε α} {q : Program (Watched σ) ε α}
    {r : Program (Watched σ) (Option ε) α} (h : Watches limit p q r) :
    Watches limit p (counted q) (refusing limit none r) := by
  intro s
  let s' : Watched σ := { s with opened := s.opened + 1, most := max s.most (s.opened + 1) }
  have hinside := h s'
  have hmost : s.most ≤ s'.most := Nat.le_max_left _ _
  have hopened : s.opened + 1 ≤ s'.most := Nat.le_max_right _ _
  have hcounted : counted q s =
      ((q s').1, match (q s').1 with
        | .ok _ => { (q s').2 with opened := (q s').2.opened - 1 }
        | .error _ => (q s').2) := by
    show (q >>= fun a => Program.modify _ >>= fun _ => Pure.pure a) s' = _
    rw [bind_run]
    rcases hrun : q s' with ⟨_ | a, t⟩ <;> rfl
  have hleft : (counted q s).2.most = (q s').2.most := by
    rw [hcounted]
    rcases (q s').1 with _ | a <;> rfl
  constructor
  · rw [hcounted]
    exact hinside.value
  · have hstate : (counted q s).2.state = (q s').2.state := by
      rw [hcounted]
      rcases (q s').1 with _ | a <;> rfl
    rw [hstate]
    exact hinside.state
  · rw [hleft]
    exact Nat.le_trans hmost hinside.most
  · intro hwithin
    rw [hleft] at hwithin
    have hroom : ¬ limit ≤ s.opened := by
      have := hinside.most
      omega
    show (if limit ≤ s.opened then stop none else counted r) s = _
    rw [if_neg hroom, hcounted]
    show (r >>= fun a => Program.modify _ >>= fun _ => Pure.pure a) s' = _
    rw [bind_run, hinside.within hwithin]
    rcases (q s').1 with _ | a <;> rfl
  · intro hs hpast
    rw [hleft] at hpast
    show ((if limit ≤ s.opened then stop none else counted r) s).1 = _
    by_cases hroom : limit ≤ s.opened
    · rw [if_pos hroom]
      rfl
    · rw [if_neg hroom]
      show ((r >>= fun a => Program.modify _ >>= fun _ => Pure.pure a) s').1 = _
      exact stopped_bind (hinside.past (Nat.max_le.mpr ⟨hs, by omega⟩) hpast)

end Rules

end Program

end Base
