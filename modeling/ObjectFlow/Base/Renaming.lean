import Mathlib.Data.List.Basic

/-!
# Names carried over renamings

Versions of a set of members, each publish renaming some of them.  Where every
publish renames members it had to names it has, one each, and no name is ever
another member's, a name carried forward over the publishes and one taken back
over them are each other's.
-/

namespace Base

/-- The members of each version from a first, and what the publish of each
later one renames, old name and new. -/
structure History (ν : Type*) where
  members : Nat → ν → Prop
  renames : Nat → List (ν × ν)

variable {ν : Type*} [DecidableEq ν]

/-- A name over one publish. -/
def forward (renames : List (ν × ν)) (x : ν) : ν :=
  match renames.find? fun p => p.1 = x with
  | some p => p.2
  | none => x

/-- A name back over one publish. -/
def back (renames : List (ν × ν)) (x : ν) : ν :=
  match renames.find? fun p => p.2 = x with
  | some p => p.1
  | none => x

theorem forward_mem {renames : List (ν × ν)} {x y : ν} (h : (x, y) ∈ renames)
    (once : ∀ p ∈ renames, p.1 = x → p = (x, y)) : forward renames x = y := by
  unfold forward
  cases hfind : renames.find? fun p => p.1 = x with
  | none => exact absurd (List.find?_eq_none.mp hfind _ h) (by simp)
  | some p =>
    have hp := List.find?_some hfind
    rw [once p (List.mem_of_find?_eq_some hfind) (by simpa using hp)]

theorem forward_kept {renames : List (ν × ν)} {x : ν} (h : ∀ p ∈ renames, p.1 ≠ x) :
    forward renames x = x := by
  have hfind : renames.find? (fun p => p.1 = x) = none :=
    List.find?_eq_none.mpr fun p hp => by simp [h p hp]
  unfold forward
  rw [hfind]

theorem back_mem {renames : List (ν × ν)} {x y : ν} (h : (x, y) ∈ renames)
    (once : ∀ p ∈ renames, p.2 = y → p = (x, y)) : back renames y = x := by
  unfold back
  cases hfind : renames.find? fun p => p.2 = y with
  | none => exact absurd (List.find?_eq_none.mp hfind _ h) (by simp)
  | some p =>
    have hp := List.find?_some hfind
    rw [once p (List.mem_of_find?_eq_some hfind) (by simpa using hp)]

theorem back_kept {renames : List (ν × ν)} {x : ν} (h : ∀ p ∈ renames, p.2 ≠ x) :
    back renames x = x := by
  have hfind : renames.find? (fun p => p.2 = x) = none :=
    List.find?_eq_none.mpr fun p hp => by simp [h p hp]
  unfold back
  rw [hfind]

namespace History

variable (h : History ν)

/-- A name of the first version, over the publishes up to a later one. -/
def forwardTo : Nat → ν → ν
  | 0, x => x
  | n + 1, x => forward (h.renames (n + 1)) (forwardTo n x)

/-- A name of a version, back over the publishes up to it. -/
def backFrom : Nat → ν → ν
  | 0, x => x
  | n + 1, x => backFrom n (back (h.renames (n + 1)) x)

/-- A member of a version is one of the next, renamed or under its name. -/
def Next (n : Nat) (x y : ν) : Prop :=
  h.members n x ∧ h.members (n + 1) y ∧
    ((x, y) ∈ h.renames (n + 1) ∨ x = y ∧ ∀ p ∈ h.renames (n + 1), p.1 ≠ x ∧ p.2 ≠ x)

/-- A member of one version is one so many versions later. -/
def Line (i : Nat) : Nat → ν → ν → Prop
  | 0, x, y => x = y ∧ h.members i x
  | n + 1, x, z => ∃ y, Line i n x y ∧ h.Next (i + n) y z

/-- Every publish up to a version renames members the version before had, to
names it has, one each, and two versions that have a name have it of one
member. -/
structure Once (last : Nat) : Prop where
  source : ∀ n < last, ∀ p ∈ h.renames (n + 1), h.members n p.1
  target : ∀ n < last, ∀ p ∈ h.renames (n + 1), h.members (n + 1) p.2
  sourceOnce : ∀ n < last, ∀ p ∈ h.renames (n + 1), ∀ q ∈ h.renames (n + 1), p.1 = q.1 → p = q
  targetOnce : ∀ n < last, ∀ p ∈ h.renames (n + 1), ∀ q ∈ h.renames (n + 1), p.2 = q.2 → p = q
  name : ∀ i n, i + n ≤ last → ∀ x, h.members i x → h.members (i + n) x → h.Line i n x x

variable {h} {last : Nat}

theorem Next.forward (once : h.Once last) {n : Nat} (hn : n < last) {x y : ν}
    (hnext : h.Next n x y) : Base.forward (h.renames (n + 1)) x = y := by
  obtain ⟨_, _, hrenamed | ⟨rfl, hkept⟩⟩ := hnext
  · exact forward_mem hrenamed fun p hp hsame => once.sourceOnce n hn p hp (x, y) hrenamed hsame
  · exact forward_kept fun p hp => (hkept p hp).1

theorem Next.back (once : h.Once last) {n : Nat} (hn : n < last) {x y : ν}
    (hnext : h.Next n x y) : Base.back (h.renames (n + 1)) y = x := by
  obtain ⟨_, _, hrenamed | ⟨rfl, hkept⟩⟩ := hnext
  · exact back_mem hrenamed fun p hp hsame => once.targetOnce n hn p hp (x, y) hrenamed hsame
  · exact back_kept fun p hp => (hkept p hp).2

omit [DecidableEq ν] in
theorem Line.first {i n : Nat} {x y : ν} (hline : h.Line i n x y) : h.members i x := by
  induction n generalizing y with
  | zero => exact hline.2
  | succ n ih =>
    obtain ⟨z, hz, _⟩ := hline
    exact ih hz

omit [DecidableEq ν] in
theorem Line.finish {i n : Nat} {x y : ν} (hline : h.Line i n x y) : h.members (i + n) y := by
  cases n with
  | zero =>
    obtain ⟨rfl, hx⟩ := hline
    exact hx
  | succ n =>
    obtain ⟨z, _, hnext⟩ := hline
    exact hnext.2.1

omit [DecidableEq ν] in
/-- A line's first step. -/
theorem Line.head {i n : Nat} {x z : ν} (hline : h.Line i (n + 1) x z) : ∃ y, h.Next i x y := by
  induction n generalizing z with
  | zero =>
    obtain ⟨y, ⟨rfl, _⟩, hnext⟩ := hline
    exact ⟨z, hnext⟩
  | succ n ih =>
    obtain ⟨y, hy, _⟩ := hline
    exact ih hy

/-- One name leads to one. -/
theorem Line.unique (once : h.Once last) {i n : Nat} (hn : i + n ≤ last) {x y z : ν}
    (hy : h.Line i n x y) (hz : h.Line i n x z) : y = z := by
  induction n generalizing y z with
  | zero => exact hy.1.symm.trans hz.1
  | succ n ih =>
    obtain ⟨y', hy', hnexty⟩ := hy
    obtain ⟨z', hz', hnextz⟩ := hz
    obtain rfl := ih (by omega) hy' hz'
    exact (hnexty.forward once (by omega)).symm.trans (hnextz.forward once (by omega))

theorem Line.forwardTo (once : h.Once last) {n : Nat} (hn : n ≤ last) {x y : ν}
    (hline : h.Line 0 n x y) : h.forwardTo n x = y := by
  induction n generalizing y with
  | zero => exact hline.1
  | succ n ih =>
    obtain ⟨z, hz, hnext⟩ := hline
    rw [Nat.zero_add] at hnext
    rw [History.forwardTo, ih (by omega) hz]
    exact hnext.forward once (by omega)

theorem Line.backFrom (once : h.Once last) {n : Nat} (hn : n ≤ last) {x y : ν}
    (hline : h.Line 0 n x y) : h.backFrom n y = x := by
  induction n generalizing y with
  | zero => exact hline.1.symm
  | succ n ih =>
    obtain ⟨z, hz, hnext⟩ := hline
    rw [Nat.zero_add] at hnext
    rw [History.backFrom, hnext.back once (by omega)]
    exact ih (by omega) hz

/-- A member carried forward is where its line leads, or its line broke off and
its name stayed. -/
theorem forwardTo_line (once : h.Once last) {n : Nat} (hn : n ≤ last) {x : ν}
    (hx : h.members 0 x) :
    h.Line 0 n x (h.forwardTo n x) ∨
      ∃ i d, i + d + 1 = n ∧ h.members i (h.forwardTo n x) ∧
        ∀ y, ¬ h.Next i (h.forwardTo n x) y := by
  induction n with
  | zero => exact .inl ⟨rfl, hx⟩
  | succ n ih =>
    rw [History.forwardTo]
    rcases ih (by omega) with hline | ⟨i, d, hd, hi, hnone⟩
    · have hmember := hline.finish
      rw [Nat.zero_add] at hmember
      by_cases hnext : ∃ y, h.Next n (h.forwardTo n x) y
      · obtain ⟨y, hy⟩ := hnext
        rw [hy.forward once (by omega)]
        refine .inl ⟨_, hline, ?_⟩
        rw [Nat.zero_add]
        exact hy
      · have hstays : Base.forward (h.renames (n + 1)) (h.forwardTo n x) = h.forwardTo n x := by
          apply forward_kept
          rintro ⟨a, b⟩ hp rfl
          exact hnext ⟨b, hmember, once.target n (by omega) _ hp, .inl hp⟩
        rw [hstays]
        exact .inr ⟨n, 0, rfl, hmember, fun y hy => hnext ⟨y, hy⟩⟩
    · have hstays : Base.forward (h.renames (n + 1)) (h.forwardTo n x) = h.forwardTo n x := by
        apply forward_kept
        intro p hp hsame
        have hback := once.source n (by omega) p hp
        rw [hsame] at hback
        have hsum : i + (d + 1) = n := by omega
        obtain ⟨y, hy⟩ := (once.name i (d + 1) (by omega) _ hi (by rw [hsum]; exact hback)).head
        exact hnone y hy
      rw [hstays]
      exact .inr ⟨i, d + 1, by omega, hi, hnone⟩

/-- A name that no publish up to a version gives is itself back over them. -/
theorem backFrom_kept {n : Nat} {x : ν} (h' : ∀ m < n, ∀ p ∈ h.renames (m + 1), p.2 ≠ x) :
    h.backFrom n x = x := by
  induction n with
  | zero => rfl
  | succ n ih =>
    rw [History.backFrom, back_kept (h' n (by omega))]
    exact ih fun m hm => h' m (by omega)

/-- A member taken back is where its line begins. -/
theorem backFrom_line (once : h.Once last) {n : Nat} (hn : n ≤ last) {x : ν}
    (hx : h.members n x) :
    ∃ i d, i + d = n ∧ h.Line i d (h.backFrom n x) x ∧
      ∀ j, i = j + 1 → ∀ y, ¬ h.Next j y (h.backFrom n x) := by
  induction n generalizing x with
  | zero => exact ⟨0, 0, rfl, ⟨rfl, hx⟩, fun j hj => by omega⟩
  | succ n ih =>
    by_cases hnext : ∃ y, h.Next n y x
    · obtain ⟨y, hy⟩ := hnext
      obtain ⟨i, d, hd, hline, hborn⟩ := ih (by omega) hy.1
      rw [History.backFrom, hy.back once (by omega)]
      refine ⟨i, d + 1, by omega, ⟨y, hline, ?_⟩, hborn⟩
      rw [hd]
      exact hy
    · have hstays : h.backFrom (n + 1) x = x := by
        apply backFrom_kept
        rintro m hm ⟨a, b⟩ hp rfl
        by_cases hlast : m = n
        · subst hlast
          exact hnext ⟨a, once.source m (by omega) _ hp, hx, .inl hp⟩
        · -- the name was another member's before
          have hbefore := once.target m (by omega) _ hp
          have hsum : m + 1 + (n - m - 1 + 1) = n + 1 := by omega
          obtain ⟨y, _, hy⟩ := once.name (m + 1) (n - m - 1 + 1) (by omega) _ hbefore
            (by rw [hsum]; exact hx)
          rw [show m + 1 + (n - m - 1) = n by omega] at hy
          exact hnext ⟨y, hy⟩
      rw [hstays]
      refine ⟨n + 1, 0, rfl, ⟨rfl, hx⟩, fun j hj y hy => ?_⟩
      obtain rfl : n = j := by omega
      exact hnext ⟨y, hy⟩

omit [DecidableEq ν] in
/-- A name given to a member is no earlier version's. -/
theorem Once.born (once : h.Once last) {i j : Nat} (hij : i < j) (hj : j ≤ last) {x : ν}
    (hi : h.members i x) (hx : h.members j x) (hborn : ∀ k, j = k + 1 → ∀ y, ¬ h.Next k y x) :
    False := by
  have hsum : i + (j - i - 1 + 1) = j := by omega
  obtain ⟨y, _, hy⟩ := once.name i (j - i - 1 + 1) (by omega) x hi (by rw [hsum]; exact hx)
  exact hborn (i + (j - i - 1)) (by omega) y hy

/-- **Forward and back.**  A member's name carried forward to a name the last
version has is taken back to it. -/
theorem backFrom_forwardTo (once : h.Once last) {x : ν} (hx : h.members 0 x)
    (hnow : h.members last (h.forwardTo last x)) :
    h.backFrom last (h.forwardTo last x) = x := by
  rcases forwardTo_line once (Nat.le_refl _) hx with hline | ⟨i, d, hd, hi, hnone⟩
  · exact hline.backFrom once (Nat.le_refl _)
  · have hsum : i + (d + 1) = last := by omega
    obtain ⟨y, hy⟩ := (once.name i (d + 1) (by omega) _ hi (by rw [hsum]; exact hnow)).head
    exact absurd hy (hnone y)

/-- **Back and forward.**  A name taken back to one the first version has is
carried forward to it. -/
theorem forwardTo_backFrom (once : h.Once last) {x : ν} (hx : h.members last x)
    (hfirst : h.members 0 (h.backFrom last x)) : h.forwardTo last (h.backFrom last x) = x := by
  obtain ⟨i, d, hd, hline, hborn⟩ := backFrom_line once (Nat.le_refl _) hx
  by_cases hi : i = 0
  · subst hi
    rw [Nat.zero_add] at hd
    subst hd
    exact hline.forwardTo once (Nat.le_refl _)
  · exact (once.born (by omega) (by omega) hfirst hline.first hborn).elim

/-- **No two members of the last version are taken back to one name.** -/
theorem backFrom_injective (once : h.Once last) {x y : ν} (hx : h.members last x)
    (hy : h.members last y) (hsame : h.backFrom last x = h.backFrom last y) : x = y := by
  obtain ⟨i, d, hd, hlinex, hbornx⟩ := backFrom_line once (Nat.le_refl _) hx
  obtain ⟨j, e, he, hliney, hborny⟩ := backFrom_line once (Nat.le_refl _) hy
  rw [← hsame] at hliney hborny
  by_cases hij : i = j
  · subst hij
    obtain rfl : d = e := by omega
    exact hlinex.unique once (by omega) hliney
  · by_cases hlt : i < j
    · exact (once.born hlt (by omega) hlinex.first hliney.first hborny).elim
    · exact (once.born (show j < i by omega) (by omega) hliney.first hlinex.first hbornx).elim

end History

end Base
