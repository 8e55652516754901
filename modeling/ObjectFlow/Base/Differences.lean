import Mathlib

/-!
# Bounds on differences

A system of bounds on the differences of places, some of them strict, is closed
pass by pass, each putting together the bounds that meet at one place.  No pass
changes the solutions.  Where none bounds a place below itself at the end, every
bound is within any two it could be put together from, and a solution is built one
place after another, its bounds below always within those above.
-/

namespace Base

variable {ι : Type*}

/-! ### Passes -/

section Passes

variable {W : Type*} [AddCommMonoid W] [LinearOrder W]

/-- The bounds of a system, or those put together at a place where less. -/
def relax (D : ι → ι → W) (k : ι) : ι → ι → W := fun i j => min (D i j) (D i k + D k j)

/-- A pass at each place. -/
def relaxed (D : ι → ι → W) (ks : List ι) : ι → ι → W := ks.foldl relax D

/-- Each bound is at most the two that meet at a place, put together. -/
def Through (D : ι → ι → W) (k : ι) : Prop := ∀ i j, D i j ≤ D i k + D k j

variable {D : ι → ι → W} {k m : ι}

theorem relax_le (D : ι → ι → W) (k i j : ι) : relax D k i j ≤ D i j := min_le_left _ _

theorem relaxed_le (D : ι → ι → W) (ks : List ι) (i j : ι) : relaxed D ks i j ≤ D i j := by
  induction ks generalizing D with
  | nil => exact le_rfl
  | cons k rest ih => exact (ih (relax D k)).trans (relax_le D k i j)

variable [IsOrderedAddMonoid W]

theorem relax_self (h : 0 ≤ D k k) (i : ι) : relax D k i k = D i k ∧ relax D k k i = D k i := by
  constructor
  · exact min_eq_left (le_add_of_nonneg_right h)
  · exact min_eq_left (le_add_of_nonneg_left h)

/-- A pass puts every bound within the two that meet at its place. -/
theorem through_self (h : 0 ≤ D k k) : Through (relax D k) k := by
  intro i j
  rw [(relax_self h i).1, (relax_self h j).2]
  exact min_le_right _ _

/-- A pass keeps the bounds within those that meet at an earlier place. -/
theorem through_relax (h : 0 ≤ D k k) (hm : Through D m) : Through (relax D k) m := by
  intro i j
  have hloop : D k j ≤ D k m + (D m k + D k j) := by
    rw [← add_assoc]
    exact (le_add_of_nonneg_left h).trans (add_le_add_left (hm k k) _)
  unfold relax
  rcases min_choice (D i m) (D i k + D k m) with hi | hi
  · rcases min_choice (D m j) (D m k + D k j) with hj | hj
    · rw [hi, hj]
      exact (min_le_left _ _).trans (hm i j)
    · rw [hi, hj, ← add_assoc]
      exact (min_le_right _ _).trans (add_le_add_left (hm i k) _)
  · rcases min_choice (D m j) (D m k + D k j) with hj | hj
    · rw [hi, hj, add_assoc]
      exact (min_le_right _ _).trans (add_le_add_right (hm k j) _)
    · rw [hi, hj, add_assoc]
      exact (min_le_right _ _).trans (add_le_add_right hloop _)

/-- Every pass keeps the bounds within those that meet at an earlier place, no
place being bound below itself at the end. -/
theorem relaxed_through (ks : List ι) (hdiag : ∀ k ∈ ks, 0 ≤ relaxed D ks k k)
    (hm : Through D m) : Through (relaxed D ks) m := by
  induction ks generalizing D with
  | nil => exact hm
  | cons k rest ih =>
      have hk : 0 ≤ D k k := (hdiag k List.mem_cons_self).trans (relaxed_le D (k :: rest) k k)
      exact ih (fun i hi => hdiag i (List.mem_cons_of_mem k hi)) (through_relax hk hm)

/-- **The passes close a system**: at the end each bound is within the two that
meet at any place passed, where none is bound below itself. -/
theorem relaxed_closed (ks : List ι) (hdiag : ∀ k ∈ ks, 0 ≤ relaxed D ks k k) (hm : m ∈ ks) :
    Through (relaxed D ks) m := by
  induction ks generalizing D with
  | nil => cases hm
  | cons k rest ih =>
      have hk : 0 ≤ D k k := (hdiag k List.mem_cons_self).trans (relaxed_le D (k :: rest) k k)
      have hrest : ∀ i ∈ rest, 0 ≤ relaxed (relax D k) rest i i :=
        fun i hi => hdiag i (List.mem_cons_of_mem k hi)
      rcases List.mem_cons.mp hm with rfl | hm
      · exact relaxed_through rest hrest (through_self hk)
      · exact ih hrest hm

end Passes

/-! ### Bounds -/

/-- A bound: at most a value, or less than it. -/
@[ext] structure Bound (G : Type*) where
  value : G
  strict : Bool
deriving DecidableEq

namespace Bound

variable {G : Type*}

instance [Zero G] : Zero (Bound G) := ⟨⟨0, false⟩⟩

instance [Add G] : Add (Bound G) := ⟨fun a b => ⟨a.value + b.value, a.strict || b.strict⟩⟩

theorem add_def [Add G] (a b : Bound G) : a + b = ⟨a.value + b.value, a.strict || b.strict⟩ := rfl

theorem zero_def [Zero G] : (0 : Bound G) = ⟨0, false⟩ := rfl

instance [AddCommMonoid G] : AddCommMonoid (Bound G) where
  add_assoc a b c := by ext <;> simp [add_def, add_assoc, Bool.or_assoc]
  zero_add a := by ext <;> simp [add_def, zero_def]
  add_zero a := by ext <;> simp [add_def, zero_def]
  add_comm a b := by ext <;> simp [add_def, add_comm, Bool.or_comm]
  nsmul := nsmulRec

/-- Bounds in order: by their values, and of one value the strict one first. -/
instance [LinearOrder G] : LinearOrder (Bound G) :=
  LinearOrder.lift' (fun b => toLex (b.value, !b.strict)) fun a b h => by
    obtain ⟨hvalue, hstrict⟩ := Prod.mk.inj (toLex.injective h)
    exact Bound.ext hvalue (Bool.not_inj hstrict)

theorem le_iff [LinearOrder G] {a b : Bound G} :
    a ≤ b ↔ a.value < b.value ∨ a.value = b.value ∧ (b.strict = true → a.strict = true) := by
  refine (Prod.Lex.le_iff (x := toLex (a.value, !a.strict)) (y := toLex (b.value, !b.strict))).trans ?_
  cases a.strict <;> cases b.strict <;> simp

/-- A difference a bound allows. -/
def Holds [LT G] [LE G] (b : Bound G) (x : G) : Prop :=
  if b.strict then x < b.value else x ≤ b.value

section Order

theorem holds_iff [LinearOrder G] {b : Bound G} {x : G} :
    b.Holds x ↔ x < b.value ∨ x = b.value ∧ b.strict = false := by
  unfold Holds
  cases b.strict with
  | true => simp
  | false => simp [le_iff_lt_or_eq]

/-- What a bound allows, a looser one does. -/
theorem Holds.mono [LinearOrder G] {a b : Bound G} {x : G} (h : a.Holds x) (hle : a ≤ b) :
    b.Holds x := by
  rw [le_iff] at hle
  rw [holds_iff] at h ⊢
  rcases hle with hlt | ⟨hvalue, hstrict⟩
  · rcases h with h | ⟨rfl, -⟩
    · exact .inl (h.trans hlt)
    · exact .inl hlt
  · rw [← hvalue]
    refine h.imp_right fun ⟨hx, hs⟩ => ⟨hx, ?_⟩
    by_contra hb
    rw [hstrict (eq_true_of_ne_false hb)] at hs
    cases hs

theorem zero_le_iff [AddCommGroup G] [LinearOrder G] {b : Bound G} : 0 ≤ b ↔ b.Holds 0 := by
  rw [le_iff, holds_iff]
  refine or_congr Iff.rfl (and_congr Iff.rfl ?_)
  show (b.strict = true → false = true) ↔ _
  cases b.strict <;> simp

variable [AddCommGroup G] [LinearOrder G] [IsOrderedAddMonoid G] {a b : Bound G} {x y : G}

instance : IsOrderedAddMonoid (Bound G) where
  add_le_add_left a b h c := by
    rw [le_iff] at h ⊢
    rcases h with h | ⟨hvalue, hstrict⟩
    · exact .inl (add_lt_add_left h c.value)
    · refine .inr ⟨congrArg (· + c.value) hvalue, fun hs => ?_⟩
      rw [add_def, Bool.or_eq_true] at hs ⊢
      exact hs.imp_left hstrict

/-- Two differences put together are within their bounds put together. -/
theorem Holds.add (ha : a.Holds x) (hb : b.Holds y) : (a + b).Holds (x + y) := by
  rw [holds_iff] at ha hb ⊢
  rcases ha with ha | ⟨rfl, hastrict⟩
  · rcases hb with hb | ⟨rfl, -⟩
    · exact .inl (add_lt_add ha hb)
    · exact .inl (add_lt_add_left ha _)
  · rcases hb with hb | ⟨rfl, hbstrict⟩
    · exact .inl (add_lt_add_right hb _)
    · exact .inr ⟨rfl, by rw [add_def, hastrict, hbstrict]; rfl⟩

end Order

end Bound

/-! ### Choosing values -/

section Choice

variable {G : Type*} [AddCommGroup G] [LinearOrder G]

/-- A bound from below and one from above with a value between them. -/
def Bound.Clear (l h : Bound G) : Prop :=
  l.value < h.value ∨ l.value = h.value ∧ l.strict = false ∧ h.strict = false

/-- A value above a bound from below. -/
def Bound.Below (l : Bound G) (x : G) : Prop :=
  l.value < x ∨ l.value = x ∧ l.strict = false

/-- Values to choose from, and the bounds they are chosen within: between bounds
each clear of each there is one to choose. -/
structure Choice (P : G → Prop) (Q : Bound G → Prop) : Prop where
  zero : P 0
  add : ∀ {a b}, Q a → Q b → Q (a + b)
  above : ∀ {x b}, P x → Q b → Q ⟨x + b.value, b.strict⟩
  below : ∀ {x b}, P x → Q b → Q ⟨x - b.value, b.strict⟩
  choose : ∀ lows highs : List (Bound G), (∀ l ∈ lows, Q l) → (∀ h ∈ highs, Q h) →
    (∀ l ∈ lows, ∀ h ∈ highs, l.Clear h) →
      ∃ x, P x ∧ (∀ l ∈ lows, l.Below x) ∧ ∀ h ∈ highs, h.Holds x

/-- Any values of a dense order may be chosen, within any bounds. -/
theorem choice_dense [IsOrderedAddMonoid G] [DenselyOrdered G] [Nontrivial G] :
    Choice (fun _ : G => True) fun _ => True where
  zero := trivial
  add _ _ := trivial
  above _ _ := trivial
  below _ _ := trivial
  choose lows highs _ _ hclear := by
    by_cases hmeet : ∃ l ∈ lows, ∃ h ∈ highs, l.value = h.value
    · obtain ⟨l, hl, h, hh, hvalue⟩ := hmeet
      refine ⟨l.value, trivial, fun l' hl' => ?_, fun h' hh' => ?_⟩
      · rw [hvalue]
        exact (hclear l' hl' h hh).imp_right fun hsame => ⟨hsame.1, hsame.2.1⟩
      · exact Bound.holds_iff.mpr
          ((hclear l hl h' hh').imp_right fun hsame => ⟨hsame.1, hsame.2.2⟩)
    · have hapart : ∀ x ∈ (lows.map Bound.value).toFinset, ∀ y ∈ (highs.map Bound.value).toFinset,
          x < y := by
        intro x hx y hy
        rw [List.mem_toFinset, List.mem_map] at hx hy
        obtain ⟨l, hl, rfl⟩ := hx
        obtain ⟨h, hh, rfl⟩ := hy
        rcases hclear l hl h hh with hlt | hsame
        · exact hlt
        · exact absurd ⟨l, hl, h, hh, hsame.1⟩ hmeet
      obtain ⟨x, hlow, hhigh⟩ := Order.exists_between_finsets _ _ hapart
      refine ⟨x, trivial, fun l hl => .inl (hlow _ ?_), fun h hh =>
        Bound.holds_iff.mpr (.inl (hhigh _ ?_))⟩
      · exact List.mem_toFinset.mpr (List.mem_map_of_mem hl)
      · exact List.mem_toFinset.mpr (List.mem_map_of_mem hh)

/-- The values of a subgroup may be chosen within bounds of its values, none
strict. -/
theorem choice_subgroup (S : AddSubgroup G) :
    Choice (· ∈ S) fun b => b.value ∈ S ∧ b.strict = false where
  zero := S.zero_mem
  add ha hb := ⟨S.add_mem ha.1 hb.1, by rw [Bound.add_def, ha.2, hb.2]; rfl⟩
  above hx hb := ⟨S.add_mem hx hb.1, hb.2⟩
  below hx hb := ⟨S.sub_mem hx hb.1, hb.2⟩
  choose lows highs hlows hhighs hclear := by
    by_cases hlow : lows.toFinset.Nonempty
    · obtain ⟨l, hl, hgreatest⟩ := lows.toFinset.exists_max_image Bound.value hlow
      rw [List.mem_toFinset] at hl
      refine ⟨l.value, (hlows l hl).1, fun m hm => ?_, fun h hh => ?_⟩
      · rcases (hgreatest m (List.mem_toFinset.mpr hm)).lt_or_eq with hlt | heq
        · exact .inl hlt
        · exact .inr ⟨heq, (hlows m hm).2⟩
      · exact Bound.holds_iff.mpr ((hclear l hl h hh).imp_right fun hsame => ⟨hsame.1, hsame.2.2⟩)
    · have hnone : ∀ l, l ∉ lows :=
        fun l hl => hlow ⟨l, List.mem_toFinset.mpr hl⟩
      by_cases hhigh : highs.toFinset.Nonempty
      · obtain ⟨h, hh, hleast⟩ := highs.toFinset.exists_min_image Bound.value hhigh
        rw [List.mem_toFinset] at hh
        refine ⟨h.value, (hhighs h hh).1, fun l hl => absurd hl (hnone l), fun m hm => ?_⟩
        rcases (hleast m (List.mem_toFinset.mpr hm)).lt_or_eq with hlt | heq
        · exact Bound.holds_iff.mpr (.inl hlt)
        · exact Bound.holds_iff.mpr (.inr ⟨heq, (hhighs m hm).2⟩)
      · exact ⟨0, S.zero_mem, fun l hl => absurd hl (hnone l),
          fun h hh => absurd ⟨h, List.mem_toFinset.mpr hh⟩ hhigh⟩

end Choice

/-! ### Solutions -/

section Solutions

variable {G : Type*} [AddCommGroup G] [LinearOrder G] {D : ι → ι → WithTop (Bound G)} {ρ : ι → G}
  {P : G → Prop} {Q : Bound G → Prop}

/-- Values whose differences are all within a system's bounds. -/
def Solves (D : ι → ι → WithTop (Bound G)) (ρ : ι → G) : Prop :=
  ∀ i j (b : Bound G), D i j = b → b.Holds (ρ j - ρ i)

/-- A system that has a solution bounds no place below itself. -/
theorem Solves.nonneg (h : Solves D ρ) (i : ι) : 0 ≤ D i i := by
  cases hb : D i i using WithTop.recTopCoe with
  | top => exact le_top
  | coe b =>
      have hzero := h i i b hb
      rw [sub_self] at hzero
      exact WithTop.coe_le_coe.mpr (Bound.zero_le_iff.mpr hzero)

/-- One more bound in a system is one more for its solutions. -/
theorem solves_lessened {D' : ι → ι → WithTop (Bound G)} {i₀ j₀ : ι} {w : Bound G}
    (hthere : D' i₀ j₀ = min (D i₀ j₀) w) (helse : ∀ i j, ¬ (i = i₀ ∧ j = j₀) → D' i j = D i j) :
    Solves D' ρ ↔ Solves D ρ ∧ w.Holds (ρ j₀ - ρ i₀) := by
  constructor
  · intro h
    have hleast : ∀ b : Bound G, min (D i₀ j₀) w ≤ b → b.Holds (ρ j₀ - ρ i₀) := by
      intro b hb
      obtain ⟨c, hc, hcb⟩ := WithTop.le_coe_iff.mp hb
      exact (h i₀ j₀ c (hthere.trans hc)).mono hcb
    refine ⟨fun i j b hb => ?_, hleast w (min_le_right _ _)⟩
    by_cases hplace : i = i₀ ∧ j = j₀
    · obtain ⟨rfl, rfl⟩ := hplace
      exact hleast b ((min_le_left _ _).trans hb.le)
    · exact h i j b ((helse i j hplace).trans hb)
  · intro h i j b hb
    by_cases hplace : i = i₀ ∧ j = j₀
    · obtain ⟨rfl, rfl⟩ := hplace
      rw [hthere] at hb
      rcases min_choice (D i j) w with hmin | hmin
      · exact h.1 i j b (hmin ▸ hb)
      · rw [hmin] at hb
        rw [← WithTop.coe_inj.mp hb]
        exact h.2
    · exact h.1 i j b ((helse i j hplace).symm.trans hb)

/-- The bounds some places have, each shifted as it is. -/
def shifted (f : ι → WithTop (Bound G)) (shift : ι → Bound G → Bound G) (places : List ι) :
    List (Bound G) :=
  places.filterMap fun i => Option.map (shift i) (f i)

omit [AddCommGroup G] [LinearOrder G] in
theorem mem_shifted {f : ι → WithTop (Bound G)} {shift : ι → Bound G → Bound G} {places : List ι}
    {c : Bound G} : c ∈ shifted f shift places ↔
      ∃ i ∈ places, ∃ b : Bound G, f i = b ∧ shift i b = c := by
  unfold shifted
  rw [List.mem_filterMap]
  exact exists_congr fun i => and_congr Iff.rfl Option.map_eq_some_iff

/-- The bounds a pass puts together are of the kind put together. -/
theorem relaxed_all (hchoice : Choice P Q) (ks : List ι)
    (hQ : ∀ i j (b : Bound G), D i j = b → Q b) (i j : ι) (b : Bound G)
    (hb : relaxed D ks i j = b) : Q b := by
  induction ks generalizing D with
  | nil => exact hQ i j b hb
  | cons k rest ih =>
      refine ih (D := relax D k) (fun i j b hb => ?_) hb
      unfold Base.relax at hb
      rcases min_choice (D i j) (D i k + D k j) with hmin | hmin
      · exact hQ i j b (hmin ▸ hb)
      · rw [hmin] at hb
        obtain ⟨c, d, hc, hd, rfl⟩ := WithTop.add_eq_coe.mp hb
        exact hchoice.add (hQ i k c hc.symm) (hQ k j d hd.symm)

variable [IsOrderedAddMonoid G]

/-- A pass keeps the solutions. -/
theorem Solves.relax (h : Solves D ρ) (k : ι) : Solves (relax D k) ρ := by
  intro i j b hb
  unfold Base.relax at hb
  rcases min_choice (D i j) (D i k + D k j) with hmin | hmin
  · exact h i j b (hmin ▸ hb)
  · rw [hmin] at hb
    obtain ⟨c, d, hc, hd, rfl⟩ := WithTop.add_eq_coe.mp hb
    have hsum := (h i k c hc.symm).add (h k j d hd.symm)
    rwa [sub_add_sub_cancel'] at hsum

theorem Solves.relaxed (h : Solves D ρ) (ks : List ι) : Solves (relaxed D ks) ρ := by
  induction ks generalizing D with
  | nil => exact h
  | cons k rest ih => exact ih (h.relax k)

/-- A value within the bounds of a place to those given values before it. -/
theorem exists_placed (hchoice : Choice P Q) {k : ι} {rest : List ι} (hthrough : Through D k)
    (hQ : ∀ i j (b : Bound G), D i j = b → Q b) (hP : ∀ i, P (ρ i))
    (hρ : ∀ i ∈ rest, ∀ j ∈ rest, ∀ b : Bound G, D i j = b → b.Holds (ρ j - ρ i)) :
    ∃ x, P x ∧ (∀ j ∈ rest, ∀ b : Bound G, D k j = b → b.Holds (ρ j - x)) ∧
      ∀ i ∈ rest, ∀ b : Bound G, D i k = b → b.Holds (x - ρ i) := by
  have hlows : ∀ l ∈ shifted (D k) (fun j b => ⟨ρ j - b.value, b.strict⟩) rest, Q l := by
    intro l hl
    obtain ⟨j, -, b, hb, rfl⟩ := mem_shifted.mp hl
    exact hchoice.below (hP j) (hQ k j b hb)
  have hhighs : ∀ h ∈ shifted (fun i => D i k) (fun i b => ⟨ρ i + b.value, b.strict⟩) rest, Q h := by
    intro h hh
    obtain ⟨i, -, b, hb, rfl⟩ := mem_shifted.mp hh
    exact hchoice.above (hP i) (hQ i k b hb)
  obtain ⟨x, hx, hlow, hhigh⟩ := hchoice.choose _ _ hlows hhighs fun l hl h hh => by
    obtain ⟨j, hj, b, hb, rfl⟩ := mem_shifted.mp hl
    obtain ⟨i, hi, c, hc, rfl⟩ := mem_shifted.mp hh
    -- the bound between the two places is within the two that meet at `k`
    have hle := hthrough i j
    rw [hc, hb, ← WithTop.coe_add] at hle
    obtain ⟨d, hd, hdle⟩ := WithTop.le_coe_iff.mp hle
    have hholds := (hρ i hi j hj d hd).mono hdle
    rw [Bound.holds_iff, Bound.add_def, Bool.or_eq_false_iff] at hholds
    rcases hholds with hlt | ⟨heq, hcstrict, hbstrict⟩
    · refine .inl ?_
      rw [sub_lt_iff_lt_add, add_right_comm, add_comm c.value, ← sub_lt_iff_lt_add] at hlt
      exact hlt
    · refine .inr ⟨?_, hbstrict, hcstrict⟩
      have hplaced : ρ j = c.value + b.value + ρ i := sub_eq_iff_eq_add.mp heq
      show ρ j - b.value = ρ i + c.value
      rw [hplaced, add_right_comm, add_sub_cancel_right, add_comm]
  refine ⟨x, hx, fun j hj b hb => ?_, fun i hi b hb => ?_⟩
  · have hbelow := hlow _ (mem_shifted.mpr ⟨j, hj, b, hb, rfl⟩)
    rw [Bound.holds_iff, sub_lt_comm, sub_eq_iff_eq_add, ← sub_eq_iff_eq_add']
    exact hbelow
  · have habove := hhigh _ (mem_shifted.mpr ⟨i, hi, b, hb, rfl⟩)
    rw [Bound.holds_iff] at habove ⊢
    rwa [sub_lt_iff_lt_add', sub_eq_iff_eq_add']

/-- **A closed system has a solution**: places one after another, each given a
value within its bounds to those before. -/
theorem exists_within (hchoice : Choice P Q) (places : List ι)
    (hthrough : ∀ k ∈ places, Through D k) (hdiag : ∀ k ∈ places, 0 ≤ D k k)
    (hQ : ∀ i j (b : Bound G), D i j = b → Q b) :
    ∃ ρ : ι → G, (∀ i, P (ρ i)) ∧ ∀ i ∈ places, ∀ j ∈ places, ∀ b : Bound G, D i j = b →
      b.Holds (ρ j - ρ i) := by
  classical
  induction places with
  | nil => exact ⟨fun _ => 0, fun _ => hchoice.zero, fun i hi => by cases hi⟩
  | cons k rest ih =>
      obtain ⟨ρ, hP, hρ⟩ := ih (fun m hm => hthrough m (List.mem_cons_of_mem k hm))
        (fun m hm => hdiag m (List.mem_cons_of_mem k hm))
      obtain ⟨x, hx, hlow, hhigh⟩ :=
        exists_placed hchoice (hthrough k List.mem_cons_self) hQ hP hρ
      refine ⟨Function.update ρ k x, fun i => ?_, fun i hi j hj b hb => ?_⟩
      · rcases eq_or_ne i k with rfl | hne
        · rwa [Function.update_self]
        · rw [Function.update_of_ne hne]
          exact hP i
      · rcases eq_or_ne i k with rfl | hik
        · rcases eq_or_ne j i with rfl | hji
          · have hzero := hdiag j List.mem_cons_self
            rw [hb] at hzero
            rw [sub_self]
            exact Bound.zero_le_iff.mp (WithTop.coe_le_coe.mp hzero)
          · rw [Function.update_self, Function.update_of_ne hji]
            exact hlow j ((List.mem_cons.mp hj).resolve_left hji) b hb
        · rw [Function.update_of_ne hik]
          rcases eq_or_ne j k with rfl | hjk
          · rw [Function.update_self]
            exact hhigh i ((List.mem_cons.mp hi).resolve_left hik) b hb
          · rw [Function.update_of_ne hjk]
            exact hρ i ((List.mem_cons.mp hi).resolve_left hik) j
              ((List.mem_cons.mp hj).resolve_left hjk) b hb

/-- **The passes decide a system**: it has a solution among the values to choose
from exactly where they leave no place bound below itself. -/
theorem relaxed_exact (hchoice : Choice P Q) (ks : List ι)
    (hQ : ∀ i j (b : Bound G), D i j = b → Q b)
    (hends : ∀ i j (b : Bound G), D i j = b → i ∈ ks ∧ j ∈ ks) :
    (∀ k ∈ ks, 0 ≤ relaxed D ks k k) ↔ ∃ ρ : ι → G, (∀ i, P (ρ i)) ∧ Solves D ρ := by
  constructor
  · intro hdiag
    obtain ⟨ρ, hP, hρ⟩ := exists_within hchoice ks (fun k hk => relaxed_closed ks hdiag hk) hdiag
      (relaxed_all hchoice ks hQ)
    refine ⟨ρ, hP, fun i j b hb => ?_⟩
    obtain ⟨hi, hj⟩ := hends i j b hb
    have hle := relaxed_le D ks i j
    rw [hb] at hle
    obtain ⟨c, hc, hcb⟩ := WithTop.le_coe_iff.mp hle
    exact (hρ i hi j hj c hc).mono hcb
  · intro hsolved k _
    obtain ⟨ρ, -, hρ⟩ := hsolved
    exact (hρ.relaxed ks).nonneg k

end Solutions

end Base
