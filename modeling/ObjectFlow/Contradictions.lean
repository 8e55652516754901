import ObjectFlow.Base.Table
import ObjectFlow.Constraints
import ObjectFlow.Quantities

/-!
# Conditions that contradict one another

A condition expands into cases, each a set of atoms that hold together: a value's
presence, the members it may be, a text it equals or not, a bound on a
difference, an answer of what the checker does not look into.  Requirements
contradict where no case of all of them can hold, and a core of them is found by
leaving out one after another.
-/

namespace ObjectFlow.Logic

open Base

/-- The cases conditions may expand to. -/
def LIMIT : Nat := 4096

/-- A member of a finite domain. -/
inductive Val where
  /-- A state or a member of an enumeration. -/
  | s (name : String)
  | b (b : Bool)
deriving DecidableEq

/-- What a condition comes to: true, false or unknown. -/
inductive Want where
  | t | f | u
deriving DecidableEq

/-- One atom of a case. -/
inductive Atom where
  | null (v : Var)
  | present (v : Var)
  | dom (v : Var) (allowed : List Val)
  | eqv (v : Var) (s : String)
  | nev (v : Var) (s : String)
  | le (d : Difference)
  /-- What is not looked into, by its text. -/
  | op (text : String) (want : Want)
deriving DecidableEq

/-- Atoms that hold together, each once. -/
abbrev Case := List Atom

/-- What is known of a value: the members of its domain, or its kind, and whether
it may be absent. -/
inductive Info where
  | finite (domain : List Val) (nullable : Bool)
  | int (nullable : Bool)
  | rat (kind : String) (nullable : Bool)
  | eq (nullable : Bool)

def Info.nullable : Info → Bool
  | .finite _ n | .int n | .rat _ n | .eq n => n

/-- The ordered kind, where it is one. -/
def Info.order : Info → Option String
  | .int _ => some "int"
  | .rat kind _ => some kind
  | _ => none

/-- Whether a value is known to be whole. -/
def isWhole (info : Var → Option Info) (v : Var) : Bool :=
  match info v with
  | some (.int _) => true
  | _ => false

/-! ### Expanding -/

/-- The cases so far, each with each of the next. -/
def products (out : List Case) : List (List Case) → Decided (List Case)
  | [] => .ok out
  | cases :: rest =>
      let next := out.flatMap fun a => cases.map fun b => a ∪ b
      if LIMIT < next.length then .error .tooLarge
      else if next.isEmpty then .ok []
      else products next rest

/-- One case of each, together. -/
def product (lists : List (List Case)) : Decided (List Case) := products [[]] lists

/-- A case of one of them. -/
def union (lists : List (List Case)) : Decided (List Case) :=
  if LIMIT < lists.flatten.length then .error .tooLarge else .ok lists.flatten

/-! ### Deciding a case -/

/-- What a case's atoms come to. -/
structure Gathered where
  presence : Table Var Bool := []
  domains : Table Var (List Val) := []
  equal : Table Var String := []
  unequal : Table Var (List String) := []
  bounds : List Difference := []
  answers : Table String Want := []

/-- A table that holds a value for a key, where it holds no other for it. -/
def agreed {κ ν : Type} [DecidableEq κ] [DecidableEq ν] (t : Table κ ν) (key : κ) (v : ν) :
    Option (Table κ ν) :=
  match Table.get? t key with
  | none => some (Table.put t key v)
  | some w => if w = v then some t else none

/-- One more atom, where nothing gathered contradicts it at once. -/
def gather (g : Gathered) : Atom → Option Gathered
  | .null v => (agreed g.presence v false).map fun t => { g with presence := t }
  | .present v => (agreed g.presence v true).map fun t => { g with presence := t }
  | .dom v d =>
      let held := ((Table.get? g.domains v).getD d).filter d.contains
      some { g with domains := Table.put g.domains v held }
  | .eqv v s => (agreed g.equal v s).map fun t => { g with equal := t }
  | .nev v s =>
      some { g with unequal := Table.put g.unequal v (s :: (Table.get? g.unequal v).getD []) }
  | .le d => some { g with bounds := g.bounds ++ [d] }
  | .op k w => (agreed g.answers k w).map fun t => { g with answers := t }

def Var.isCount : Var → Bool
  | .count _ => true
  | _ => false

/-- A count is at least zero. -/
def counted (bounds : List Difference) : List Difference :=
  ((terms bounds).filter Var.isCount).map fun c => { u := .zero, v := c, c := 0, strict := false }

/-- Whether a conjunction of atoms can hold. -/
def satisfiable (info : Var → Option Info) (case : Case) : Decided Bool :=
  match case.foldlM gather {} with
  | none => .ok false
  | some g =>
      if g.presence.any fun e => !e.2 && (info e.1).any fun i => !i.nullable then .ok false
      else if g.domains.any fun e => e.2.isEmpty then .ok false
      else if g.equal.any fun e => (Table.get? g.unequal e.1).any fun u => u.contains e.2 then
        .ok false
      else consistent (isWhole info) (g.bounds ++ counted g.bounds)

/-! ### Requirements -/

/-- A requirement: what it is called, and its cases. -/
abbrev Requirement := String × List Case

def anySatisfiable (info : Var → Option Info) (reqs : List Requirement) : Decided Bool := do
  let cases ← product (reqs.map Prod.snd)
  cases.anyM (satisfiable info)

/-- The requirements kept with one left out, where the rest still cannot hold. -/
def leaveOut (info : Var → Option Info) (kept : List Requirement) (r : Requirement) :
    Decided (List Requirement) :=
  if r ∈ kept then
    let trial := kept.erase r
    if trial.isEmpty then .ok kept
    else do return if ← anySatisfiable info trial then kept else trial
  else .ok kept

/-- A smallest set of the requirements, by deletion, that cannot hold. -/
def core (info : Var → Option Info) (reqs : List Requirement) : Decided (List Requirement) :=
  reqs.foldlM (leaveOut info) reqs

/-! ### What atoms say -/

/-- What a condition's values may be. -/
structure Assignment where
  present : Var → Bool
  member : Var → Val
  text : Var → String
  number : Var → ℚ
  answer : String → Want

/-- An assignment of the values declared: one not nullable is present, a whole one
is whole, and a count at least zero. -/
structure Assignment.Fits (info : Var → Option Info) (A : Assignment) : Prop where
  required : ∀ v i, info v = some i → A.present v = false → i.nullable = true
  zero : A.number .zero = 0
  whole : ∀ v, isWhole info v = true → ∃ n : ℤ, A.number v = n
  counts : ∀ counted, 0 ≤ A.number (.count counted)

def Atom.Holds (A : Assignment) : Atom → Prop
  | .null v => A.present v = false
  | .present v => A.present v = true
  | .dom v d => A.member v ∈ d
  | .eqv v s => A.text v = s
  | .nev v s => A.text v ≠ s
  | .le d => d.Holds A.number
  | .op k w => A.answer k = w

/-- Atoms that all hold. -/
def Case.Holds (A : Assignment) (case : Case) : Prop := ∀ a ∈ case, a.Holds A

/-- Requirements of each of which a case holds. -/
def Hold (A : Assignment) (reqs : List Requirement) : Prop := ∀ r ∈ reqs, ∃ c ∈ r.2, c.Holds A

/-- What is gathered of atoms that all hold. -/
structure Gathered.Holds (A : Assignment) (g : Gathered) : Prop where
  presence : ∀ v p, Table.get? g.presence v = some p → A.present v = p
  domains : ∀ v d, Table.get? g.domains v = some d → A.member v ∈ d
  equal : ∀ v s, Table.get? g.equal v = some s → A.text v = s
  unequal : ∀ v u, Table.get? g.unequal v = some u → ∀ s ∈ u, A.text v ≠ s
  bounds : ∀ d ∈ g.bounds, d.Holds A.number
  answers : ∀ k w, Table.get? g.answers k = some w → A.answer k = w

variable {info : Var → Option Info} {A : Assignment}

section Agreed

variable {κ ν : Type} [DecidableEq κ] [DecidableEq ν] {t t' : Table κ ν} {key : κ} {v : ν}

/-- What agrees with a table says of its values, and of one more. -/
theorem agreed_some {f : κ → ν} (h : agreed t key v = some t') :
    (∀ k w, Table.get? t' k = some w → f k = w) ↔
      (∀ k w, Table.get? t k = some w → f k = w) ∧ f key = v := by
  unfold agreed at h
  split at h
  case h_1 hnone =>
    obtain rfl := Option.some.inj h
    simp only [Table.get?_put]
    constructor
    · intro hall
      refine ⟨fun k w hk => hall k w ?_, hall key v (if_pos rfl)⟩
      rw [if_neg, hk]
      intro heq
      rw [heq] at hnone
      rw [hnone] at hk
      cases hk
    · intro hall k w hk
      split at hk
      case isTrue heq => rw [← heq, hall.2, Option.some.inj hk]
      case isFalse => exact hall.1 k w hk
  case h_2 w hw =>
    split at h
    case isTrue heq =>
      obtain rfl := Option.some.inj h
      exact ⟨fun hall => ⟨hall, heq ▸ hall key w hw⟩, fun hall => hall.1⟩
    case isFalse => cases h

theorem agreed_none {f : κ → ν} (h : agreed t key v = none)
    (hall : ∀ k w, Table.get? t k = some w → f k = w) : f key ≠ v := by
  unfold agreed at h
  split at h
  case h_1 => cases h
  case h_2 w hw =>
    split at h
    case isTrue => cases h
    case isFalse hne => exact hall key w hw ▸ hne

theorem agreed_keys (h : agreed t key v = some t') (hkeys : (Table.keys t).Nodup) :
    (Table.keys t').Nodup := by
  unfold agreed at h
  split at h
  case h_1 =>
    obtain rfl := Option.some.inj h
    exact Table.nodup_keys_put key v hkeys
  case h_2 =>
    split at h
    case isTrue =>
      obtain rfl := Option.some.inj h
      exact hkeys
    case isFalse => cases h

end Agreed

/-- One more atom gathered. -/
theorem gather_some {g g' : Gathered} {a : Atom} (h : gather g a = some g') :
    g'.Holds A ↔ g.Holds A ∧ a.Holds A := by
  cases a with
  | null v =>
      obtain ⟨t, ht, rfl⟩ := Option.map_eq_some_iff.mp h
      have hagreed := agreed_some (f := A.present) ht
      constructor
      · intro h
        exact ⟨{ h with presence := (hagreed.mp h.presence).1 }, (hagreed.mp h.presence).2⟩
      · intro h
        exact { h.1 with presence := hagreed.mpr ⟨h.1.presence, h.2⟩ }
  | present v =>
      obtain ⟨t, ht, rfl⟩ := Option.map_eq_some_iff.mp h
      have hagreed := agreed_some (f := A.present) ht
      constructor
      · intro h
        exact ⟨{ h with presence := (hagreed.mp h.presence).1 }, (hagreed.mp h.presence).2⟩
      · intro h
        exact { h.1 with presence := hagreed.mpr ⟨h.1.presence, h.2⟩ }
  | dom v d =>
      obtain rfl := Option.some.inj h
      constructor
      · intro h
        have hself := h.domains v _ (by rw [Table.get?_put, if_pos rfl])
        rw [List.mem_filter] at hself
        refine ⟨{ h with domains := fun k w hk => ?_ }, List.contains_iff_mem.mp hself.2⟩
        by_cases hkey : v = k
        · subst hkey
          rw [hk] at hself
          exact hself.1
        · exact h.domains k w (by rw [Table.get?_put, if_neg hkey, hk])
      · intro h
        refine { h.1 with domains := fun k w hk => ?_ }
        rw [Table.get?_put] at hk
        split at hk
        case isTrue hkey =>
          subst hkey
          obtain rfl := Option.some.inj hk
          rw [List.mem_filter]
          refine ⟨?_, List.contains_iff_mem.mpr h.2⟩
          cases hd : Table.get? g.domains v with
          | none => exact h.2
          | some held => exact h.1.domains v held hd
        case isFalse => exact h.1.domains k w hk
  | eqv v s =>
      obtain ⟨t, ht, rfl⟩ := Option.map_eq_some_iff.mp h
      have hagreed := agreed_some (f := A.text) ht
      constructor
      · intro h
        exact ⟨{ h with equal := (hagreed.mp h.equal).1 }, (hagreed.mp h.equal).2⟩
      · intro h
        exact { h.1 with equal := hagreed.mpr ⟨h.1.equal, h.2⟩ }
  | nev v s =>
      obtain rfl := Option.some.inj h
      constructor
      · intro h
        have hself := h.unequal v _ (by rw [Table.get?_put, if_pos rfl])
        refine ⟨{ h with unequal := fun k u hk => ?_ }, hself s List.mem_cons_self⟩
        by_cases hkey : v = k
        · subst hkey
          rw [hk] at hself
          exact fun x hx => hself x (List.mem_cons_of_mem s hx)
        · exact h.unequal k u (by rw [Table.get?_put, if_neg hkey, hk])
      · intro h
        refine { h.1 with unequal := fun k u hk x hx => ?_ }
        rw [Table.get?_put] at hk
        split at hk
        case isTrue hkey =>
          subst hkey
          obtain rfl := Option.some.inj hk
          rcases List.mem_cons.mp hx with rfl | hx
          · exact h.2
          · cases hu : Table.get? g.unequal v with
            | none =>
                rw [hu] at hx
                cases hx
            | some held =>
                rw [hu] at hx
                exact h.1.unequal v held hu x hx
        case isFalse => exact h.1.unequal k u hk x hx
  | le d =>
      obtain rfl := Option.some.inj h
      constructor
      · intro h
        exact ⟨{ h with bounds := fun e he => h.bounds e (List.mem_append_left _ he) },
          h.bounds d (List.mem_append_right _ List.mem_cons_self)⟩
      · intro h
        refine { h.1 with bounds := fun e he => ?_ }
        rcases List.mem_append.mp he with he | he
        · exact h.1.bounds e he
        · exact List.mem_singleton.mp he ▸ h.2
  | op k w =>
      obtain ⟨t, ht, rfl⟩ := Option.map_eq_some_iff.mp h
      have hagreed := agreed_some (f := A.answer) ht
      constructor
      · intro h
        exact ⟨{ h with answers := (hagreed.mp h.answers).1 }, (hagreed.mp h.answers).2⟩
      · intro h
        exact { h.1 with answers := hagreed.mpr ⟨h.1.answers, h.2⟩ }

/-- An atom that what is gathered contradicts. -/
theorem gather_none {g : Gathered} {a : Atom} (h : gather g a = none) (hg : g.Holds A) :
    ¬ a.Holds A := by
  cases a with
  | null v => exact agreed_none (Option.map_eq_none_iff.mp h) hg.presence
  | present v => exact agreed_none (Option.map_eq_none_iff.mp h) hg.presence
  | dom => cases h
  | eqv v s => exact agreed_none (Option.map_eq_none_iff.mp h) hg.equal
  | nev => cases h
  | le => cases h
  | op k w => exact agreed_none (Option.map_eq_none_iff.mp h) hg.answers

/-- Each value once in what is gathered. -/
structure Gathered.Keyed (g : Gathered) : Prop where
  presence : (Table.keys g.presence).Nodup
  domains : (Table.keys g.domains).Nodup
  equal : (Table.keys g.equal).Nodup

theorem gather_keyed {g g' : Gathered} {a : Atom} (h : gather g a = some g') (hg : g.Keyed) :
    g'.Keyed := by
  cases a with
  | null v =>
      obtain ⟨t, ht, rfl⟩ := Option.map_eq_some_iff.mp h
      exact { hg with presence := agreed_keys ht hg.presence }
  | present v =>
      obtain ⟨t, ht, rfl⟩ := Option.map_eq_some_iff.mp h
      exact { hg with presence := agreed_keys ht hg.presence }
  | dom v d =>
      obtain rfl := Option.some.inj h
      exact { hg with domains := Table.nodup_keys_put _ _ hg.domains }
  | eqv v s =>
      obtain ⟨t, ht, rfl⟩ := Option.map_eq_some_iff.mp h
      exact { hg with equal := agreed_keys ht hg.equal }
  | nev v s =>
      obtain rfl := Option.some.inj h
      exact { hg with }
  | le d =>
      obtain rfl := Option.some.inj h
      exact { hg with }
  | op k w =>
      obtain ⟨t, -, rfl⟩ := Option.map_eq_some_iff.mp h
      exact { hg with }

def Atom.bound? : Atom → Option Difference
  | .le d => some d
  | _ => none

/-- The bounds among atoms. -/
def boundsOf (case : Case) : List Difference := case.filterMap Atom.bound?

theorem gather_bounds {g g' : Gathered} {a : Atom} (h : gather g a = some g') :
    g'.bounds = g.bounds ++ boundsOf [a] := by
  cases a with
  | le d =>
      obtain rfl := Option.some.inj h
      rfl
  | dom =>
      obtain rfl := Option.some.inj h
      exact (List.append_nil _).symm
  | nev =>
      obtain rfl := Option.some.inj h
      exact (List.append_nil _).symm
  | _ =>
      obtain ⟨t, -, rfl⟩ := Option.map_eq_some_iff.mp h
      exact (List.append_nil _).symm

/-- A case gathered, atom by atom. -/
theorem gathered_some {g g' : Gathered} {case : Case} (h : case.foldlM gather g = some g') :
    (∀ A, g'.Holds A ↔ g.Holds A ∧ case.Holds A) ∧ (g.Keyed → g'.Keyed) ∧
      g'.bounds = g.bounds ++ boundsOf case := by
  induction case generalizing g with
  | nil =>
      obtain rfl := Option.some.inj h
      exact ⟨fun A => by simp [Case.Holds], id, by simp [boundsOf]⟩
  | cons a rest ih =>
      rw [List.foldlM_cons] at h
      obtain ⟨g₁, hone, h⟩ := Option.bind_eq_some_iff.mp h
      obtain ⟨hholds, hkeyed, hbounds⟩ := ih h
      refine ⟨fun A => ?_, fun hg => hkeyed (gather_keyed hone hg), ?_⟩
      · rw [hholds, gather_some hone, and_assoc]
        unfold Case.Holds
        rw [List.forall_mem_cons]
      · rw [hbounds, gather_bounds hone, List.append_assoc]
        exact congrArg (g.bounds ++ ·) (List.filterMap_append (l := [a])).symm

theorem gathered_none {g : Gathered} {case : Case} (h : case.foldlM gather g = none)
    (hg : g.Holds A) : ¬ case.Holds A := by
  induction case generalizing g with
  | nil => cases h
  | cons a rest ih =>
      intro hall
      unfold Case.Holds at hall
      rw [List.forall_mem_cons] at hall
      rw [List.foldlM_cons] at h
      cases hone : gather g a with
      | none => exact gather_none hone hg hall.1
      | some g₁ =>
          rw [hone] at h
          exact ih h ((gather_some hone).mpr ⟨hg, hall.1⟩) hall.2

theorem nothing_holds (A : Assignment) : Gathered.Holds A {} where
  presence _ _ h := by cases h
  domains _ _ h := by cases h
  equal _ _ h := by cases h
  unequal _ _ h := by cases h
  bounds _ h := by cases h
  answers _ _ h := by cases h

/-! ### What is decided of a case -/

/-- The terms of a case's bounds are all whole, or none of them is. -/
def Case.Uniform (info : Var → Option Info) (case : Case) : Prop :=
  Logic.Uniform (isWhole info) (boundsOf case)

theorem mem_terms_iff {bounds : List Difference} {v : Var} :
    v ∈ terms bounds ↔ ∃ d ∈ bounds, v = d.u ∨ v = d.v := by
  unfold terms
  simp

/-- Counts at least zero are on terms the bounds have. -/
theorem terms_counted {bounds : List Difference} {v : Var} (h : v ∈ terms (bounds ++ counted bounds)) :
    v ∈ terms bounds ∨ v = .zero := by
  obtain ⟨d, hd, hv⟩ := mem_terms_iff.mp h
  rcases List.mem_append.mp hd with hd | hd
  · exact .inl (mem_terms_iff.mpr ⟨d, hd, hv⟩)
  · obtain ⟨c, hc, rfl⟩ := List.mem_map.mp hd
    rcases hv with rfl | rfl
    · exact .inr rfl
    · exact .inl (List.mem_filter.mp hc).1

theorem counted_fits (hfits : A.Fits info) (bounds : List Difference) :
    ∀ d ∈ counted bounds, d.Holds A.number := by
  intro d hd
  obtain ⟨c, hc, rfl⟩ := List.mem_map.mp hd
  cases c with
  | count k =>
      show A.number .zero - A.number (.count k) ≤ 0
      rw [hfits.zero, zero_sub, neg_nonpos]
      exact hfits.counts k
  | _ => cases (List.mem_filter.mp hc).2

theorem uniform_counted {whole : Var → Bool} {bounds : List Difference}
    (hzero : whole .zero = false) (h : Uniform whole bounds) :
    Uniform whole (bounds ++ counted bounds) := by
  rcases h with h | h
  · refine .inl fun v hv => ?_
    rcases terms_counted hv with hv | rfl
    · exact h v hv
    · exact .inl rfl
  · refine .inr fun v hv => ?_
    rcases terms_counted hv with hv | rfl
    · exact h v hv
    · exact hzero

theorem exists_unused (used : List String) : ∃ s, s ∉ used := by
  obtain ⟨s, hs⟩ := Infinite.exists_notMem_finset used.toFinset
  exact ⟨s, fun h => hs (List.mem_toFinset.mpr h)⟩

/-- Values that what is gathered is true of, and those of its numbers. -/
noncomputable def Gathered.assignment (g : Gathered) (number : Var → ℚ) : Assignment where
  present v := (Table.get? g.presence v).getD true
  member v := ((Table.get? g.domains v).bind List.head?).getD (.b true)
  text v := (Table.get? g.equal v).getD
    (exists_unused ((Table.get? g.unequal v).getD [])).choose
  number
  answer k := (Table.get? g.answers k).getD .t

theorem assignment_holds {g : Gathered} {number : Var → ℚ}
    (hdomains : (g.domains.any fun e => e.2.isEmpty) = false)
    (hequal : (g.equal.any fun e => (Table.get? g.unequal e.1).any fun u => u.contains e.2) = false)
    (hnumber : ∀ d ∈ g.bounds, d.Holds number) : g.Holds (g.assignment number) := by
  rw [List.any_eq_false] at hdomains hequal
  refine ⟨fun v p h => ?_, fun v d h => ?_, fun v s h => ?_, fun v u h s hs heq => ?_, hnumber,
    fun k w h => ?_⟩
  · simp only [Gathered.assignment, h, Option.getD_some]
  · have hne := hdomains _ (Table.mem_of_get? h)
    cases d with
    | nil => exact absurd rfl hne
    | cons x rest =>
        simp only [Gathered.assignment, h, Option.bind_some, List.head?_cons, Option.getD_some]
        exact List.mem_cons_self
  · simp only [Gathered.assignment, h, Option.getD_some]
  · cases ht : Table.get? g.equal v with
    | none =>
        simp only [Gathered.assignment, ht, h, Option.getD_some, Option.getD_none] at heq
        exact (exists_unused u).choose_spec (heq ▸ hs)
    | some s' =>
        simp only [Gathered.assignment, ht, Option.getD_some] at heq
        refine hequal _ (Table.mem_of_get? ht) ?_
        rw [h, Option.any_some, List.contains_iff_mem, heq]
        exact hs
  · simp only [Gathered.assignment, h, Option.getD_some]

/-- The numbers of bounds' terms, and zero for any other. -/
def onTerms (bounds : List Difference) (ρ : Var → ℚ) (v : Var) : ℚ :=
  if v ∈ terms bounds then ρ v else 0

theorem onTerms_holds {bounds : List Difference} {ρ : Var → ℚ} {d : Difference} (hd : d ∈ bounds)
    (h : d.Holds ρ) : d.Holds (onTerms bounds ρ) := by
  obtain ⟨hu, hv⟩ := mem_terms hd
  unfold Difference.Holds onTerms
  rw [if_pos hu, if_pos hv]
  exact h

theorem assignment_fits {g : Gathered} {bounds : List Difference} {ρ : Var → ℚ}
    (hpresence : (g.presence.any fun e =>
      !e.2 && (info e.1).any fun i => !i.nullable) = false)
    (hρ : Satisfies (isWhole info) (bounds ++ counted bounds) ρ) :
    (g.assignment (onTerms (bounds ++ counted bounds) ρ)).Fits info where
  required v i hi habsent := by
    cases hget : Table.get? g.presence v with
    | none =>
        simp only [Gathered.assignment, hget, Option.getD_none] at habsent
        cases habsent
    | some p =>
        simp only [Gathered.assignment, hget, Option.getD_some] at habsent
        have hentry := List.any_eq_false.mp hpresence _ (Table.mem_of_get? hget)
        by_contra hnullable
        refine hentry ?_
        rw [habsent, hi, Option.any_some, eq_false_of_ne_true hnullable]
        rfl
  zero := by
    show onTerms _ ρ .zero = 0
    unfold onTerms
    rw [hρ.zero, ite_self]
  whole v hv := by
    show ∃ n : ℤ, onTerms _ ρ v = n
    unfold onTerms
    split
    · exact hρ.whole v hv
    · exact ⟨0, Int.cast_zero.symm⟩
  counts k := by
    show 0 ≤ onTerms _ ρ (.count k)
    unfold onTerms
    split
    case isFalse => exact le_rfl
    case isTrue hk =>
      have hterm : Var.count k ∈ terms bounds := (terms_counted hk).resolve_right (by simp)
      have hbound := hρ.bounds { u := .zero, v := .count k, c := 0, strict := false }
        (List.mem_append_right _ (List.mem_map_of_mem (List.mem_filter.mpr ⟨hterm, rfl⟩)))
      have hle : ρ .zero - ρ (.count k) ≤ 0 := hbound
      rwa [hρ.zero, zero_sub, neg_nonpos] at hle

/-- **A case judged not to hold does not**: no values declared have all its atoms,
and where the terms of its bounds are all whole, or none of them, one judged to
hold has values that have. -/
theorem satisfiable_sound {case : Case} {b : Bool} (hzero : isWhole info .zero = false)
    (h : satisfiable info case = .ok b) :
    (b = false → ∀ A : Assignment, A.Fits info → ¬ case.Holds A) ∧
      (case.Uniform info → b = true → ∃ A : Assignment, A.Fits info ∧ case.Holds A) := by
  unfold satisfiable at h
  split at h
  case h_1 hnone =>
    obtain rfl := Except.ok.inj h
    exact ⟨fun _ A _ => gathered_none hnone (nothing_holds A), fun _ h => by cases h⟩
  case h_2 g hg =>
    obtain ⟨hgathered, hkeys, hbounds⟩ := gathered_some hg
    have hkeyed : g.Keyed := hkeys ⟨.nil, .nil, .nil⟩
    have hholds : ∀ A, g.Holds A ↔ case.Holds A :=
      fun A => (hgathered A).trans (and_iff_right (nothing_holds A))
    rw [List.nil_append] at hbounds
    split at h
    case isTrue hpresence =>
      obtain rfl := Except.ok.inj h
      refine ⟨fun _ A hfits hcase => ?_, fun _ h => by cases h⟩
      obtain ⟨e, he, habsent⟩ := List.any_eq_true.mp hpresence
      rw [Bool.and_eq_true, Bool.not_eq_true', Option.any_eq_true] at habsent
      obtain ⟨hfalse, i, hi, hnullable⟩ := habsent
      have hget := Table.get?_of_mem hkeyed.presence he
      have hpresent := ((hholds A).mpr hcase).presence _ _ hget
      rw [hfits.required _ i hi (hpresent.trans hfalse)] at hnullable
      cases hnullable
    case isFalse hpresence =>
      split at h
      case isTrue hdomains =>
        obtain rfl := Except.ok.inj h
        refine ⟨fun _ A _ hcase => ?_, fun _ h => by cases h⟩
        obtain ⟨e, he, hempty⟩ := List.any_eq_true.mp hdomains
        have hmember := ((hholds A).mpr hcase).domains _ _ (Table.get?_of_mem hkeyed.domains he)
        rw [List.isEmpty_iff.mp hempty] at hmember
        cases hmember
      case isFalse hdomains =>
        split at h
        case isTrue hequal =>
          obtain rfl := Except.ok.inj h
          refine ⟨fun _ A _ hcase => ?_, fun _ h => by cases h⟩
          obtain ⟨e, he, hunequal⟩ := List.any_eq_true.mp hequal
          rw [Option.any_eq_true] at hunequal
          obtain ⟨u, hu, hcontains⟩ := hunequal
          have hg := (hholds A).mpr hcase
          exact hg.unequal _ u hu _ (List.contains_iff_mem.mp hcontains)
            (hg.equal _ _ (Table.get?_of_mem hkeyed.equal he))
        case isFalse hequal =>
          rw [hbounds] at h
          obtain ⟨hnone, hsome⟩ := consistent_sound h
          constructor
          · intro hb A hfits hcase
            refine hnone hb A.number ⟨hfits.zero, hfits.whole, fun d hd => ?_⟩
            rcases List.mem_append.mp hd with hd | hd
            · exact ((hholds A).mpr hcase).bounds d (hbounds ▸ hd)
            · exact counted_fits hfits _ d hd
          · intro huniform hb
            obtain ⟨ρ, hρ⟩ := hsome (uniform_counted hzero huniform) hb
            refine ⟨_, assignment_fits (eq_false_of_ne_true hpresence) hρ, (hholds _).mp
              (assignment_holds (eq_false_of_ne_true hdomains) (eq_false_of_ne_true hequal)
                fun d hd => ?_)⟩
            have hd' := List.mem_append_left (counted (boundsOf case)) (hbounds ▸ hd)
            exact onTerms_holds hd' (hρ.bounds d hd')

/-! ### What is decided of requirements -/

theorem union_holds {a b : Case} : Case.Holds A (a ∪ b) ↔ a.Holds A ∧ b.Holds A := by
  unfold Case.Holds
  simp only [List.mem_union_iff, or_imp, forall_and]

/-- One case of each holds where a case of their product does. -/
theorem products_hold {out cases : List Case} {lists : List (List Case)}
    (h : products out lists = .ok cases) :
    (∃ c ∈ cases, c.Holds A) ↔ (∃ c ∈ out, c.Holds A) ∧ ∀ l ∈ lists, ∃ c ∈ l, c.Holds A := by
  induction lists generalizing out with
  | nil =>
      obtain rfl := Except.ok.inj h
      simp
  | cons l rest ih =>
      have hnext : (∃ c ∈ out.flatMap fun a => l.map fun b => a ∪ b, c.Holds A) ↔
          (∃ c ∈ out, c.Holds A) ∧ ∃ c ∈ l, c.Holds A := by
        constructor
        · intro hsome
          obtain ⟨c, hc, hholds⟩ := hsome
          obtain ⟨a, ha, hc⟩ := List.mem_flatMap.mp hc
          obtain ⟨b, hb, rfl⟩ := List.mem_map.mp hc
          obtain ⟨hleft, hright⟩ := union_holds.mp hholds
          exact ⟨⟨a, ha, hleft⟩, b, hb, hright⟩
        · intro hboth
          obtain ⟨⟨a, ha, hleft⟩, b, hb, hright⟩ := hboth
          exact ⟨a ∪ b, List.mem_flatMap.mpr ⟨a, ha, List.mem_map_of_mem hb⟩,
            union_holds.mpr ⟨hleft, hright⟩⟩
      unfold products at h
      dsimp only at h
      rw [List.forall_mem_cons, ← and_assoc, ← hnext]
      split at h
      case isTrue => cases h
      case isFalse =>
        split at h
        case isTrue hempty =>
          obtain rfl := Except.ok.inj h
          rw [List.isEmpty_iff.mp hempty]
          simp
        case isFalse => exact ih h

/-- The bounds among the cases of requirements. -/
def boundsAmong (reqs : List Requirement) : List Difference :=
  reqs.flatMap fun r => r.2.flatMap boundsOf

theorem Uniform.fewer {whole : Var → Bool} {bounds bounds' : List Difference}
    (h : Uniform whole bounds') (hsub : ∀ d ∈ bounds, d ∈ bounds') : Uniform whole bounds := by
  have hterms : ∀ v ∈ terms bounds, v ∈ terms bounds' := by
    intro v hv
    obtain ⟨d, hd, hv⟩ := mem_terms_iff.mp hv
    exact mem_terms_iff.mpr ⟨d, hsub d hd, hv⟩
  exact h.imp (fun h v hv => h v (hterms v hv)) fun h v hv => h v (hterms v hv)

theorem mem_boundsOf {case : Case} {d : Difference} : d ∈ boundsOf case ↔ .le d ∈ case := by
  unfold boundsOf
  rw [List.mem_filterMap]
  constructor
  · intro h
    obtain ⟨a, ha, hd⟩ := h
    cases a with
    | le e =>
        obtain rfl := Option.some.inj hd
        exact ha
    | _ => cases hd
  · exact fun h => ⟨_, h, rfl⟩

/-- The bounds of a product's cases are among those of its lists. -/
theorem products_bounds {P : Difference → Prop} {out cases : List Case} {lists : List (List Case)}
    (h : products out lists = .ok cases) (hout : ∀ c ∈ out, ∀ d ∈ boundsOf c, P d)
    (hlists : ∀ l ∈ lists, ∀ c ∈ l, ∀ d ∈ boundsOf c, P d) :
    ∀ c ∈ cases, ∀ d ∈ boundsOf c, P d := by
  induction lists generalizing out with
  | nil =>
      obtain rfl := Except.ok.inj h
      exact hout
  | cons l rest ih =>
      unfold products at h
      dsimp only at h
      split at h
      case isTrue => cases h
      case isFalse =>
        split at h
        case isTrue =>
          obtain rfl := Except.ok.inj h
          intro c hc
          cases hc
        case isFalse =>
          refine ih h (fun c hc d hd => ?_) fun l' hl' => hlists l' (List.mem_cons_of_mem l hl')
          obtain ⟨a, ha, hc⟩ := List.mem_flatMap.mp hc
          obtain ⟨b, hb, rfl⟩ := List.mem_map.mp hc
          rcases List.mem_union_iff.mp (mem_boundsOf.mp hd) with hd | hd
          · exact hout a ha d (mem_boundsOf.mpr hd)
          · exact hlists l List.mem_cons_self b hb d (mem_boundsOf.mpr hd)

theorem anyM_ok {α ε : Type} {f : α → Except ε Bool} {xs : List α} {b : Bool}
    (h : xs.anyM f = .ok b) :
    (b = true → ∃ x ∈ xs, f x = .ok true) ∧ (b = false → ∀ x ∈ xs, f x = .ok false) := by
  induction xs with
  | nil =>
      obtain rfl := Except.ok.inj h
      exact ⟨fun h => (by cases h), fun _ x hx => (by cases hx)⟩
  | cons x rest ih =>
      obtain ⟨c, hc, h⟩ := ok_of_bind h
      cases c with
      | true =>
          obtain rfl := Except.ok.inj h
          exact ⟨fun _ => ⟨x, List.mem_cons_self, hc⟩, fun h => (by cases h)⟩
      | false =>
          obtain ⟨htrue, hfalse⟩ := ih h
          refine ⟨fun hb => ?_, fun hb => List.forall_mem_cons.mpr ⟨hc, hfalse hb⟩⟩
          obtain ⟨y, hy, hfy⟩ := htrue hb
          exact ⟨y, List.mem_cons_of_mem x hy, hfy⟩

/-- The terms of requirements' bounds are all whole, or none of them is. -/
def UniformReqs (info : Var → Option Info) (reqs : List Requirement) : Prop :=
  Uniform (isWhole info) (boundsAmong reqs)

/-- **Requirements judged to contradict do**, and uniform ones judged not to can
hold together. -/
theorem anySatisfiable_sound {reqs : List Requirement} {b : Bool}
    (hzero : isWhole info .zero = false) (h : anySatisfiable info reqs = .ok b) :
    (b = false → ∀ A : Assignment, A.Fits info → ¬ Hold A reqs) ∧
      (UniformReqs info reqs → b = true → ∃ A : Assignment, A.Fits info ∧ Hold A reqs) := by
  obtain ⟨cases, hproduct, h⟩ := ok_of_bind h
  have hhold : ∀ A, (∃ c ∈ cases, c.Holds A) ↔ Hold A reqs := by
    intro A
    rw [products_hold hproduct, and_iff_right ⟨[], List.mem_singleton.mpr rfl, by simp [Case.Holds]⟩]
    unfold Hold
    rw [List.forall_mem_map]
  obtain ⟨htrue, hfalse⟩ := anyM_ok h
  constructor
  · intro hb A hfits hholds
    obtain ⟨c, hc, hcase⟩ := (hhold A).mpr hholds
    exact (satisfiable_sound hzero (hfalse hb c hc)).1 rfl A hfits hcase
  · intro huniform hb
    obtain ⟨c, hc, hsatisfiable⟩ := htrue hb
    have hamong : ∀ l ∈ reqs.map Prod.snd, ∀ c ∈ l, ∀ d ∈ boundsOf c, d ∈ boundsAmong reqs := by
      intro l hl c hc d hd
      obtain ⟨r, hr, rfl⟩ := List.mem_map.mp hl
      exact List.mem_flatMap.mpr ⟨r, hr, List.mem_flatMap.mpr ⟨c, hc, hd⟩⟩
    have hcase : c.Uniform info := huniform.fewer
      (products_bounds hproduct (by simp [boundsOf]) hamong c hc)
    obtain ⟨A, hfits, hholds⟩ := (satisfiable_sound hzero hsatisfiable).2 hcase rfl
    exact ⟨A, hfits, (hhold A).mp ⟨c, hc, hholds⟩⟩

/-! ### The core of a contradiction -/

/-- Some values declared satisfy all the requirements. -/
def CanHold (info : Var → Option Info) (reqs : List Requirement) : Prop :=
  ∃ A : Assignment, A.Fits info ∧ Hold A reqs

theorem CanHold.fewer {reqs reqs' : List Requirement} (h : CanHold info reqs')
    (hsub : ∀ r ∈ reqs, r ∈ reqs') : CanHold info reqs := by
  obtain ⟨A, hfits, hholds⟩ := h
  exact ⟨A, hfits, fun r hr => hholds r (hsub r hr)⟩

theorem canHold_nil : CanHold info [] := by
  refine ⟨⟨fun _ => true, fun _ => .b true, fun _ => "", fun _ => 0, fun _ => .t⟩, ?_, fun r hr => ?_⟩
  · exact
      { required := fun v i _ h => by cases h
        zero := rfl
        whole := fun v _ => ⟨0, Int.cast_zero.symm⟩
        counts := fun _ => le_rfl }
  · cases hr

/-- What a pass over the requirements left keeps: they contradict, and each kept
more often than it is still to be tried is needed. -/
structure Cutting (info : Var → Option Info) (reqs pending kept : List Requirement) : Prop where
  contradict : anySatisfiable info kept = .ok false
  sub : ∀ r ∈ kept, r ∈ reqs
  needed : UniformReqs info reqs →
    ∀ r ∈ kept, kept.count r ≤ pending.count r ∨ CanHold info (kept.erase r)

theorem UniformReqs.fewer {reqs reqs' : List Requirement} (h : UniformReqs info reqs')
    (hsub : ∀ r ∈ reqs, r ∈ reqs') : UniformReqs info reqs :=
  Uniform.fewer h fun d hd => by
    obtain ⟨r, hr, hd⟩ := List.mem_flatMap.mp hd
    exact List.mem_flatMap.mpr ⟨r, hsub r hr, hd⟩

/-- A requirement tried and kept. -/
theorem Cutting.keep {reqs pending kept : List Requirement} {r : Requirement}
    (h : Cutting info reqs (r :: pending) kept)
    (hneeded : UniformReqs info reqs → r ∈ kept → CanHold info (kept.erase r)) :
    Cutting info reqs pending kept where
  contradict := h.contradict
  sub := h.sub
  needed huniform x hx := by
    rcases eq_or_ne x r with rfl | hne
    · exact .inr (hneeded huniform hx)
    · have hcount := h.needed huniform x hx
      rwa [List.count_cons_of_ne hne.symm] at hcount

theorem Cutting.leaveOut (hzero : isWhole info .zero = false) {reqs pending kept kept' : List Requirement}
    {r : Requirement} (h : Cutting info reqs (r :: pending) kept)
    (hone : leaveOut info kept r = .ok kept') : Cutting info reqs pending kept' := by
  unfold Logic.leaveOut at hone
  split at hone
  case isTrue hr =>
    dsimp only at hone
    split at hone
    case isTrue hempty =>
      obtain rfl := Except.ok.inj hone
      refine h.keep fun _ _ => ?_
      rw [List.isEmpty_iff.mp hempty]
      exact canHold_nil
    case isFalse =>
      obtain ⟨b, hb, hone⟩ := ok_of_bind hone
      have hkept := Except.ok.inj hone
      have hsub : ∀ x ∈ kept.erase r, x ∈ reqs := fun x hx => h.sub x (List.mem_of_mem_erase hx)
      cases b with
      | true =>
          obtain rfl : kept = kept' := hkept
          exact h.keep fun huniform _ =>
            (anySatisfiable_sound hzero hb).2 (huniform.fewer hsub) rfl
      | false =>
          obtain rfl : kept.erase r = kept' := hkept
          refine ⟨hb, hsub, fun huniform x hx => ?_⟩
          rcases h.needed huniform x (List.mem_of_mem_erase hx) with hcount | hneeded
          · refine .inl ?_
            rw [List.count_cons] at hcount
            rw [List.count_erase]
            by_cases heq : (r == x) = true
            · rw [if_pos heq] at hcount ⊢
              omega
            · rw [if_neg heq] at hcount ⊢
              exact hcount
          · refine .inr (hneeded.fewer fun y hy => ?_)
            rw [List.erase_comm] at hy
            exact List.mem_of_mem_erase hy
  case isFalse hr =>
    obtain rfl := Except.ok.inj hone
    exact h.keep fun _ hmem => absurd hmem hr

/-- **A core is one**: what is kept of requirements that contradict contradicts,
and of uniform ones, any one of it left out, the rest can hold. -/
theorem core_minimal {reqs kept : List Requirement} (hzero : isWhole info .zero = false)
    (hcontradict : anySatisfiable info reqs = .ok false) (h : core info reqs = .ok kept) :
    ¬ CanHold info kept ∧
      (UniformReqs info reqs → ∀ r ∈ kept, CanHold info (kept.erase r)) := by
  have hcut : ∀ (pending : List Requirement) {kept₀ : List Requirement},
      Cutting info reqs pending kept₀ → pending.foldlM (leaveOut info) kept₀ = .ok kept →
        Cutting info reqs [] kept := by
    intro pending
    induction pending with
    | nil =>
        intro kept₀ hcutting hfold
        obtain rfl := Except.ok.inj hfold
        exact hcutting
    | cons r rest ih =>
        intro kept₀ hcutting hfold
        rw [List.foldlM_cons] at hfold
        obtain ⟨kept₁, hone, hfold⟩ := ok_of_bind hfold
        exact ih (hcutting.leaveOut hzero hone) hfold
  have hend := hcut reqs ⟨hcontradict, fun _ hr => hr, fun _ _ _ => .inl le_rfl⟩ h
  refine ⟨fun hcan => ?_, fun huniform r hr => ?_⟩
  · obtain ⟨A, hfits, hholds⟩ := hcan
    exact (anySatisfiable_sound hzero hend.contradict).1 rfl A hfits hholds
  · refine (hend.needed huniform r hr).resolve_left fun hcount => ?_
    have hpos := List.count_pos_iff.mpr hr
    rw [List.count_nil] at hcount
    omega

/-! ### A comparison's cases -/

/-- The comparison that holds where one does not. -/
def negation : BinOp → BinOp
  | .le => .gt
  | .lt => .ge
  | .ge => .lt
  | .gt => .le
  | .eq => .ne
  | _ => .eq

/-- A comparison of two values' difference with a constant, as bounds: an equality
bounds it both ways, and an inequality one way or the other. -/
def relation (op : BinOp) (u v : Var) (c : ℚ) : Decided (List Case) :=
  let le strict : Atom := .le { u, v, c, strict }
  let ge strict : Decided Atom := do
    return .le { u := v, v := u, c := (← Fraction.neg c), strict }
  match op with
  | .le => .ok [[le false]]
  | .lt => .ok [[le true]]
  | .ge => do return [[← ge false]]
  | .gt => do return [[← ge true]]
  | .eq => do return [[le false, ← ge false]]
  | _ => do return [[le true], [← ge true]]

/-- `u + cu` compared with `v + cv`, as difference bounds on `u - v`. -/
def ordered (op : BinOp) (u : Option Var) (cu : ℚ) (v : Option Var) (cv : ℚ) (want : Want) :
    Decided (List Case) :=
  let read := u.toList ++ v.toList
  if want = .u then .ok (read.map fun x => [.null x])
  else do
    let cases ← relation (if want = .t then op else negation op) (u.getD .zero) (v.getD .zero)
      (← Fraction.sub cv cu)
    return cases.map fun atoms => (read.map Atom.present ++ atoms).dedup

/-- The number a side of a comparison has. -/
def Assignment.side (A : Assignment) (u : Option Var) (cu : ℚ) : ℚ := A.number (u.getD .zero) + cu

theorem le_holds {u v : Var} {c : ℚ} {strict : Bool} :
    (Atom.le { u, v, c, strict }).Holds A ↔
      if strict then A.number u - A.number v < c else A.number u - A.number v ≤ c := Iff.rfl

/-- A bound the other way round. -/
theorem ge_holds {u v : Var} {c d : ℚ} {strict : Bool} (hd : Fraction.neg c = .ok d) :
    (Atom.le { u := v, v := u, c := d, strict }).Holds A ↔
      if strict then c < A.number u - A.number v else c ≤ A.number u - A.number v := by
  rw [le_holds, Fraction.neg_ok hd, ← neg_sub (A.number u) (A.number v), neg_lt_neg_iff,
    neg_le_neg_iff]

theorem case_nil : Case.Holds A [] := fun _ h => by cases h

theorem case_cons {a : Atom} {rest : Case} :
    Case.Holds A (a :: rest) ↔ a.Holds A ∧ Case.Holds A rest := List.forall_mem_cons

theorem relation_holds {op : BinOp} {u v : Var} {c : ℚ} {cases : List Case}
    (hop : op ∈ [BinOp.eq, .ne, .lt, .le, .gt, .ge]) (h : relation op u v c = .ok cases) :
    (∃ case ∈ cases, case.Holds A) ↔ compared op (A.number u - A.number v) c = true := by
  have hcase : ∀ a : Atom, Case.Holds A [a] ↔ a.Holds A :=
    fun a => case_cons.trans (and_iff_left case_nil)
  unfold relation at h
  dsimp only at h
  split at h
  case h_1 | h_2 =>
    obtain rfl := Except.ok.inj h
    simp [hcase, le_holds, compared]
  case h_3 | h_4 =>
    obtain ⟨_, hge, h⟩ := ok_of_bind h
    obtain ⟨d, hd, hge⟩ := ok_of_bind hge
    obtain rfl := Except.ok.inj hge
    obtain rfl := Except.ok.inj h
    simp [hcase, ge_holds hd, compared]
  case h_5 =>
    obtain ⟨_, hge, h⟩ := ok_of_bind h
    obtain ⟨d, hd, hge⟩ := ok_of_bind hge
    obtain rfl := Except.ok.inj hge
    obtain rfl := Except.ok.inj h
    simp only [List.mem_singleton, exists_eq_left, case_cons, hcase, le_holds, ge_holds hd, compared,
      decide_eq_true_eq, Bool.false_eq_true, if_false]
    exact le_antisymm_iff.symm
  case h_6 h₁ h₂ h₃ h₄ h₅ =>
    obtain ⟨_, hge, h⟩ := ok_of_bind h
    obtain ⟨d, hd, hge⟩ := ok_of_bind hge
    obtain rfl := Except.ok.inj hge
    obtain rfl := Except.ok.inj h
    have hne : op = .ne := by grind
    subst hne
    simp [hcase, le_holds, ge_holds hd, compared, lt_or_lt_iff_ne]

theorem compared_negation {op : BinOp} {x y : ℚ} (hop : op ∈ [BinOp.eq, .ne, .lt, .le, .gt, .ge]) :
    negation op ∈ [BinOp.eq, .ne, .lt, .le, .gt, .ge] ∧
      compared (negation op) x y = !compared op x y := by
  simp only [List.mem_cons, List.not_mem_nil, or_false] at hop
  rcases hop with rfl | rfl | rfl | rfl | rfl | rfl
  all_goals
    refine ⟨by decide, ?_⟩
    simp only [compared, negation, ← decide_not, not_lt, not_le, not_not]

theorem compared_sub {op : BinOp} {x y a b : ℚ} :
    compared op (x - y) (b - a) = compared op (x + a) (y + b) := by
  cases op <;> simp only [compared] <;> grind

/-- **A comparison's cases are its own**: one of them holds exactly where every
value it reads is present and its sides compare so, or where wanted false do
not. -/
theorem ordered_holds {op : BinOp} {u v : Option Var} {cu cv : ℚ} {want : Want} {cases : List Case}
    (hop : op ∈ [BinOp.eq, .ne, .lt, .le, .gt, .ge]) (hwant : want ≠ .u)
    (h : ordered op u cu v cv want = .ok cases) :
    (∃ case ∈ cases, case.Holds A) ↔ (∀ x ∈ u.toList ++ v.toList, A.present x = true) ∧
      compared op (A.side u cu) (A.side v cv) = decide (want = .t) := by
  unfold ordered at h
  dsimp only at h
  rw [if_neg hwant] at h
  obtain ⟨c, hc, h⟩ := ok_of_bind h
  obtain ⟨related, hrelation, h⟩ := ok_of_bind h
  obtain rfl := Except.ok.inj h
  have hread : ∀ case : Case, Case.Holds A (((u.toList ++ v.toList).map Atom.present ++ case).dedup) ↔
      (∀ x ∈ u.toList ++ v.toList, A.present x = true) ∧ case.Holds A := by
    intro case
    unfold Case.Holds
    simp only [List.mem_dedup, List.forall_mem_append, List.forall_mem_map]
    rfl
  have hsub : compared op (A.number (u.getD .zero) - A.number (v.getD .zero)) c =
      compared op (A.side u cu) (A.side v cv) := by
    rw [Fraction.sub_ok hc]
    exact compared_sub
  have hsides : (∃ case ∈ related, Case.Holds A case) ↔
      compared op (A.side u cu) (A.side v cv) = decide (want = .t) := by
    cases want with
    | u => exact absurd rfl hwant
    | t =>
        rw [if_pos rfl] at hrelation
        rw [relation_holds hop hrelation, hsub]
        rfl
    | f =>
        rw [if_neg (by decide)] at hrelation
        obtain ⟨hnegation, hnot⟩ := compared_negation (x := A.number (u.getD .zero) -
          A.number (v.getD .zero)) (y := c) hop
        rw [relation_holds hnegation hrelation, hnot, hsub, Bool.not_eq_true']
        rfl
  rw [← hsides]
  simp only [List.mem_map, exists_exists_and_eq_and, hread]
  constructor
  · intro hsome
    obtain ⟨case, hmem, hpresent, hcase⟩ := hsome
    exact ⟨hpresent, case, hmem, hcase⟩
  · intro hboth
    obtain ⟨hpresent, case, hmem, hcase⟩ := hboth
    exact ⟨case, hmem, hpresent, hcase⟩

/-- Wanted unknown, a comparison's cases are the absences of what it reads. -/
theorem ordered_unknown {op : BinOp} {u v : Option Var} {cu cv : ℚ} {cases : List Case}
    (h : ordered op u cu v cv .u = .ok cases) :
    (∃ case ∈ cases, case.Holds A) ↔ ∃ x ∈ u.toList ++ v.toList, A.present x = false := by
  obtain rfl := Except.ok.inj h
  simp only [List.mem_map, exists_exists_and_eq_and]
  exact exists_congr fun x => and_congr Iff.rfl List.forall_mem_singleton

/-- **The solver and its cores.**  Bounds answered to have no solution have none, and
where their terms are all whole, or none of them is, bounds without a solution are
answered so; a comparison's cases say what it does, an inequality's among them; and
a core of requirements that contradict contradicts, and of uniform ones no more
once any one is left out. -/
theorem solver_exact :
    (∀ (whole : Var → Bool) (bounds : List Difference) (b : Bool), consistent whole bounds = .ok b →
        (b = false → ∀ ρ, ¬ Satisfies whole bounds ρ) ∧
          (Uniform whole bounds → b = true → ∃ ρ, Satisfies whole bounds ρ)) ∧
      (∀ (op : BinOp) (u v : Option Var) (cu cv : ℚ) (want : Want) (cases : List Case)
        (A : Assignment), op ∈ [BinOp.eq, .ne, .lt, .le, .gt, .ge] → want ≠ .u →
          ordered op u cu v cv want = .ok cases →
            ((∃ case ∈ cases, case.Holds A) ↔ (∀ x ∈ u.toList ++ v.toList, A.present x = true) ∧
              compared op (A.side u cu) (A.side v cv) = decide (want = .t))) ∧
        ∀ (info : Var → Option Info) (reqs kept : List Requirement),
          isWhole info .zero = false → anySatisfiable info reqs = .ok false →
            core info reqs = .ok kept → ¬ CanHold info kept ∧
              (UniformReqs info reqs → ∀ r ∈ kept, CanHold info (kept.erase r)) :=
  ⟨fun _ _ _ h => consistent_sound h, fun _ _ _ _ _ _ _ _ hop hwant h => ordered_holds hop hwant h,
    fun _ _ _ hzero hcontradict h => core_minimal hzero hcontradict h⟩

namespace Mixed

/-- A number of lines, whole, and an amount. -/
def whole (v : Var) : Bool := v = .attr "lines"

/-- `0 < lines`, `lines < 1` and `0 < amount`. -/
def bounds : List Difference :=
  [{ u := .zero, v := .attr "lines", c := 0, strict := true },
    { u := .attr "lines", v := .zero, c := 1, strict := true },
    { u := .zero, v := .attr "amount", c := 0, strict := true }]

/-- Without the amount the solver answers that no number of lines is between. -/
theorem between_none : ∀ ρ, ¬ Satisfies whole (bounds.take 2) ρ :=
  (solver_exact.1 whole (bounds.take 2) false (by decide +kernel)).1 rfl

/-- Beside an amount it answers that one is. -/
theorem between_answered :
    ¬ ∀ (whole : Var → Bool) (bounds : List Difference) (b : Bool), consistent whole bounds = .ok b →
      (b = false ↔ ∀ ρ, ¬ Satisfies whole bounds ρ) := by
  intro h
  have hanswer : consistent whole bounds = .ok true := by decide +kernel
  have hnone : ∀ ρ, ¬ Satisfies whole bounds ρ := by
    intro ρ hρ
    obtain ⟨n, hn⟩ := hρ.whole (.attr "lines") rfl
    have hlow : ρ .zero - ρ (.attr "lines") < 0 := hρ.bounds _ List.mem_cons_self
    have hhigh : ρ (.attr "lines") - ρ .zero < 1 :=
      hρ.bounds _ (List.mem_cons_of_mem _ List.mem_cons_self)
    rw [hρ.zero, hn, zero_sub, neg_lt_zero] at hlow
    rw [hρ.zero, hn, sub_zero] at hhigh
    have hpos : 0 < n := by exact_mod_cast hlow
    have hone : n < 1 := by exact_mod_cast hhigh
    omega
  exact absurd ((h whole bounds true hanswer).mpr hnone) (by decide)

end Mixed

end ObjectFlow.Logic
