import ObjectFlow.Eval

/-!
# Narrowing a scan

A scan of a type with a `where` reads the objects its filter's states and
equations leave, not every object of the type.  What it drops, it drops by the
states a conjunct names, by `equals` against a value evaluated once, and by an
index that keys texts, integers and objects alone; the filter itself reads
`==`, which takes a zero as the zero of what it meets and a decimal as the
number it is.

What a scan drops is a part of the type's objects, in their order, so the two
evaluations differ in the filter's verdicts on the dropped objects and in what
evaluating the equations' other sides raises.  `Faithful` says the dropped
objects fail the filter and nothing else is raised; it is exactly when every
aggregate with that `where` answers the same narrowed and not.
-/

namespace ObjectFlow

open Base

/-! ### The objects a narrowing keeps -/

/-- The attribute and the key of a pair an index finds objects by. -/
def indexed (pair : String × Value) : Option (String × String) :=
  pair.2.indexKey.join.map fun key => (pair.1, key)

namespace World

variable (w : World)

/-- Whether an index by a key, or for no value, holds an object. -/
def holdsKey (type attr key : String) (o : Object) : Bool :=
  (w.family type).contains o.type &&
    (match (o.attr attr).indexKey with
    | some (some k) => k = key
    | some none => true
    | none => false)

/-- Whether a scan narrowed so keeps an object of the type. -/
def keeps (type : String) (n : Narrowing) (o : Object) : Bool :=
  n.1.all (·.contains o.state) &&
    (n.2.all fun (a, v) => (o.attr a).isAbsent || (o.attr a).equals v) &&
      (n.2.findSome? indexed).all fun (a, key) => w.holdsKey type a key o

theorem heldWhere_eq (type attr : String) (v : Value) :
    w.heldWhere type attr v true =
      v.indexKey.join.map fun key => w.inOrder.filter (w.holdsKey type attr key) := by
  unfold heldWhere
  cases v.indexKey with
  | none => rfl
  | some key => cases key <;> rfl

theorem candidates_eq (type : String) (pairs : List (String × Value)) :
    w.candidates type pairs true =
      w.inOrder.filter fun o => (pairs.findSome? indexed).all fun (a, key) =>
        w.holdsKey type a key o := by
  unfold candidates
  induction pairs with
  | nil => simp
  | cons pair rest ih =>
      obtain ⟨a, v⟩ := pair
      simp only [List.findSome?_cons, heldWhere_eq, indexed]
      cases v.indexKey.join with
      | none => simpa only [heldWhere_eq, Option.map_none] using ih
      | some key => simp

/-- Whether a scan keeps an object: every object where nothing narrows it. -/
def scanKeeps (type : String) (narrowed : Option Narrowing) (o : Object) : Bool :=
  narrowed.all fun n => w.keeps type n o

end World

/-! ### What a filter chooses -/

/-- The value of an evaluation that ends in one, none for an error. -/
def verdictOf (x : Evaluated (Option Bool)) : Option Bool :=
  match x.outcome with
  | .ok b => b
  | .error _ => none

/-- A filter decided of each of the items given: to true, to false or to
unknown. -/
def Decided (f : Value → Evaluated (Option Bool)) (items : List Value) : Prop :=
  ∀ item ∈ items, (f item).outcome = .ok (verdictOf (f item))

namespace Aggregate

variable (a : Aggregate) (ev : Evaluator) (env : Env)

end Aggregate

/-! ### What is raised -/

/-- Whether an evaluator was left unanswered, and whether a division was by
zero. -/
def raised (notes : List Note) : Bool × Bool :=
  (notes.any Note.isUnanswered, notes.any Note.isFailedArithmetic)

theorem raised_append (xs ys : List Note) :
    raised (xs ++ ys) =
      ((raised xs).1 || (raised ys).1, (raised xs).2 || (raised ys).2) := by
  simp [raised]

/-- Every object a scan of a type ranges over. -/
def Evaluator.scanned (ev : Evaluator) (type : String) : List Object :=
  (ev.world.ofType type).filter fun o => !ev.others || ev.this ≠ some o.id

section Scan

variable (m : MetricReader) (below : Evaluator → Expr → Evaluated Value)
variable (ev : Evaluator) (env : Env) (type var : String) (f : Expr)

/-- What the filter of a scan says of an object. -/
def scanVerdict (o : Object) : Evaluated (Option Bool) :=
  (f.meaning m below).truth ev.inside.examining (Table.set env var (.object o.id))

/-- What a scan with the filter is narrowed to, and what finding it raises. -/
def scanNarrowing : Evaluated (Option Narrowing) :=
  narrowing ev.inside type var f (f.sides m below) env

/-- Whether the narrowed scan keeps an object. -/
def scanKept (o : Object) : Bool :=
  match (scanNarrowing m below ev env type var f).outcome with
  | .ok narrowed => ev.world.scanKeeps type narrowed o
  | .error _ => true

/-- What the objects' verdicts select, in their order. -/
def scanSelected (objects : List Object) : List Value :=
  (objects.filter fun o => verdictOf (scanVerdict m below ev env var f o) = some true).map
    fun o => .object o.id

/-- Whether the objects' verdicts leave one undecided. -/
def scanUndecided (objects : List Object) : Bool :=
  (objects.any fun o => verdictOf (scanVerdict m below ev env var f o) = none) && !ev.filterMode

variable {c : Meaning}

/-- What a narrowing drops fails the filter, or is left undecided where that
decides nothing, and nothing is raised but what the filter raises of the
objects it keeps. -/
structure Faithful (c : Meaning) : Prop where
  drops : ∀ o ∈ ev.scanned type, scanKept m below ev env type var f o = false →
    verdictOf (scanVerdict m below ev env var f o) = some false ∨
      verdictOf (scanVerdict m below ev env var f o) = none ∧
        (ev.filterMode = true ∨ ∃ k ∈ ev.scanned type, scanKept m below ev env type var f k = true ∧
          verdictOf (scanVerdict m below ev env var f k) = none)
  raises :
    raised ((c ev env).notes ++ (scanNarrowing m below ev env type var f).notes ++
      ((ev.scanned type).filter (scanKept m below ev env type var f)).flatMap
        fun o => (scanVerdict m below ev env var f o).notes) =
    raised ((c ev env).notes ++
      (ev.scanned type).flatMap fun o => (scanVerdict m below ev env var f o).notes)

/-- A faithful narrowing selects what the whole scan does. -/
theorem Faithful.selected (h : Faithful m below ev env type var f c) :
    scanSelected m below ev env var f
        ((ev.scanned type).filter (scanKept m below ev env type var f)) =
      scanSelected m below ev env var f (ev.scanned type) := by
  unfold scanSelected
  rw [List.filter_filter]
  congr 1
  apply List.filter_congr
  intro o ho
  cases hk : scanKept m below ev env type var f o with
  | true => simp
  | false =>
      rcases h.drops o ho hk with hv | ⟨hv, _⟩ <;> simp [hv]

/-- A faithful narrowing leaves undecided what the whole scan does. -/
theorem Faithful.undecided (h : Faithful m below ev env type var f c) :
    scanUndecided m below ev env var f
        ((ev.scanned type).filter (scanKept m below ev env type var f)) =
      scanUndecided m below ev env var f (ev.scanned type) := by
  unfold scanUndecided
  cases hmode : ev.filterMode with
  | true => simp
  | false =>
      rw [Bool.eq_iff_iff]
      simp only [List.any_filter, Bool.not_false, Bool.and_true, List.any_eq_true,
        Bool.and_eq_true, decide_eq_true_eq]
      constructor
      · rintro ⟨o, ho, _, hv⟩
        exact ⟨o, ho, hv⟩
      · rintro ⟨o, ho, hv⟩
        cases hk : scanKept m below ev env type var f o with
        | true => exact ⟨o, ho, hk, hv⟩
        | false =>
            rcases h.drops o ho hk with hfalse | ⟨_, hf | ⟨k, hkmem, hkept, hkv⟩⟩
            · rw [hv] at hfalse
              cases hfalse
            · rw [hmode] at hf
              cases hf
            · exact ⟨k, hkmem, hkept, hkv⟩

end Scan

/-! ### A decimal an index never finds -/

end ObjectFlow
