import Mathlib.Data.Set.Card
import ObjectFlow.Aggregates

/-!
# A group's values

What each of a metric's aggregates is of a group of rows taken in no order: a
count, the classes of values `==` takes for one, or a number defined over the
numbers present.  The metric's value over the rows, in whichever order they
come, is that number, and is rounded once; but an average whose total cannot be
divided in 128 bits is answered as absent.
-/

namespace ObjectFlow

open Base

/-- Values `==` takes for one. -/
def Value.setoid : Setoid Value where
  r a b := a.equals b = true
  iseqv := ⟨Value.equals_self, Value.equals_symm, Value.equals_trans⟩

/-- An aggregate over a metric's rows. -/
inductive RowAggregate where
  | count
  | counted (filter : Option Expr)
  | distinct (filter body : Option Expr)
  | sum (body : Expr)
  | min (body : Expr)
  | max (body : Expr)
  | avg (body : Expr)
  | median (body : Expr)
  | percentile (p body : Expr)

/-- The aggregate an expression is. -/
def aggregate? : Expr → Option RowAggregate
  | .agg .count distinctly none _ filter body =>
      some (if distinctly then .distinct filter body else .counted filter)
  | .call (.name f) args =>
      if f = "count" then if args.isEmpty then some .count else none
      else args.getLast?.bind fun body =>
        if f = "sum" then some (.sum body)
        else if f = "min" then some (.min body)
        else if f = "max" then some (.max body)
        else if f = "avg" then some (.avg body)
        else if f = "median" then some (.median body)
        else if f = "percentile" then args.head?.map (.percentile · body)
        else none
  | _ => none

/-- A number said of those present, none of none. -/
def OfPresent (s : Multiset ℚ) (P : ℚ → Prop) : Option ℚ → Prop
  | none => s = 0
  | some x => s ≠ 0 ∧ P x

/-- What is one number of those present is one of them or none. -/
theorem OfPresent.unique {s : Multiset ℚ} {P : ℚ → Prop} {x y : Option ℚ}
    (hx : OfPresent s P x) (hy : OfPresent s P y) (hone : ∀ a b, P a → P b → a = b) : x = y := by
  cases x with
  | none =>
      cases y with
      | none => rfl
      | some b => exact absurd hx hy.1
  | some a =>
      cases y with
      | none => exact absurd hy hx.1
      | some b => exact congrArg some (hone a b hx.2 hy.2)

/-- The nearest rank of a share, absent where the share is. -/
def OfShare (share : Option ℚ) (s : Multiset ℚ) (x : Option ℚ) : Prop :=
  match share with
  | some q => OfPresent s (NearestRank s q) x
  | none => x = none

theorem OfShare.unique {share : Option ℚ} {s : Multiset ℚ} {x y : Option ℚ}
    (hx : OfShare share s x) (hy : OfShare share s y) : x = y := by
  cases share with
  | none => exact Eq.trans hx (Eq.symm hy)
  | some q => exact OfPresent.unique hx hy fun _ _ => IsLeast.unique

section Rows

variable (m : MetricReader) (ev : Evaluator) (item : String)

/-- The number an expression has, where it has one. -/
def present (e : Expr) (env : Env) : Option ℚ :=
  match number m ev e env with
  | .ok n => n.value?
  | .error _ => none

/-- The numbers of a group's rows. -/
def numbers (body : Expr) (group : Multiset Value) : Multiset ℚ :=
  group.filterMap fun r => present m ev body [(item, r)]

def keeps (filter : Option Expr) (r : Value) : Bool :=
  match kept m ev item filter r with
  | .ok b => b
  | .error _ => false

/-- The values of the rows kept, those `==` takes for one once. -/
def classes (filter body : Option Expr) (group : Multiset Value) :
    Set (Quotient Value.setoid) :=
  {c | ∃ r ∈ group, keeps m ev item filter r = true ∧
    ∃ v, bodyValue m ev item body r = .ok v ∧ v ≠ .absent ∧ c = Quotient.mk Value.setoid v}

/-- The number an aggregate is of a group. -/
def RowAggregate.Is (group : Multiset Value) : RowAggregate → Option ℚ → Prop
  | .count, x => x = some (group.card : ℚ)
  | .counted filter, x => x = some (group.countP (keeps m ev item filter · = true) : ℚ)
  | .distinct filter body, x => x = some ((classes m ev item filter body group).ncard : ℚ)
  | .sum body, x => x = some (numbers m ev item body group).sum
  | .min body, x =>
      OfPresent (numbers m ev item body group)
        (IsLeast {y | y ∈ numbers m ev item body group}) x
  | .max body, x =>
      OfPresent (numbers m ev item body group)
        (IsGreatest {y | y ∈ numbers m ev item body group}) x
  | .avg body, x =>
      OfPresent (numbers m ev item body group)
        (· = (numbers m ev item body group).sum / (numbers m ev item body group).card) x
  | .median body, x =>
      OfPresent (numbers m ev item body group)
        (NearestRank (numbers m ev item body group) (1 / 2)) x
  | .percentile p body, x =>
      OfShare (present m ev p []) (numbers m ev item body group) x

/-- Every row has what the aggregate reads of it. -/
def RowAggregate.Readable (group : Multiset Value) : RowAggregate → Prop
  | .count => True
  | .counted filter => ∀ r ∈ group, ∃ b, kept m ev item filter r = .ok b
  | .distinct filter body =>
      ∀ r ∈ group, (∃ b, kept m ev item filter r = .ok b) ∧
        ∃ v, bodyValue m ev item body r = .ok v
  | .sum body | .min body | .max body | .avg body | .median body =>
      ∀ r ∈ group, ∃ n, number m ev body [(item, r)] = .ok n
  | .percentile p body =>
      (∀ r ∈ group, ∃ n, number m ev body [(item, r)] = .ok n) ∧ ∃ n, number m ev p [] = .ok n

variable {m ev item}

/-! ### What is gathered of rows -/

theorem present_ok {e : Expr} {env : Env} {n : Num} (h : number m ev e env = .ok n) :
    present m ev e env = n.value? := by
  rw [present, h]

/-- **The numbers gathered** are the group's, those present. -/
theorem gathered_numbers {body : Expr} {rows : List Value} {values : List Num}
    (h : gathered m ev item body rows = .ok values) :
    (∀ v ∈ values, v ≠ .absent) ∧ values.length ≤ rows.length ∧
      ((values.filterMap Num.value? : List ℚ) : Multiset ℚ) = numbers m ev item body rows := by
  induction rows generalizing values with
  | nil =>
      obtain rfl := Except.ok.inj h
      exact ⟨fun _ hv => absurd hv List.not_mem_nil, le_rfl, rfl⟩
  | cons r rest ih =>
      obtain ⟨v, hv, h⟩ := ok_of_bind h
      obtain ⟨more, hmore, h⟩ := ok_of_bind h
      obtain ⟨hpresent, hlen, hnumbers⟩ := ih hmore
      have hrow := present_ok hv
      have hgroup : numbers m ev item body (r :: rest : List Value) =
          (((r :: rest).filterMap fun r => present m ev body [(item, r)] : List ℚ) :
            Multiset ℚ) := rfl
      have hrest : numbers m ev item body (rest : List Value) =
          ((rest.filterMap fun r => present m ev body [(item, r)] : List ℚ) : Multiset ℚ) := rfl
      rw [hrest] at hnumbers
      rw [hgroup]
      obtain rfl := Except.ok.inj h
      split
      case isTrue habsent =>
        obtain rfl := Num.isAbsent_iff.mp habsent
        rw [List.filterMap_cons_none (f := fun r => present m ev body [(item, r)]) hrow]
        exact ⟨hpresent, Nat.le_succ_of_le hlen, hnumbers⟩
      case isFalse habsent =>
        have hne : v ≠ .absent := mt Num.isAbsent_iff.mpr habsent
        obtain ⟨x, hx⟩ := Option.ne_none_iff_exists'.mp (mt Num.value?_eq_none.mp hne)
        rw [List.filterMap_cons_some hx,
          List.filterMap_cons_some (f := fun r => present m ev body [(item, r)]) (hrow.trans hx)]
        refine ⟨fun w hw => ?_, Nat.succ_le_succ hlen, congrArg (x ::ₘ ·) hnumbers⟩
        rcases List.mem_cons.mp hw with rfl | hw
        · exact hne
        · exact hpresent w hw

/-- Rows whose bodies have numbers are gathered. -/
theorem gathered_some {body : Expr} {rows : List Value}
    (h : ∀ r ∈ rows, ∃ n, number m ev body [(item, r)] = .ok n) :
    ∃ values, gathered m ev item body rows = .ok values := by
  induction rows with
  | nil => exact ⟨[], rfl⟩
  | cons r rest ih =>
      obtain ⟨n, hn⟩ := h r List.mem_cons_self
      obtain ⟨more, hmore⟩ := ih fun x hx => h x (List.mem_cons_of_mem r hx)
      refine ⟨if n.isAbsent then more else n :: more, ?_⟩
      rw [gathered, hn, hmore]
      rfl

/-- **The rows picked** are those the filter keeps. -/
theorem picked_keeps {filter : Option Expr} {rows found : List Value}
    (h : picked m ev item filter rows = .ok found) :
    found = rows.filter (keeps m ev item filter) := by
  induction rows generalizing found with
  | nil => exact (Except.ok.inj h).symm
  | cons r rest ih =>
      obtain ⟨keep, hkeep, h⟩ := ok_of_bind h
      obtain ⟨more, hmore, h⟩ := ok_of_bind h
      have hkeeps : keeps m ev item filter r = keep := by rw [keeps, hkeep]
      rw [List.filter_cons, hkeeps, ← ih hmore]
      exact (Except.ok.inj h).symm

theorem picked_some {filter : Option Expr} {rows : List Value}
    (h : ∀ r ∈ rows, ∃ b, kept m ev item filter r = .ok b) :
    ∃ found, picked m ev item filter rows = .ok found := by
  induction rows with
  | nil => exact ⟨[], rfl⟩
  | cons r rest ih =>
      obtain ⟨b, hb⟩ := h r List.mem_cons_self
      obtain ⟨more, hmore⟩ := ih fun x hx => h x (List.mem_cons_of_mem r hx)
      refine ⟨if b then r :: more else more, ?_⟩
      rw [picked, hb, hmore]
      rfl

/-- Whether a value was seen, as `==` takes it. -/
theorem seen_any {seen : List Value} {v : Value} :
    seen.any (·.equals v) = true ↔ Quotient.mk Value.setoid v ∈ seen.map (Quotient.mk _) := by
  rw [List.any_eq_true, List.mem_map]
  exact exists_congr fun x => and_congr_right fun _ => (Quotient.eq (r := Value.setoid)).symm

/-- **The values seen** stand for the classes of the rows', each once. -/
theorem distinct_classes {body : Option Expr} {rows seen found : List Value}
    (hseen : (seen.map (Quotient.mk Value.setoid)).Nodup)
    (h : distinct m ev item body seen rows = .ok found) :
    (found.map (Quotient.mk Value.setoid)).Nodup ∧
      ∀ c, c ∈ found.map (Quotient.mk Value.setoid) ↔
        c ∈ seen.map (Quotient.mk Value.setoid) ∨
          ∃ r ∈ rows, ∃ v, bodyValue m ev item body r = .ok v ∧ v ≠ .absent ∧
            c = Quotient.mk Value.setoid v := by
  induction rows generalizing seen with
  | nil =>
      obtain rfl := Except.ok.inj h
      exact ⟨hseen, fun c => by simp⟩
  | cons r rest ih =>
      obtain ⟨v, hv, h⟩ := ok_of_bind h
      have hrow : ∀ c, (∃ v', bodyValue m ev item body r = .ok v' ∧ v' ≠ .absent ∧
          c = Quotient.mk Value.setoid v') ↔ v ≠ .absent ∧ c = Quotient.mk Value.setoid v := by
        intro c
        rw [hv]
        constructor
        · intro ⟨v', hv', hne, hc⟩
          obtain rfl := Except.ok.inj hv'
          exact ⟨hne, hc⟩
        · intro h
          exact ⟨v, rfl, h⟩
      have hcons : ∀ c, (∃ r' ∈ r :: rest, ∃ v', bodyValue m ev item body r' = .ok v' ∧
          v' ≠ .absent ∧ c = Quotient.mk Value.setoid v') ↔
          (v ≠ .absent ∧ c = Quotient.mk Value.setoid v) ∨
            ∃ r' ∈ rest, ∃ v', bodyValue m ev item body r' = .ok v' ∧ v' ≠ .absent ∧
              c = Quotient.mk Value.setoid v' := by
        intro c
        rw [← hrow c]
        simp only [List.mem_cons, exists_eq_or_imp]
      by_cases hnew : (!v.isAbsent && !seen.any (·.equals v)) = true
      · rw [if_pos hnew] at h
        rw [Bool.and_eq_true, Bool.not_eq_true', Bool.not_eq_true'] at hnew
        have hne : v ≠ .absent := fun heq => by
          rw [heq] at hnew
          cases hnew.1
        have hout : Quotient.mk Value.setoid v ∉ seen.map (Quotient.mk _) :=
          mt seen_any.mpr (by rw [hnew.2]; exact Bool.false_ne_true)
        have happend : ((seen ++ [v]).map (Quotient.mk Value.setoid)).Nodup := by
          rw [List.map_append, List.map_singleton, List.nodup_append]
          refine ⟨hseen, List.nodup_singleton _, fun a ha b hb hab => ?_⟩
          rw [hab, List.mem_singleton.mp hb] at ha
          exact hout ha
        obtain ⟨hnodup, hmem⟩ := ih happend h
        refine ⟨hnodup, fun c => ?_⟩
        rw [hmem, hcons, List.map_append, List.mem_append, List.map_singleton,
          List.mem_singleton, or_assoc]
        exact or_congr_right (or_congr_left (and_iff_right hne).symm)
      · rw [if_neg hnew] at h
        obtain ⟨hnodup, hmem⟩ := ih hseen h
        refine ⟨hnodup, fun c => ?_⟩
        rw [hmem, hcons]
        have hold : v ≠ .absent ∧ c = Quotient.mk Value.setoid v →
            c ∈ seen.map (Quotient.mk Value.setoid) := by
          intro ⟨hne, hc⟩
          rw [hc]
          refine seen_any.mp ?_
          have habsent : v.isAbsent = false := eq_false_of_ne_true (mt Value.isAbsent_iff.mp hne)
          rw [habsent] at hnew
          simpa using hnew
        constructor
        · intro h
          exact h.imp_right .inr
        · intro h
          rcases h with h | h | h
          · exact .inl h
          · exact .inl (hold h)
          · exact .inr h

theorem distinct_some {body : Option Expr} {rows : List Value}
    (h : ∀ r ∈ rows, ∃ v, bodyValue m ev item body r = .ok v) (seen : List Value) :
    ∃ found, distinct m ev item body seen rows = .ok found := by
  induction rows generalizing seen with
  | nil => exact ⟨seen, rfl⟩
  | cons r rest ih =>
      obtain ⟨v, hv⟩ := h r List.mem_cons_self
      obtain ⟨found, hfound⟩ :=
        ih (fun x hx => h x (List.mem_cons_of_mem r hx))
          (if !v.isAbsent && !seen.any (·.equals v) then seen ++ [v] else seen)
      refine ⟨found, ?_⟩
      rw [distinct, hv]
      exact hfound

theorem distinct_length {body : Option Expr} {rows seen found : List Value}
    (h : distinct m ev item body seen rows = .ok found) :
    found.length ≤ seen.length + rows.length := by
  induction rows generalizing seen with
  | nil =>
      obtain rfl := Except.ok.inj h
      exact Nat.le_add_right _ _
  | cons r rest ih =>
      obtain ⟨v, -, h⟩ := ok_of_bind h
      have hle := ih h
      rw [List.length_cons]
      split at hle
      · rw [List.length_append, List.length_singleton] at hle
        omega
      · omega

/-- **The values counted as distinct** are the classes of the rows kept. -/
theorem distinct_ncard {filter body : Option Expr} {rows found : List Value}
    (h : distinct m ev item body [] (rows.filter (keeps m ev item filter)) = .ok found) :
    found.length = (classes m ev item filter body rows).ncard := by
  classical
  obtain ⟨hnodup, hmem⟩ := distinct_classes (by simp) h
  have hclasses : classes m ev item filter body rows =
      ((found.map (Quotient.mk Value.setoid)).toFinset : Set (Quotient Value.setoid)) := by
    ext c
    rw [List.coe_toFinset]
    refine Iff.trans ?_ (hmem c).symm
    simp only [classes, List.map_nil, List.not_mem_nil, false_or, List.mem_filter, and_assoc]
    exact Iff.rfl
  rw [hclasses, Set.ncard_coe_finset, List.toFinset_card_of_nodup hnodup, List.length_map]

/-! ### Aggregates of the numbers gathered -/

/-- A value found that has what is asked of its number, or the range passed. -/
def Found (x : Except NotRun Num) (P : Option ℚ → Prop) : Prop :=
  x = .error (.outOfRange "") ∨ ∃ v, x = .ok v ∧ P v.value?

variable {values : List Num}

theorem mem_numbers {x : ℚ} :
    x ∈ values.filterMap Num.value? ↔ ∃ v ∈ values, v.value? = some x :=
  List.mem_filterMap

/-- The number of a value present. -/
theorem number_of_mem (hpresent : ∀ v ∈ values, v ≠ .absent) {v : Num} (hv : v ∈ values) :
    ∃ x, v.value? = some x :=
  Option.ne_none_iff_exists'.mp (mt Num.value?_eq_none.mp (hpresent v hv))

theorem filterMap_ne (hpresent : ∀ v ∈ values, v ≠ .absent) (hne : values ≠ []) :
    ((values.filterMap Num.value? : List ℚ) : Multiset ℚ) ≠ 0 := by
  rw [ne_eq, Multiset.coe_eq_zero, ← List.length_eq_zero_iff, Num.length_filterMap hpresent,
    List.length_eq_zero_iff]
  exact hne

theorem minBy_found (hpresent : ∀ v ∈ values, v ≠ .absent) (hne : values ≠ []) :
    ∃ c, minBy Num.order values = some c ∧
      OfPresent (values.filterMap Num.value? : List ℚ)
        (IsLeast {y | y ∈ ((values.filterMap Num.value? : List ℚ) : Multiset ℚ)}) c.value? := by
  obtain ⟨first, rest, rfl⟩ := List.exists_cons_of_ne_nil hne
  refine ⟨_, rfl, ?_⟩
  obtain ⟨hmem, hle⟩ := minBy_least Num.order_key (l := first :: rest) rfl
  obtain ⟨x, hx⟩ := number_of_mem hpresent hmem
  rw [hx]
  refine ⟨filterMap_ne hpresent hne, mem_numbers.mpr ⟨_, hmem, hx⟩, fun y hy => ?_⟩
  obtain ⟨v, hv, hvy⟩ := mem_numbers.mp hy
  have hkey := hle v hv
  rw [Num.key_of_value hx, Num.key_of_value hvy] at hkey
  exact WithBot.coe_le_coe.mp hkey

theorem maxBy_found (hpresent : ∀ v ∈ values, v ≠ .absent) (hne : values ≠ []) :
    ∃ c, maxBy Num.order values = some c ∧
      OfPresent (values.filterMap Num.value? : List ℚ)
        (IsGreatest {y | y ∈ ((values.filterMap Num.value? : List ℚ) : Multiset ℚ)}) c.value? := by
  obtain ⟨first, rest, rfl⟩ := List.exists_cons_of_ne_nil hne
  refine ⟨_, rfl, ?_⟩
  obtain ⟨hmem, hle⟩ := maxBy_greatest Num.order_key (l := first :: rest) rfl
  obtain ⟨x, hx⟩ := number_of_mem hpresent hmem
  rw [hx]
  refine ⟨filterMap_ne hpresent hne, mem_numbers.mpr ⟨_, hmem, hx⟩, fun y hy => ?_⟩
  obtain ⟨v, hv, hvy⟩ := mem_numbers.mp hy
  have hkey := hle v hv
  rw [Num.key_of_value hx, Num.key_of_value hvy] at hkey
  exact WithBot.coe_le_coe.mp hkey

theorem ranked_found (hpresent : ∀ v ∈ values, v ≠ .absent) (hne : values ≠ [])
    (hlen : values.length < 2 ^ 64) (p : Rat128) :
    Found (Num.ranked p values)
      (OfPresent (values.filterMap Num.value? : List ℚ)
        (NearestRank (values.filterMap Num.value? : List ℚ) p.value)) := by
  rcases Num.ranked_value hpresent hne hlen p with hpast | ⟨c, x, hc, hx, hrank⟩
  · exact .inl hpast
  · refine .inr ⟨c, hc, ?_⟩
    rw [hx]
    exact ⟨filterMap_ne hpresent hne, hrank⟩

theorem half_value :
    ((Rat128.new 1 2).getD (Rat128.int ⟨0, by decide⟩)).value = 1 / 2 := by
  obtain ⟨r, hr, hvalue⟩ := Rat128.new_some (n := 1) (d := 2) (by decide) (by decide) (by decide)
  rw [hr, Option.getD_some, hvalue]
  norm_num

/-! ### One order of the rows -/

/-- What the metric answers is right where it answers, and where every row is
readable it answers or the range is passed. -/
def RowAggregate.Answered (m : MetricReader) (ev : Evaluator) (item : String) (a : RowAggregate)
    (rows : List Value) (x : Except NotRun Num) : Prop :=
  (a.Readable m ev item rows → x = .error (.outOfRange "") ∨ ∃ v, x = .ok v) ∧
    ∀ v, x = .ok v → a.Is m ev item rows v.value? ∧
      ∀ kind u, v.rounded kind = .ok u → kind.Holds v.value? u

/-- The average whose running totals fit while their denominator times the count
passes 128 bits. -/
def RowAggregate.Overdivided (m : MetricReader) (ev : Evaluator) (item : String)
    (a : RowAggregate) (rows : List Value) : Prop :=
  ∃ body values, a = .avg body ∧ gathered m ev item body rows = .ok values ∧ values ≠ [] ∧
    (Num.total values).isSome = true ∧
      i128Max < ((numbers m ev item body rows).sum.den : Int) *
        (numbers m ev item body rows).card

/-- An aggregate of what is gathered answers where each list gathered has it
found. -/
theorem answered_of_gathered {a : RowAggregate} {body : Expr} {rows : List Value}
    {f : List Num → Except NotRun Num}
    (hreads : a.Readable m ev item rows → ∀ r ∈ rows, ∃ n, number m ev body [(item, r)] = .ok n)
    (hfound : ∀ values, gathered m ev item body rows = .ok values → (∀ v ∈ values, v ≠ .absent) →
      values.length ≤ rows.length →
      ((values.filterMap Num.value? : List ℚ) : Multiset ℚ) = numbers m ev item body rows →
      a.Readable m ev item rows ∨ (∃ v, f values = .ok v) →
      Found (f values) (a.Is m ev item rows)) :
    a.Answered m ev item rows ((gathered m ev item body rows).bind f) := by
  constructor
  · intro hreadable
    obtain ⟨values, hvalues⟩ := gathered_some (hreads hreadable)
    obtain ⟨hpresent, hlen, hnumbers⟩ := gathered_numbers hvalues
    rw [hvalues]
    rcases hfound values hvalues hpresent hlen hnumbers (.inl hreadable) with
      hpast | ⟨v, hv, -⟩
    · exact .inl hpast
    · exact .inr ⟨v, hv⟩
  · intro v hv
    refine ⟨?_, fun kind u hu => Num.rounded_holds hu⟩
    obtain ⟨values, hvalues, hv⟩ := ok_of_bind hv
    obtain ⟨hpresent, hlen, hnumbers⟩ := gathered_numbers hvalues
    rcases hfound values hvalues hpresent hlen hnumbers (.inr ⟨v, hv⟩) with
      hpast | ⟨w, hw, his⟩
    · cases hpast.symm.trans hv
    · obtain rfl := Except.ok.inj (hw.symm.trans hv)
      exact his

section Orders

variable {rows : List Value}

theorem count_answered (hlen : rows.length < 2 ^ 64) :
    RowAggregate.count.Answered m ev item rows (.ok (.int (Num.counted rows.length))) := by
  refine ⟨fun _ => .inr ⟨_, rfl⟩, fun v hv => ⟨?_, fun kind u hu => Num.rounded_holds hu⟩⟩
  obtain rfl := Except.ok.inj hv
  show (Num.int _).value? = some ((rows : Multiset Value).card : ℚ)
  rw [Num.value?_int, Num.counted_eq hlen, Multiset.coe_card]
  rfl

theorem counted_answered {filter : Option Expr} (hlen : rows.length < 2 ^ 64) :
    (RowAggregate.counted filter).Answered m ev item rows
      ((picked m ev item filter rows).bind fun found =>
        .ok (.int (Num.counted found.length))) := by
  constructor
  · intro hreadable
    obtain ⟨found, hfound⟩ := picked_some hreadable
    rw [hfound]
    exact .inr ⟨_, rfl⟩
  · intro v hv
    refine ⟨?_, fun kind u hu => Num.rounded_holds hu⟩
    obtain ⟨found, hfound, hv⟩ := ok_of_bind hv
    obtain rfl := Except.ok.inj hv
    have hfilter := picked_keeps hfound
    have hle := List.length_filter_le (keeps m ev item filter) rows
    rw [← hfilter] at hle
    show (Num.int _).value? =
      some ((rows : Multiset Value).countP (keeps m ev item filter · = true) : ℚ)
    rw [Num.value?_int, Num.counted_eq (by omega), Multiset.coe_countP, hfilter,
      List.countP_eq_length_filter]
    simp

theorem distinct_answered {filter body : Option Expr} (hlen : rows.length < 2 ^ 64) :
    (RowAggregate.distinct filter body).Answered m ev item rows
      ((picked m ev item filter rows).bind fun found =>
        (distinct m ev item body [] found).bind fun seen =>
          .ok (.int (Num.counted seen.length))) := by
  constructor
  · intro hreadable
    obtain ⟨found, hfound⟩ := picked_some fun r hr => (hreadable r hr).1
    have hsub : ∀ r ∈ found, r ∈ rows := by
      intro r hr
      rw [picked_keeps hfound] at hr
      exact (List.mem_filter.mp hr).1
    obtain ⟨seen, hseen⟩ := distinct_some (fun r hr => (hreadable r (hsub r hr)).2) []
    rw [hfound]
    refine .inr ⟨.int (Num.counted seen.length), ?_⟩
    show (distinct m ev item body [] found).bind _ = _
    rw [hseen]
    rfl
  · intro v hv
    refine ⟨?_, fun kind u hu => Num.rounded_holds hu⟩
    obtain ⟨found, hfound, hv⟩ := ok_of_bind hv
    obtain ⟨seen, hseen, hv⟩ := ok_of_bind hv
    obtain rfl := Except.ok.inj hv
    have hle := distinct_length hseen
    rw [picked_keeps hfound] at hseen hle
    have hfilter := List.length_filter_le (keeps m ev item filter) rows
    show (Num.int _).value? = some ((classes m ev item filter body rows).ncard : ℚ)
    rw [Num.value?_int, Num.counted_eq (by simp only [List.length_nil] at hle; omega),
      distinct_ncard hseen]
    rfl

theorem sum_answered {body : Expr} {args : List Expr} :
    (RowAggregate.sum body).Answered m ev item rows
      ((gathered m ev item body rows).bind (ofNumbers m ev "sum" args)) := by
  refine answered_of_gathered id fun values _ hpresent _ hnumbers _ => ?_
  have hzero : Num.zero.value? = some 0 := Num.value?_int ⟨0, by decide⟩
  rcases Num.foldlM_add hpresent hzero with hpast | ⟨c, hc, hvalue⟩
  · exact .inl hpast
  · refine .inr ⟨c, hc, ?_⟩
    rw [hvalue, zero_add]
    show _ = some (numbers m ev item body rows).sum
    rw [← hnumbers, Multiset.sum_coe]

/-- An aggregate absent of no numbers, and found of some. -/
theorem ofNumbers_found {a : RowAggregate} {body : Expr} {f : String} {args : List Expr}
    {P : Multiset ℚ → ℚ → Prop}
    (hreads : a.Readable m ev item rows → ∀ r ∈ rows, ∃ n, number m ev body [(item, r)] = .ok n)
    (his : ∀ x, a.Is m ev item rows x ↔
      OfPresent (numbers m ev item body rows) (P (numbers m ev item body rows)) x)
    (hsum : f ≠ "sum")
    (hfound : ∀ values : List Num, gathered m ev item body rows = .ok values →
      (∀ v ∈ values, v ≠ .absent) → values ≠ [] → values.length ≤ rows.length →
      Found (ofNumbers m ev f args values)
        (OfPresent (values.filterMap Num.value? : List ℚ)
          (P (values.filterMap Num.value? : List ℚ)))) :
    a.Answered m ev item rows ((gathered m ev item body rows).bind (ofNumbers m ev f args)) := by
  refine answered_of_gathered hreads fun values hvalues hpresent hlen hnumbers _ => ?_
  by_cases hne : values = []
  · obtain rfl := hne
    refine .inr ⟨.absent, ?_, (his _).mpr hnumbers.symm⟩
    unfold ofNumbers
    rw [if_neg hsum]
    rfl
  · rcases hfound values hvalues hpresent hne hlen with hpast | ⟨c, hc, hvalue⟩
    · exact .inl hpast
    · refine .inr ⟨c, hc, (his _).mpr ?_⟩
      rw [← hnumbers]
      exact hvalue

/-- What an aggregate of some numbers is by its name. -/
theorem ofNumbers_some {f : String} {args : List Expr} (hsum : f ≠ "sum") (hne : values ≠ []) :
    ofNumbers m ev f args values =
      if f = "min" then .ok ((minBy Num.order values).getD .absent)
      else if f = "max" then .ok ((maxBy Num.order values).getD .absent)
      else if f = "avg" then Num.average values
      else if f = "median" then
        Num.ranked ((Rat128.new 1 2).getD (Rat128.int ⟨0, by decide⟩)) values
      else percentile m ev args.head? values := by
  have hempty : values.isEmpty = false := by
    cases values with
    | nil => exact absurd rfl hne
    | cons => rfl
  unfold ofNumbers
  rw [if_neg hsum, hempty]
  rfl

theorem min_answered {body : Expr} {args : List Expr} :
    (RowAggregate.min body).Answered m ev item rows
      ((gathered m ev item body rows).bind (ofNumbers m ev "min" args)) := by
  refine ofNumbers_found (P := fun s => IsLeast {y | y ∈ s}) id (fun _ => Iff.rfl) (by decide)
    fun values _ hpresent hne _ => ?_
  obtain ⟨c, hc, hleast⟩ := minBy_found hpresent hne
  refine .inr ⟨c, ?_, hleast⟩
  rw [ofNumbers_some (by decide) hne, if_pos rfl, hc]
  rfl

theorem max_answered {body : Expr} {args : List Expr} :
    (RowAggregate.max body).Answered m ev item rows
      ((gathered m ev item body rows).bind (ofNumbers m ev "max" args)) := by
  refine ofNumbers_found (P := fun s => IsGreatest {y | y ∈ s}) id (fun _ => Iff.rfl) (by decide)
    fun values _ hpresent hne _ => ?_
  obtain ⟨c, hc, hgreatest⟩ := maxBy_found hpresent hne
  refine .inr ⟨c, ?_, hgreatest⟩
  rw [ofNumbers_some (by decide) hne, if_neg (by decide), if_pos rfl, hc]
  rfl

theorem median_answered {body : Expr} {args : List Expr} (hlen : rows.length < 2 ^ 64) :
    (RowAggregate.median body).Answered m ev item rows
      ((gathered m ev item body rows).bind (ofNumbers m ev "median" args)) := by
  refine ofNumbers_found (P := fun s => NearestRank s (1 / 2)) id (fun _ => Iff.rfl) (by decide)
    fun values _ hpresent hne hle => ?_
  rw [ofNumbers_some (by decide) hne, if_neg (by decide), if_neg (by decide),
    if_neg (by decide), if_pos rfl, ← half_value]
  exact ranked_found hpresent hne (by omega) _

theorem percentile_answered {p body : Expr} {args : List Expr} (hp : args.head? = some p)
    (hlen : rows.length < 2 ^ 64) :
    (RowAggregate.percentile p body).Answered m ev item rows
      ((gathered m ev item body rows).bind (ofNumbers m ev "percentile" args)) := by
  refine answered_of_gathered And.left fun values hvalues hpresent hle hnumbers hanswers => ?_
  show Found _ (OfShare (present m ev p []) (numbers m ev item body rows))
  by_cases hne : values = []
  · obtain rfl := hne
    refine .inr ⟨.absent, rfl, ?_⟩
    cases present m ev p [] with
    | none => rfl
    | some q => exact hnumbers.symm
  · rw [ofNumbers_some (by decide) hne, if_neg (by decide), if_neg (by decide),
      if_neg (by decide), if_neg (by decide), hp] at hanswers ⊢
    have hpercentile : percentile m ev (some p) values =
        (number m ev p []).bind fun n => Num.rankedBy n values := rfl
    rw [hpercentile] at hanswers ⊢
    cases hnumber : number m ev p [] with
    | error e =>
        rw [hnumber] at hanswers
        rcases hanswers with hreadable | ⟨v, hv⟩
        · obtain ⟨n, hn⟩ := hreadable.2
          cases hnumber.symm.trans hn
        · cases hv
    | ok n =>
        show Found (Num.rankedBy n values) _
        rw [present_ok hnumber, Num.rankedBy, Num.value?]
        cases n.rat with
        | none => exact .inr ⟨.absent, rfl, rfl⟩
        | some q =>
            rw [← hnumbers]
            exact ranked_found hpresent hne (by omega) q

theorem avg_answered {body : Expr} {args : List Expr} (hlen : rows.length < 2 ^ 64)
    (hfits : ¬ (RowAggregate.avg body).Overdivided m ev item rows) :
    (RowAggregate.avg body).Answered m ev item rows
      ((gathered m ev item body rows).bind (ofNumbers m ev "avg" args)) := by
  refine ofNumbers_found (P := fun s x => x = s.sum / s.card) id (fun _ => Iff.rfl) (by decide)
    fun values hvalues hpresent hne hle => ?_
  rw [ofNumbers_some (by decide) hne, if_neg (by decide), if_neg (by decide), if_pos rfl]
  rcases Num.average_value hne (by omega) with hpast | ⟨t, ht, hpast, -⟩ | ⟨t, c, -, -, hc, hvalue⟩
  · exact .inl hpast
  · refine absurd ⟨body, values, rfl, hvalues, hne, by rw [ht]; rfl, ?_⟩ hfits
    have hnumbers := (gathered_numbers hvalues).2.2
    rw [← hnumbers, Multiset.sum_coe, Multiset.coe_card, Num.length_filterMap hpresent,
      ← Num.total_value ht, Rat128.value_den]
    exact hpast
  · refine .inr ⟨c, hc, ?_⟩
    rw [hvalue, Multiset.sum_coe, Multiset.coe_card, Num.length_filterMap hpresent]
    exact ⟨filterMap_ne hpresent hne, rfl⟩

/-- An average whose total cannot be divided is answered as absent. -/
theorem avg_lost {body : Expr} {args : List Expr} (hlen : rows.length < 2 ^ 64)
    (hpast : (RowAggregate.avg body).Overdivided m ev item rows) :
    ¬ (RowAggregate.avg body).Answered m ev item rows
      ((gathered m ev item body rows).bind (ofNumbers m ev "avg" args)) := by
  obtain ⟨body', values, hbody, hvalues, hne, htotal, hpast⟩ := hpast
  obtain rfl := RowAggregate.avg.inj hbody
  obtain ⟨t, ht⟩ := Option.isSome_iff_exists.mp htotal
  obtain ⟨hpresent, hle, hnumbers⟩ := gathered_numbers hvalues
  rw [← hnumbers, Multiset.sum_coe, Multiset.coe_card, Num.length_filterMap hpresent,
    ← Num.total_value ht, Rat128.value_den] at hpast
  intro hanswered
  have habsent : (gathered m ev item body rows).bind (ofNumbers m ev "avg" args) =
      .ok .absent := by
    rw [hvalues]
    show ofNumbers m ev "avg" args values = _
    rw [ofNumbers_some (by decide) hne, if_neg (by decide), if_neg (by decide), if_pos rfl]
    rcases Num.average_value hne (by omega) with hout | ⟨u, hu, -, hlost⟩ | ⟨u, c, hu, hfits, -⟩
    · unfold Num.average at hout
      rw [ht] at hout
      cases hout
    · exact hlost
    · obtain rfl := Option.some.inj (ht.symm.trans hu)
      omega
  have his := (hanswered.2 _ habsent).1
  exact filterMap_ne hpresent hne (hnumbers.trans his)

end Orders

/-! ### Every order of the rows -/

/-- An aggregate has one number of a group. -/
theorem RowAggregate.Is.unique {a : RowAggregate} {group : Multiset Value} {x y : Option ℚ}
    (hx : a.Is m ev item group x) (hy : a.Is m ev item group y) : x = y := by
  cases a with
  | count | counted | distinct | sum => exact hx.trans hy.symm
  | min => exact OfPresent.unique hx hy fun _ _ => IsLeast.unique
  | max => exact OfPresent.unique hx hy fun _ _ => IsGreatest.unique
  | avg => exact OfPresent.unique hx hy fun _ _ h h' => h.trans h'.symm
  | median => exact OfPresent.unique hx hy fun _ _ => IsLeast.unique
  | percentile => exact OfShare.unique hx hy

/-- A metric's aggregate over a group: in each order of its rows it answers what
the group has, rounded once, and in any two it answers one number. -/
structure RowAggregate.Exact (m : MetricReader) (ev : Evaluator) (item : String)
    (a : RowAggregate) (e : Expr) (group : Multiset Value) : Prop where
  answered (rows : List Value) : (rows : Multiset Value) = group →
    a.Answered m ev item rows (overRows m ev item rows e)
  ordered (rows rows' : List Value) (v w : Num) : (rows : Multiset Value) = group →
    (rows' : Multiset Value) = group → overRows m ev item rows e = .ok v →
      overRows m ev item rows' e = .ok w →
        v.value? = w.value? ∧ ∀ kind, v.rounded kind = w.rounded kind

/-- What a metric answers of an aggregate over rows in one order. -/
theorem answered_iff {e : Expr} {a : RowAggregate} (ha : aggregate? e = some a)
    {rows : List Value} (hlen : rows.length < 2 ^ 64) :
    a.Answered m ev item rows (overRows m ev item rows e) ↔
      ¬ a.Overdivided m ev item rows := by
  have hother : a.Answered m ev item rows (overRows m ev item rows e) →
      (∀ body, a ≠ .avg body) →
      (a.Answered m ev item rows (overRows m ev item rows e) ↔
        ¬ a.Overdivided m ev item rows) := by
    intro hanswered hne
    refine iff_of_true hanswered fun hpast => ?_
    obtain ⟨body, -, hbody, -⟩ := hpast
    exact hne body hbody
  unfold aggregate? at ha
  split at ha
  case h_1 distinctly collection filter body =>
    obtain rfl := Option.some.inj ha
    cases distinctly with
    | false => exact hother (counted_answered hlen) fun _ h => by cases h
    | true => exact hother (distinct_answered hlen) fun _ h => by cases h
  case h_2 f args =>
    split at ha
    case isTrue hcount =>
      obtain rfl := hcount
      split at ha
      case isTrue hargs =>
        obtain rfl := Option.some.inj ha
        obtain rfl := List.isEmpty_iff.mp hargs
        exact hother (count_answered hlen) fun _ h => by cases h
      case isFalse => cases ha
    case isFalse hcount =>
      obtain ⟨body, hbody, hform⟩ := Option.bind_eq_some_iff.mp ha
      clear ha
      have hcalled : ∀ hf : f ∈ ROW_AGGREGATES, overRows m ev item rows (.call (.name f) args) =
          (gathered m ev item body rows).bind (ofNumbers m ev f args) := by
        intro hf
        rw [overRows, if_pos hf, called, if_neg hcount, hbody]
        rfl
      split at hform
      case isTrue hname =>
        obtain rfl := hname
        obtain rfl := Option.some.inj hform
        rw [hcalled (by decide)] at hother ⊢
        exact hother sum_answered fun _ h => by cases h
      split at hform
      case isTrue hname =>
        obtain rfl := hname
        obtain rfl := Option.some.inj hform
        rw [hcalled (by decide)] at hother ⊢
        exact hother min_answered fun _ h => by cases h
      split at hform
      case isTrue hname =>
        obtain rfl := hname
        obtain rfl := Option.some.inj hform
        rw [hcalled (by decide)] at hother ⊢
        exact hother max_answered fun _ h => by cases h
      split at hform
      case isTrue hname =>
        obtain rfl := hname
        obtain rfl := Option.some.inj hform
        rw [hcalled (by decide)]
        constructor
        · intro hanswered hpast
          exact avg_lost hlen hpast hanswered
        · exact avg_answered hlen
      split at hform
      case isTrue hname =>
        obtain rfl := hname
        obtain rfl := Option.some.inj hform
        rw [hcalled (by decide)] at hother ⊢
        exact hother (median_answered hlen) fun _ h => by cases h
      split at hform
      case isTrue hname =>
        obtain rfl := hname
        obtain ⟨p, hp, rfl⟩ := Option.map_eq_some_iff.mp hform
        rw [hcalled (by decide)] at hother ⊢
        exact hother (percentile_answered hp hlen) fun _ h => by cases h
      case isFalse => cases hform
  case h_3 => cases ha

/-- **A metric's aggregates are exact** over a group in every order of its rows,
but an average whose total, its running totals all in range, has a denominator
whose product with the count is past it. -/
theorem aggregates_exact {e : Expr} {a : RowAggregate} (ha : aggregate? e = some a)
    {group : Multiset Value} (hlen : group.card < 2 ^ 64) :
    a.Exact m ev item e group ↔
      ∀ rows : List Value, (rows : Multiset Value) = group →
        ¬ a.Overdivided m ev item rows := by
  have hiff : ∀ rows : List Value, (rows : Multiset Value) = group →
      (a.Answered m ev item rows (overRows m ev item rows e) ↔
        ¬ a.Overdivided m ev item rows) := by
    intro rows hrows
    rw [← hrows, Multiset.coe_card] at hlen
    exact answered_iff ha hlen
  constructor
  · intro hexact rows hrows
    exact (hiff rows hrows).mp (hexact.answered rows hrows)
  · intro hfits
    have hanswered := fun rows hrows => (hiff rows hrows).mpr (hfits rows hrows)
    refine ⟨hanswered, fun rows rows' v w hrows hrows' hv hw => ?_⟩
    have hvalue : v.value? = w.value? := by
      have his := ((hanswered rows hrows).2 v hv).1
      have his' := ((hanswered rows' hrows').2 w hw).1
      rw [hrows] at his
      rw [hrows'] at his'
      exact his.unique his'
    exact ⟨hvalue, Num.rounded_alike hvalue⟩

end Rows

theorem one_bounded : i128Min ≤ 1 ∧ 1 ≤ i128Max := by decide

theorem zero_bounded : i128Min ≤ 0 ∧ 0 ≤ i128Max := by decide

theorem eighteen_places : 18 ≤ MAX_SCALE := by decide

/-- A store of two shares, of the least rate and weight a decimal has and a part
of one hundredth and none. -/
def leastShares : World where
  lib := { types := [("Share",
    { name := "Share"
      attributes := [("rate", { declared := .scalar (.decimal 18 18) }),
        ("weight", { declared := .scalar (.decimal 18 18) }),
        ("part", { declared := .scalar (.decimal 18 2) })] })] }
  objects := [1, 0].map fun part =>
    (s!"share-{part}",
      { id := s!"share-{part}", type := "Share", state := "OPEN"
        attrs := [("rate", .decimal ⟨1, 18, one_bounded, eighteen_places⟩),
          ("weight", .decimal ⟨1, 18, one_bounded, eighteen_places⟩),
          ("part", .decimal (if part = 1 then ⟨1, 2, one_bounded, Decimal.two_places⟩
            else ⟨0, 2, zero_bounded, Decimal.two_places⟩))] })

/-- `s.rate * s.weight * s.part`. -/
def shareWorth : Expr :=
  .bin .mul (.bin .mul (.path (.name "s") "rate") (.path (.name "s") "weight"))
    (.path (.name "s") "part")

/-- The two shares' worths are summed exactly. -/
theorem least_shares_summed :
    (RowAggregate.sum shareWorth).Exact noMetrics { world := leastShares } "s"
      (.call (.name "sum") [shareWorth])
      (([.object "share-1", .object "share-0"] : List Value) : Multiset Value) :=
  (aggregates_exact rfl (by decide)).mpr fun _ _ hpast => by
    obtain ⟨_, _, hbody, -⟩ := hpast
    cases hbody

/-- The worths of the two shares are 10⁻³⁸ and 0, and their average is answered
as absent. -/
theorem least_shares_averaged :
    ¬ ∀ (m : MetricReader) (ev : Evaluator) (item : String) (a : RowAggregate) (e : Expr)
      (group : Multiset Value), aggregate? e = some a → group.card < 2 ^ 64 →
        a.Exact m ev item e group := by
  intro h
  have hexact := h noMetrics { world := leastShares } "s" (.avg shareWorth)
    (.call (.name "avg") [shareWorth])
    (([.object "share-1", .object "share-0"] : List Value) : Multiset Value) rfl (by decide)
  have hpresent : (gathered noMetrics { world := leastShares } "s" shareWorth
      [.object "share-1", .object "share-0"]).toOption.any (·.length = 2) = true := by
    decide +kernel
  have habsent : (overRows noMetrics { world := leastShares } "s"
      [.object "share-1", .object "share-0"]
      (.call (.name "avg") [shareWorth])).toOption.any Num.isAbsent = true := by
    decide +kernel
  cases hvalues : gathered noMetrics { world := leastShares } "s" shareWorth
      [.object "share-1", .object "share-0"] with
  | error e =>
      rw [hvalues] at hpresent
      cases hpresent
  | ok values =>
      rw [hvalues] at hpresent
      have hne : values ≠ [] := fun hnil => by
        rw [hnil] at hpresent
        cases hpresent
      cases hv : overRows noMetrics { world := leastShares } "s"
          [.object "share-1", .object "share-0"] (.call (.name "avg") [shareWorth]) with
      | error e =>
          rw [hv] at habsent
          cases habsent
      | ok v =>
          rw [hv] at habsent
          have his := ((hexact.answered _ rfl).2 v hv).1
          rw [Num.isAbsent_iff.mp habsent] at his
          obtain ⟨hpresent, -, hnumbers⟩ := gathered_numbers hvalues
          exact filterMap_ne hpresent hne (hnumbers.trans his)

end ObjectFlow
