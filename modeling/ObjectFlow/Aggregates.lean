import ObjectFlow.Base.Ranks
import ObjectFlow.Equality
import ObjectFlow.Eval
import ObjectFlow.Rational

/-!
# A metric's value

A metric's own aggregates range over a group's rows, leaving out a row whose
body is absent, and the arithmetic between them is the language's.  The value is
exact until it is rounded, once, to the scale of its expression's type.
-/

namespace ObjectFlow

open Base

/-- A value as the metric computes it, exactly: an integer, which a division of
two truncates, or a fraction, or absent. -/
inductive Num where
  | absent
  | int (n : Int128)
  | frac (r : Rat128)

/-- An expression's type, as far as a metric's scale needs it. -/
inductive MetricKind where
  | int
  | decimal (scale : Nat)
  /-- A decimal literal, which takes the scale of what it is combined with. -/
  | literal (scale : Nat)
  | money (currency : String)
  | duration
  | timestamp
  /-- A date, computed as the seconds of its day's start. -/
  | date
  | bool
  | object (type : String)
  | objects (type : String)
  | interval (type : String)
  | intervals (type : String)
  | transition (type : String)
  | transitions (type : String)
  | attempt (type : String)
  | attemptCount (type : String)
  /-- A label on an object of the type. -/
  | label (type : String)
  | other

/-- The aggregates a metric ranges over its rows with. -/
def ROW_AGGREGATES : List String :=
  ["count", "sum", "min", "max", "avg", "median", "percentile"]

/-- What an arithmetic found, or that it passed its type's bound. -/
def orPast {α : Type} : Option α → Except NotRun α
  | some a => .ok a
  | none => .error (.outOfRange "")

namespace Num

/-- An integer of 128 bits. -/
def whole (n : Int) : Option Num :=
  if h : i128Min ≤ n ∧ n ≤ i128Max then some (.int ⟨n, h⟩) else none

/-- A count, the largest integer past 128 bits. -/
def counted (n : Nat) : Int128 :=
  if h : (n : Int) ≤ i128Max then ⟨n, (by decide : i128Min ≤ 0).trans (Int.natCast_nonneg n), h⟩
  else ⟨i128Max, by decide, le_rfl⟩

def zero : Num := .int ⟨0, by decide⟩

/-- Seconds, as a fraction. -/
def seconds (n : Int) : Option Num :=
  if h : i128Min ≤ n ∧ n ≤ i128Max then some (.frac (Rat128.int ⟨n, h⟩)) else none

/-- A value's number; an integer and a count of seconds are of 64 bits, which
fit. -/
def of : Value → Except NotRun Num
  | .absent => .ok .absent
  | .int n => orPast (whole n)
  | .decimal d => orPast ((Rat128.ofDecimal d).map .frac)
  | .money _ amount => orPast ((Rat128.ofDecimal amount).map .frac)
  | .duration s | .timestamp s => orPast (seconds s)
  -- a date placed at the start of its day, UTC
  | .date d => orPast (seconds (d * 86400))
  | v => .error (.unsupported ("a metric's arithmetic over " ++ v.kind))

def rat : Num → Option Rat128
  | .absent => none
  | .int n => some (Rat128.int n)
  | .frac r => some r

/-- An operator between two numbers present. -/
def combined (op : BinOp) (x y : Rat128) : Except NotRun Num :=
  match op with
  | .add => orPast ((x.checkedAdd y).map .frac)
  | .sub => orPast ((x.checkedSub y).map .frac)
  | .mul => orPast ((x.checkedMul y).map .frac)
  | .div => if y.n = 0 then .ok .absent else orPast ((x.checkedDiv y).map .frac)
  | op => .error (.unsupported ("the operator " ++ op.text ++ " in a metric's value"))

/-- An operator between two integers: a division discards its remainder. -/
def combinedInt (op : BinOp) (p q : Int) : Except NotRun Num :=
  match op with
  | .add => orPast (whole (p + q))
  | .sub => orPast (whole (p - q))
  | .mul => orPast (whole (p * q))
  | .div => if q = 0 then .ok .absent else orPast (whole (p.tdiv q))
  | op => .error (.unsupported ("the operator " ++ op.text ++ " in a metric's value"))

/-- An operator between two values, exactly. -/
def combine (op : BinOp) (a b : Num) : Except NotRun Num :=
  match a, b with
  | .int p, .int q => combinedInt op p q
  | a, b =>
      match a.rat, b.rat with
      | some x, some y => combined op x y
      | _, _ => .ok .absent

/-- The order of two numbers, an absent one first. -/
def order (a b : Num) : Ordering :=
  match a.rat, b.rat with
  | none, none => .eq
  | none, some _ => .lt
  | some _, none => .gt
  | some x, some y => x.cmp y

/-- The running total of numbers, as fractions. -/
def total (values : List Num) : Option Rat128 :=
  values.foldlM (fun t v => t.checkedAdd (v.rat.getD (Rat128.int ⟨0, by decide⟩)))
    (Rat128.int ⟨0, by decide⟩)

/-- The average: the total over the count. -/
def average (values : List Num) : Except NotRun Num :=
  match total values with
  | none => .error (.outOfRange "")
  | some t => .ok (((t.checkedDiv (Rat128.int (counted values.length))).map .frac).getD .absent)

/-- Nearest rank: the smallest whose rank is at least the share of the count. -/
def ranked (p : Rat128) (values : List Num) : Except NotRun Num :=
  let ordered := values.mergeSort fun a b => order a b ≠ .gt
  match p.checkedMul (Rat128.int (counted ordered.length)) with
  | none => .error (.outOfRange "")
  | some share =>
      let place := min (max share.ceil 1 - 1).toNat (ordered.length - 1)
      .ok (ordered[place]?.getD .absent)

/-- The nearest rank by a share, absent where the share is. -/
def rankedBy (share : Num) (values : List Num) : Except NotRun Num :=
  match share.rat with
  | some p => ranked p values
  | none => .ok .absent

def isAbsent : Num → Bool
  | .absent => true
  | _ => false

/-- A metric's value rounded half to even to the scale of its expression's type,
as a value a guard compares. -/
def rounded (v : Num) (kind : MetricKind) : Except NotRun Value :=
  match v.rat with
  | none => .ok .absent
  | some r =>
    match kind with
    | .int =>
        match v with
        | .int n => orPast ((fits64 n).map .int)
        | _ => orPast (do return .int (← fits64 (← r.halfEven 0)))
    | .decimal s | .literal s => orPast (do return .decimal (← Decimal.new (← r.halfEven s) s))
    | .money c =>
        match minorUnit c with
        | none => .error (.unsupported ("an amount in " ++ c ++
            ", whose minor unit the core does not know"))
        | some places =>
            orPast (do return .money c (← Decimal.new (← r.halfEven places) places))
    -- a duration is held in whole seconds
    | .duration => orPast (do return .duration (← fits64 (← r.halfEven 0)))
    | .timestamp =>
        if r.isInteger then orPast ((fits64 r.trunc).map .timestamp)
        else .error (.unsupported "a metric's fractional value, whose type the core cannot tell")
    -- part of a day has no date, which is out of range, never unknown
    | .date =>
        orPast (if r.isInteger ∧ r.trunc % 86400 = 0 then
          (fits64 (r.trunc / 86400)).map .date else none)
    | _ =>
        if r.isInteger then orPast ((fits64 r.trunc).map .int)
        else .error (.unsupported "a metric's fractional value, whose type the core cannot tell")

end Num

section Rows

variable (m : MetricReader) (ev : Evaluator) (item : String)

/-- An expression's value for one row. -/
def rowValue (e : Expr) (r : Value) : Except NotRun Value :=
  (ev.evalIn m e [(item, r)]).outcome

/-- Whether a filter keeps a row: one unknown does not. -/
def kept (filter : Option Expr) (r : Value) : Except NotRun Bool :=
  match filter with
  | none => .ok true
  | some f => do .ok ((← (truth (← rowValue m ev item f r)).outcome) = some true)

/-- The rows a filter keeps. -/
def picked (filter : Option Expr) : List Value → Except NotRun (List Value)
  | [] => .ok []
  | r :: rest => do
      let keep ← kept m ev item filter r
      let more ← picked filter rest
      .ok (if keep then r :: more else more)

/-- What a distinct count counts of a row. -/
def bodyValue (body : Option Expr) (r : Value) : Except NotRun Value :=
  match body with
  | some b => rowValue m ev item b r
  | none => .ok .absent

/-- The distinct values rows have, after those seen. -/
def distinct (body : Option Expr) : List Value → List Value → Except NotRun (List Value)
  | seen, [] => .ok seen
  | seen, r :: rest => do
      let v ← bodyValue m ev item body r
      distinct body (if !v.isAbsent && !seen.any (·.equals v) then seen ++ [v] else seen) rest

/-- The number an expression's value is. -/
def number (e : Expr) (env : Env) : Except NotRun Num := do
  Num.of (← (ev.evalIn m e env).outcome)

/-- The numbers rows have, an absent one left out. -/
def gathered (body : Expr) : List Value → Except NotRun (List Num)
  | [] => .ok []
  | r :: rest => do
      let v ← number m ev body [(item, r)]
      let more ← gathered body rest
      .ok (if v.isAbsent then more else v :: more)

/-- A percentile by the share an expression gives. -/
def percentile (p : Option Expr) (values : List Num) : Except NotRun Num :=
  match p with
  | none => .error (.unsupported "a percentile with no p")
  | some p => do Num.rankedBy (← number m ev p []) values

/-- An aggregate by its name of the numbers gathered. -/
def ofNumbers (f : String) (args : List Expr) (values : List Num) : Except NotRun Num :=
  if f = "sum" then values.foldlM (Num.combine .add) Num.zero
  -- the others over no rows are absent
  else if values.isEmpty then .ok .absent
  else if f = "min" then .ok ((minBy Num.order values).getD .absent)
  else if f = "max" then .ok ((maxBy Num.order values).getD .absent)
  -- exact: the metric's value is rounded once
  else if f = "avg" then Num.average values
  -- a median the lower middle
  else if f = "median" then
    Num.ranked ((Rat128.new 1 2).getD (Rat128.int ⟨0, by decide⟩)) values
  else percentile m ev args.head? values

/-- An aggregate called by its name over rows. -/
def called (f : String) (args : List Expr) (rows : List Value) : Except NotRun Num :=
  if f = "count" then
    if args.isEmpty then .ok (.int (Num.counted rows.length))
    else .error (.unsupported "`count` of an expression over a metric's rows")
  else
    match args.getLast? with
    | none => .error (.unsupported ("`" ++ f ++ "` with no body"))
    | some body => do ofNumbers m ev f args (← gathered m ev item body rows)

/-- A metric's value over one group's rows. -/
def overRows (rows : List Value) : Expr → Except NotRun Num
  | .agg kind distinctly none _ filter body =>
      if kind ≠ .count then
        .error (.unsupported ("`" ++ kind.text ++ "` over a metric's rows with a filter"))
      else do
        let found ← picked m ev item filter rows
        if distinctly then
          .ok (.int (Num.counted (← distinct m ev item body [] found).length))
        else .ok (.int (Num.counted found.length))
  | .call (.name f) args =>
      if f ∈ ROW_AGGREGATES then called m ev item f args rows
      else .error (.unsupported "a metric's value reading its rows outside an aggregate")
  | .bin op a b =>
      if op = .and ∨ op = .or ∨ op = .implies then
        .error (.unsupported "a metric's value reading its rows outside an aggregate")
      else do
        Num.combine op (← overRows rows a) (← overRows rows b)
  | .neg x => do Num.combine .sub Num.zero (← overRows rows x)
  | .num n => number m ev (.num n) []
  | .dur n unit => number m ev (.dur n unit) []
  | .money currency amount => number m ev (.money currency amount) []
  | .name n =>
      if n = "now" then number m ev (.name n) []
      else .error (.unsupported "a metric's value reading its rows outside an aggregate")
  | _ => .error (.unsupported "a metric's value reading its rows outside an aggregate")

end Rows

namespace Num

/-- The number a value is; an absent one has none. -/
def value? (v : Num) : Option ℚ := v.rat.map Rat128.value

@[simp] theorem value?_absent : (absent : Num).value? = none := rfl

@[simp] theorem value?_int (n : Int128) : (int n).value? = some ((n : Int) : ℚ) :=
  congrArg some (Rat128.int_value n)

@[simp] theorem value?_frac (r : Rat128) : (frac r).value? = some r.value := rfl

theorem value?_eq_none {v : Num} : v.value? = none ↔ v = .absent := by
  cases v <;> simp

theorem isAbsent_iff {v : Num} : v.isAbsent = true ↔ v = .absent := by
  cases v <;> simp [isAbsent]

/-- What values are ordered by: an absent one is before every number. -/
def key (v : Num) : WithBot ℚ := v.value?.elim ⊥ (↑)

theorem key_of_value {v : Num} {x : ℚ} (h : v.value? = some x) : v.key = x := by
  rw [key, h, Option.elim_some]

/-- **Values order as their numbers do.** -/
theorem order_key (a b : Num) : order a b = compare a.key b.key := by
  unfold order key value?
  cases a.rat with
  | none =>
      cases b.rat with
      | none => exact (compare_eq_iff_eq.mpr rfl).symm
      | some y => exact (compare_lt_iff_lt.mpr (WithBot.bot_lt_coe _)).symm
  | some x =>
      cases b.rat with
      | none => exact (compare_gt_iff_gt.mpr (WithBot.bot_lt_coe _)).symm
      | some y =>
          show x.cmp y = compare (x.value : WithBot ℚ) y.value
          rw [Rat128.cmp_value]
          exact compare_alike WithBot.coe_lt_coe.symm WithBot.coe_lt_coe.symm

theorem whole_value {n : Int} {v : Num} (h : whole n = some v) : v.value? = some (n : ℚ) := by
  unfold whole at h
  split at h
  case isTrue hfits =>
    obtain rfl := Option.some.inj h
    exact value?_int ⟨n, hfits⟩
  case isFalse => cases h

/-- **A sum of two** is theirs, or past the range. -/
theorem combine_add {a b : Num} {x y : ℚ} (ha : a.value? = some x) (hb : b.value? = some y) :
    combine .add a b = .error (.outOfRange "") ∨
      ∃ c, combine .add a b = .ok c ∧ c.value? = some (x + y) := by
  have hcombined : ∀ r o : Rat128, r.value = x → o.value = y →
      combined .add r o = .error (.outOfRange "") ∨
        ∃ c, combined .add r o = .ok c ∧ c.value? = some (x + y) := by
    intro r o hr ho
    unfold combined
    cases hadd : r.checkedAdd o with
    | none => exact .inl rfl
    | some s =>
        refine .inr ⟨.frac s, rfl, ?_⟩
        rw [value?_frac, Rat128.checkedAdd_value hadd, hr, ho]
  cases a with
  | absent => cases ha
  | frac r =>
      cases b with
      | absent => cases hb
      | frac o => exact hcombined r o (Option.some.inj ha) (Option.some.inj hb)
      | int q => exact hcombined r _ (Option.some.inj ha) (Option.some.inj hb)
  | int p =>
      cases b with
      | absent => cases hb
      | frac o => exact hcombined _ o (Option.some.inj ha) (Option.some.inj hb)
      | int q =>
          rw [value?_int] at ha hb
          have hsum : ((p + q : Int) : ℚ) = x + y := by
            rw [Int.cast_add, Option.some.inj ha, Option.some.inj hb]
          show orPast (whole (p + q)) = _ ∨ ∃ c, orPast (whole (p + q)) = .ok c ∧ _
          cases hwhole : whole ((p : Int) + q) with
          | none => exact .inl rfl
          | some c => exact .inr ⟨c, rfl, by rw [whole_value hwhole, hsum]⟩

/-- **A sum** is of the numbers present, or past the range. -/
theorem foldlM_add {values : List Num} (hpresent : ∀ v ∈ values, v ≠ .absent) {t : Num} {x : ℚ}
    (ht : t.value? = some x) :
    values.foldlM (combine .add) t = .error (.outOfRange "") ∨
      ∃ c, values.foldlM (combine .add) t = .ok c ∧
        c.value? = some (x + (values.filterMap value?).sum) := by
  induction values generalizing t x with
  | nil => exact .inr ⟨t, rfl, by simpa using ht⟩
  | cons v rest ih =>
      obtain ⟨y, hy⟩ := Option.ne_none_iff_exists'.mp
        (mt value?_eq_none.mp (hpresent v List.mem_cons_self))
      have hrest := fun w hw => hpresent w (List.mem_cons_of_mem v hw)
      rw [List.foldlM_cons, List.filterMap_cons_some hy, List.sum_cons, ← add_assoc]
      rcases combine_add ht hy with hpast | ⟨c, hc, hvalue⟩
      · rw [hpast]
        exact .inl rfl
      · rw [hc]
        exact ih hrest hvalue

theorem total_from {values : List Num} {t s : Rat128}
    (h : values.foldlM
      (fun t v => t.checkedAdd (v.rat.getD (Rat128.int ⟨0, by decide⟩))) t = some s) :
    s.value = t.value + (values.filterMap value?).sum := by
  induction values generalizing t with
  | nil =>
      obtain rfl := Option.some.inj h
      simp
  | cons v rest ih =>
      rw [List.foldlM_cons] at h
      obtain ⟨u, hu, h⟩ := Option.bind_eq_some_iff.mp h
      have hadded := Rat128.checkedAdd_value hu
      rw [ih h, hadded]
      cases hrat : v.rat with
      | none =>
          rw [List.filterMap_cons_none (by rw [value?, hrat]; rfl), Option.getD_none,
            Rat128.int_value]
          simp
      | some r =>
          rw [List.filterMap_cons_some (by rw [value?, hrat]; rfl), Option.getD_some,
            List.sum_cons, add_assoc]

/-- **A running total** is the numbers' sum. -/
theorem total_value {values : List Num} {t : Rat128} (h : total values = some t) :
    t.value = (values.filterMap value?).sum := by
  have hvalue := total_from h
  rw [Rat128.int_value] at hvalue
  simpa using hvalue

theorem counted_eq {n : Nat} (h : n < 2 ^ 64) : (counted n : Int) = n := by
  unfold counted
  rw [dif_pos (by unfold i128Max; omega)]

/-- A total divides by a count but where the denominator passes 128 bits. -/
theorem checkedDiv_count (t : Rat128) {n : Nat} (hpos : 0 < n) (h : n < 2 ^ 64) :
    (i128Max < t.d * n ∧ t.checkedDiv (Rat128.int (counted n)) = none) ∨
      (t.d * n ≤ i128Max ∧ ∃ s, t.checkedDiv (Rat128.int (counted n)) = some s ∧
        s.value = t.value / n) := by
  have hcount := counted_eq h
  have hprod : 0 < t.d * n := mul_pos t.pos (by omega)
  have hn : fits128 (t.n * 1) = some t.n :=
    fits128_eq_some.mpr ⟨mul_one _, by rw [mul_one]; exact ⟨t.bounded.1, t.bounded.2.1⟩⟩
  have hdiv : t.checkedDiv (Rat128.int (counted n)) =
      (fits128 (t.d * n)).bind fun d => Rat128.new t.n d := by
    show (fits128 (t.n * 1)).bind (fun n' => (fits128 (t.d * (counted n : Int))).bind
      fun d => Rat128.new n' d) = _
    rw [hn, hcount]
    rfl
  rw [hdiv]
  by_cases hfits : t.d * n ≤ i128Max
  · have hmin : i128Min ≤ t.d * n := by
      unfold i128Min
      omega
    rw [fits128_eq_some.mpr ⟨rfl, hmin, hfits⟩]
    obtain ⟨s, hs, hvalue⟩ := Rat128.new_some hprod ⟨t.bounded.1, t.bounded.2.1⟩ hfits
    refine .inr ⟨hfits, s, hs, ?_⟩
    rw [hvalue, Rat128.value, div_div]
    push_cast
    rfl
  · refine .inl ⟨not_le.mp hfits, ?_⟩
    unfold fits128
    rw [if_neg fun hboth => hfits hboth.2]
    rfl

/-- **An average** of values present is the mean of their numbers or past the
range, but for a total whose denominator times the count passes 128 bits. -/
theorem average_value {values : List Num} (hne : values ≠ [])
    (hlen : values.length < 2 ^ 64) :
    average values = .error (.outOfRange "") ∨
      (∃ t, total values = some t ∧ i128Max < t.d * values.length ∧
        average values = .ok .absent) ∨
      ∃ t c, total values = some t ∧ t.d * values.length ≤ i128Max ∧ average values = .ok c ∧
        c.value? = some ((values.filterMap value?).sum / values.length) := by
  unfold average
  cases ht : total values with
  | none => exact .inl rfl
  | some t =>
      dsimp only
      rcases checkedDiv_count t (List.length_pos_iff.mpr hne) hlen with
        ⟨hpast, hdiv⟩ | ⟨hfits, s, hdiv, hvalue⟩
      · rw [hdiv]
        exact .inr (.inl ⟨t, rfl, hpast, rfl⟩)
      · rw [hdiv]
        refine .inr (.inr ⟨t, .frac s, rfl, hfits, rfl, ?_⟩)
        rw [value?_frac, hvalue, total_value ht]

/-- Values present are their numbers, each once. -/
theorem map_value {values : List Num} (hpresent : ∀ v ∈ values, v ≠ .absent) :
    values.map value? = (values.filterMap value?).map some := by
  induction values with
  | nil => rfl
  | cons v rest ih =>
      obtain ⟨y, hy⟩ := Option.ne_none_iff_exists'.mp
        (mt value?_eq_none.mp (hpresent v List.mem_cons_self))
      rw [List.map_cons, List.filterMap_cons_some hy, List.map_cons, hy,
        ih fun w hw => hpresent w (List.mem_cons_of_mem v hw)]

theorem map_key {values : List Num} (hpresent : ∀ v ∈ values, v ≠ .absent) :
    values.map key = (values.filterMap value?).map ((↑) : ℚ → WithBot ℚ) := by
  have hkey : values.map key = (values.map value?).map fun x => x.elim ⊥ (↑) := by
    rw [List.map_map]
    rfl
  rw [hkey, map_value hpresent, List.map_map]
  rfl

theorem length_filterMap {values : List Num} (hpresent : ∀ v ∈ values, v ≠ .absent) :
    (values.filterMap value?).length = values.length := by
  rw [← List.length_map (f := some), ← map_value hpresent, List.length_map]

/-- **A nearest rank** of values present is their numbers', or past the range. -/
theorem ranked_value {values : List Num} (hpresent : ∀ v ∈ values, v ≠ .absent)
    (hne : values ≠ []) (hlen : values.length < 2 ^ 64) (p : Rat128) :
    ranked p values = .error (.outOfRange "") ∨
      ∃ c x, ranked p values = .ok c ∧ c.value? = some x ∧
        NearestRank (values.filterMap value? : List ℚ) p.value x := by
  unfold ranked
  dsimp only
  have hperm := List.mergeSort_perm values fun a b => decide (order a b ≠ .gt)
  have hsorted := sorted_by_key order_key values
  generalize values.mergeSort (fun a b => decide (order a b ≠ .gt)) = ordered at hperm hsorted
  have hordered : ∀ v ∈ ordered, v ≠ .absent := fun v hv => hpresent v (hperm.mem_iff.mp hv)
  have hlength := hperm.length_eq
  have hpos := List.length_pos_iff.mpr hne
  rw [hlength]
  cases hshare : p.checkedMul (Rat128.int (counted values.length)) with
  | none => exact .inl rfl
  | some share =>
      right
      dsimp only
      have hvalue := Rat128.checkedMul_value hshare
      rw [Rat128.int_value, counted_eq hlen] at hvalue
      rw [map_key hordered, List.pairwise_map] at hsorted
      have hnumbers : (ordered.filterMap value?).length = values.length :=
        (length_filterMap hordered).trans hlength
      generalize hplace : min (max share.ceil 1 - 1).toNat (values.length - 1) = place
      have hlt : place < ordered.length := by omega
      have hplaced : place < (ordered.filterMap value?).length := by omega
      have hx : ordered[place].value? = some (ordered.filterMap value?)[place] := by
        have hmap := List.getElem_of_eq (map_value hordered)
          (show place < (ordered.map value?).length by rw [List.length_map]; exact hlt)
        rwa [List.getElem_map, List.getElem_map] at hmap
      refine ⟨ordered[place], _, ?_, hx, ?_⟩
      · rw [List.getElem?_eq_getElem hlt, Option.getD_some]
      · have hcoe : ((values.filterMap value? : List ℚ) : Multiset ℚ) =
            (ordered.filterMap value? : List ℚ) := Multiset.coe_eq_coe.mpr (hperm.symm.filterMap _)
        rw [hcoe]
        refine nearestRank_of_sorted (hsorted.imp WithBot.coe_le_coe.mp) _ _ ?_
        rw [hnumbers, ← hplace, Rat128.ceil_value, hvalue]
        rfl

end Num

/-! ### Rounding once -/

theorem orPast_ok {α : Type} {x : Option α} {a : α} (h : orPast x = .ok a) : x = some a := by
  cases x with
  | none => cases h
  | some b => exact congrArg some (Except.ok.inj h)

/-- A value holds a number rounded half to even to the scale of its type; a
moment and a day hold theirs exactly. -/
def MetricKind.Holds (kind : MetricKind) (x : Option ℚ) (u : Value) : Prop :=
  match x with
  | none => u = .absent
  | some q =>
    match kind with
    | .int => ∃ n, HalfEven q n ∧ u = .int n
    | .decimal s | .literal s => ∃ d, HalfEven (q * 10 ^ s) d.units ∧ d.scale = s ∧ u = .decimal d
    | .money c =>
        ∃ d, minorUnit c = some d.scale ∧ HalfEven (q * 10 ^ d.scale) d.units ∧ u = .money c d
    | .duration => ∃ n, HalfEven q n ∧ u = .duration n
    | .timestamp => ∃ n : Int, q = n ∧ u = .timestamp n
    | .date => ∃ n : Int, q = n * 86400 ∧ u = .date n
    | _ => ∃ n : Int, q = n ∧ u = .int n

namespace Num

/-- Values of one number are rounded alike. -/
theorem rounded_alike {v w : Num} (h : v.value? = w.value?) (kind : MetricKind) :
    v.rounded kind = w.rounded kind := by
  have hrat : v.rat = w.rat := by
    unfold value? at h
    cases hv : v.rat with
    | none =>
        cases hw : w.rat with
        | none => rfl
        | some o =>
            rw [hv, hw] at h
            cases h
    | some r =>
        cases hw : w.rat with
        | none =>
            rw [hv, hw] at h
            cases h
        | some o =>
            rw [hv, hw] at h
            exact congrArg some (Rat128.value_inj (Option.some.inj h))
  have hint : ∀ v : Num, ∀ r, v.rat = some r →
      v.rounded .int = orPast (do return .int (← fits64 (← r.halfEven 0))) := by
    intro v r hr
    cases v with
    | absent => cases hr
    | frac r' =>
        obtain rfl := Option.some.inj hr
        rfl
    | int n =>
        obtain rfl := Option.some.inj hr
        rw [Rat128.halfEven_int]
        show orPast ((fits64 n).map Value.int) = orPast ((fits64 n).bind fun n => some (Value.int n))
        rw [Option.map_eq_bind]
        rfl
  cases hv : v.rat with
  | none =>
      have hw := hrat.symm.trans hv
      unfold rounded
      rw [hv, hw]
  | some r =>
      have hw := hrat.symm.trans hv
      cases kind with
      | int => rw [hint v r hv, hint w r hw]
      | _ =>
          unfold rounded
          rw [hv, hw]

/-- A value rounded to places is the decimal nearest. -/
theorem rounded_places {r : Rat128} {places : Nat} {f : Decimal → Value} {u : Value}
    (h : orPast (do return f (← Decimal.new (← r.halfEven places) places)) = .ok u) :
    ∃ d : Decimal, HalfEven (r.value * 10 ^ places) d.units ∧ d.scale = places ∧ u = f d := by
  obtain ⟨n, hn, h⟩ := Option.bind_eq_some_iff.mp (orPast_ok h)
  obtain ⟨d, hd, h⟩ := Option.bind_eq_some_iff.mp h
  obtain ⟨hunits, hscale⟩ := Decimal.new_eq_some.mp hd
  exact ⟨d, hunits ▸ Rat128.halfEven_value hn, hscale, (Option.some.inj h).symm⟩

/-- A value rounded to a whole number is the nearest. -/
theorem rounded_whole {r : Rat128} {f : Int → Value} {u : Value}
    (h : orPast (do return f (← fits64 (← r.halfEven 0))) = .ok u) :
    ∃ n, HalfEven r.value n ∧ u = f n := by
  obtain ⟨n, hn, h⟩ := Option.bind_eq_some_iff.mp (orPast_ok h)
  obtain ⟨k, hk, h⟩ := Option.bind_eq_some_iff.mp h
  obtain ⟨rfl, -⟩ := fits64_eq_some.mp hk
  have hnear := Rat128.halfEven_value hn
  rw [pow_zero, mul_one] at hnear
  exact ⟨n, hnear, (Option.some.inj h).symm⟩

/-- A whole number of 64 bits is held as it is. -/
theorem whole_held {r : Rat128} {f : Int → Value} {other : Except NotRun Value} {u : Value}
    (hother : other ≠ .ok u)
    (h : (if r.isInteger then orPast ((fits64 r.trunc).map f) else other) = .ok u) :
    ∃ n : Int, r.value = n ∧ u = f n := by
  split at h
  case isTrue hinteger =>
    obtain ⟨n, hn, rfl⟩ := Option.map_eq_some_iff.mp (orPast_ok h)
    obtain ⟨rfl, -⟩ := fits64_eq_some.mp hn
    exact ⟨_, Rat128.isInteger_value hinteger, rfl⟩
  case isFalse => exact absurd h hother

/-- **A value rounded** holds its number at the scale asked. -/
theorem rounded_holds {v : Num} {kind : MetricKind} {u : Value} (h : v.rounded kind = .ok u) :
    kind.Holds v.value? u := by
  cases hrat : v.rat with
  | none =>
      unfold rounded at h
      rw [hrat] at h
      rw [value?, hrat]
      exact (Except.ok.inj h).symm
  | some r =>
      have hvalue : v.value? = (Num.frac r).value? := by
        rw [value?, hrat]
        rfl
      rw [rounded_alike hvalue] at h
      rw [hvalue]
      cases kind with
      | int => exact rounded_whole h
      | duration => exact rounded_whole h
      | decimal s => exact rounded_places h
      | literal s => exact rounded_places h
      | money c =>
          unfold rounded rat at h
          dsimp only at h
          cases hminor : minorUnit c with
          | none =>
              rw [hminor] at h
              cases h
          | some places =>
              rw [hminor] at h
              obtain ⟨d, hnear, hscale, hu⟩ := rounded_places h
              exact ⟨d, by rw [hminor, hscale], hscale ▸ hnear, hu⟩
      | date =>
          unfold rounded rat at h
          have h := orPast_ok h
          split at h
          case isFalse => cases h
          case isTrue hday =>
            obtain ⟨n, hn, rfl⟩ := Option.map_eq_some_iff.mp h
            obtain ⟨rfl, -⟩ := fits64_eq_some.mp hn
            refine ⟨_, ?_, rfl⟩
            rw [Rat128.isInteger_value hday.1]
            have hsplit : r.trunc = r.trunc / 86400 * 86400 := by
              have := hday.2
              omega
            exact_mod_cast hsplit
      | timestamp => exact whole_held (fun hok => by cases hok) h
      | _ => exact whole_held (fun hok => by cases hok) h

end Num

end ObjectFlow
