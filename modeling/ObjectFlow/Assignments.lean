import ObjectFlow.Effects
import ObjectFlow.Journaled
import ObjectFlow.LogReplays
import ObjectFlow.Quantities

/-!
# Quotients written to attributes

A quotient an effect sets an attribute to is computed exactly and rounded once,
at the attribute's scale, an amount's minor unit or whole seconds; a quotient of
two integers discards its remainder.
-/

namespace ObjectFlow

open Base

/-- The places an attribute of numbers keeps. -/
def Declared.keeps? : Declared → Option Nat
  | .scalar (.decimal _ s) => some s
  | .scalar (.money currency) => some ((minorUnit currency).getD 2)
  | .scalar (.named type) => if type ∈ ["int", "counter", "duration"] then some 0 else none
  | _ => none

/-- What an attribute of so many places holds of a quotient: that of two
integers toward zero, any other rounded once.  Nothing is said of a quotient of
two amounts or two durations in a decimal of other than six places. -/
def QuotientHeld (declared : Declared) (s : Nat) (a b : Value) (p q : Quantity) (x y : ℚ)
    (w : Value) : Prop :=
  y ≠ 0 ∧ ∃ r z, w.quantity? = some (r, z) ∧
    ((∃ m n : Int, a = .int m ∧ b = .int n ∧ z = (m.tdiv n : Int)) ∨
      (∀ m n, a = .int m → b ≠ .int n) ∧
        ((p = q → p ≠ .scalar → ∀ digits t, declared = .scalar (.decimal digits t) → t = 6) →
          Rounded s (x / y) z))

variable {a b v w : Value} {p q : Quantity} {x y : ℚ} {s places : Nat}

theorem quantity_of_int {n : Int} (hlow : i64Min ≤ n) (hhigh : n ≤ i64Max) :
    (Value.int n).quantity? = some (.scalar, (n : ℚ)) := by
  simp only [Value.quantity?, fits64_eq_some.mpr ⟨rfl, hlow, hhigh⟩, Option.map_some]

theorem quantity_of_duration {n : Int} (hlow : i64Min ≤ n) (hhigh : n ≤ i64Max) :
    (Value.duration n).quantity? = some (.duration, (n : ℚ)) := by
  simp only [Value.quantity?, fits64_eq_some.mpr ⟨rfl, hlow, hhigh⟩, Option.map_some]

theorem rescale_self {d e : Decimal} (hscale : d.scale = s) (h : d.rescale s = some e) : e = d := by
  unfold Decimal.rescale at h
  rw [if_pos hscale.symm] at h
  exact (Option.some.inj h).symm

theorem withinDigits_some {d e : Decimal} (h : withinDigits d = some e) : e = d := by
  unfold withinDigits at h
  split at h
  case isTrue => exact (Option.some.inj h).symm
  case isFalse => cases h

/-- A value fitted to a decimal is its number at that scale. -/
theorem fitOne_decimal {digits : Nat} (h : fitOne (.scalar (.decimal digits s)) v = some w)
    (hne : v ≠ .absent) :
    ∃ d e, v.number = some d ∧ d.rescale s = some e ∧ w = .decimal e := by
  cases hd : v.number with
  | none =>
      cases v <;> simp_all [fitOne]
  | some d =>
      have hheld : (d.rescale s).bind (fun held =>
          if held.units.natAbs ≤ 10 ^ digits - 1 then (withinDigits held).map Value.decimal
          else none) = some w := by
        cases v <;> simp_all [fitOne]
      obtain ⟨e, he, hheld⟩ := Option.bind_eq_some_iff.mp hheld
      split at hheld
      case isFalse => cases hheld
      case isTrue =>
        obtain ⟨f, hf, rfl⟩ := Option.map_eq_some_iff.mp hheld
        rw [withinDigits_some hf]
        exact ⟨d, e, rfl, he, rfl⟩

theorem not_integers (ha : a.quantity? = some (p, x)) (hp : p ≠ .scalar) (m n : Int)
    (h : a = .int m) : b ≠ .int n := by
  subst h
  exact absurd (quantity_int ha).1 hp

/-- A quotient fitted to a decimal of the scale it was rounded at. -/
theorem fit_decimal {digits : Nat} (ha : a.quantity? = some (p, x)) (hy : y ≠ 0)
    (hdiv : Divided a b p q x y s v)
    (hfit : fitOne (.scalar (.decimal digits s)) v = some w) :
    QuotientHeld (.scalar (.decimal digits s)) s a b p q x y w := by
  refine ⟨hy, ?_⟩
  cases hdiv with
  | integers m n ha hb hlow hhigh =>
      obtain ⟨d, e, hd, he, rfl⟩ := fitOne_decimal hfit (by simp)
      obtain ⟨-, hscale⟩ := Decimal.new_eq_some.mp hd
      have hexact := (Decimal.rescale_exact (by omega) he).2
      rw [Decimal.fromInt_exact hd] at hexact
      exact ⟨.scalar, _, rfl, .inl ⟨m, n, ha, hb, hexact⟩⟩
  | scalar d hp hnot hscale hround =>
      obtain ⟨d', e, hd, he, rfl⟩ := fitOne_decimal hfit (by simp)
      obtain rfl := Option.some.inj hd
      rw [rescale_self hscale he]
      refine ⟨.scalar, _, rfl, .inr ⟨hnot, fun _ => Decimal.rounded hscale ?_⟩⟩
      rwa [hscale] at hround
  | alike d hpq hne hscale hround =>
      obtain ⟨d', e, hd, he, rfl⟩ := fitOne_decimal hfit (by simp)
      obtain rfl := Option.some.inj hd
      refine ⟨.scalar, _, rfl, .inr ⟨not_integers ha hne, fun hcond => ?_⟩⟩
      have hsix : s = 6 := hcond hpq hne digits s rfl
      rw [rescale_self (hscale.trans hsix.symm) he]
      rw [hscale] at hround
      exact Decimal.rounded (hscale.trans hsix.symm) (hsix ▸ hround)
  | money c d =>
      obtain ⟨d', e, hd, -⟩ := fitOne_decimal hfit (by simp)
      cases hd
  | duration n =>
      obtain ⟨d', e, hd, -⟩ := fitOne_decimal hfit (by simp)
      cases hd

/-- A quotient fitted to an amount of a currency. -/
theorem fit_money {c : String} (ha : a.quantity? = some (p, x)) (hy : y ≠ 0)
    (hdiv : Divided a b p q x y places v)
    (hfit : fitOne (.scalar (.money c)) v = some w) :
    QuotientHeld (.scalar (.money c)) ((minorUnit c).getD 2) a b p q x y w := by
  refine ⟨hy, ?_⟩
  cases hdiv with
  | money c' d hp hq hscale hround =>
      simp only [fitOne] at hfit
      split at hfit
      case isFalse => cases hfit
      case isTrue hc =>
        subst hc
        obtain ⟨e, he, hfit⟩ := Option.bind_eq_some_iff.mp hfit
        obtain ⟨f, hf, rfl⟩ := Option.map_eq_some_iff.mp hfit
        rw [withinDigits_some hf, rescale_self hscale he]
        refine ⟨.money c', _, rfl, .inr ⟨not_integers ha (by simp [hp]), fun _ => ?_⟩⟩
        rw [hscale] at hround
        exact Decimal.rounded hscale hround
  | _ => simp [fitOne] at hfit

/-- A whole quotient is the one nearest. -/
theorem whole_rounded {d : Decimal} {u : ℚ} {n : Int} (hround : HalfEven (u * 10 ^ d.scale) d.units)
    (hn : d.exact = n) : Rounded 0 u (n : ℚ) := by
  refine ⟨n, ?_, by rw [pow_zero, div_one]⟩
  rw [pow_zero, mul_one]
  refine hround.coarser (one_le_pow₀ (by norm_num)) ?_
  rw [← hn, Decimal.exact, div_mul_cancel₀ _ (by positivity)]

/-- A quotient fitted to a whole number or a duration. -/
theorem fit_whole {type : String} (ha : a.quantity? = some (p, x)) (hy : y ≠ 0)
    (hdiv : Divided a b p q x y places v) (hfit : fitOne (.scalar (.named type)) v = some w) :
    QuotientHeld (.scalar (.named type)) 0 a b p q x y w := by
  have hfitted : ∀ d : Decimal, fitOne (.scalar (.named type)) (.decimal d) = some w →
      ∃ n : Int, w = .int n ∧ d.exact = n ∧ i64Min ≤ n ∧ n ≤ i64Max := by
    intro d h
    simp only [fitOne] at h
    split at h
    case isFalse => cases h
    case isTrue =>
      obtain ⟨n, hn, rfl⟩ := Option.map_eq_some_iff.mp h
      obtain ⟨e, he, hn⟩ := Option.bind_eq_some_iff.mp hn
      obtain ⟨-, hequal⟩ := Option.filter_eq_some_iff.mp he
      have hexact := (Decimal.equal_exact e d).mp hequal
      exact ⟨n, rfl, hexact.symm.trans (Decimal.toInt_exact hn), Decimal.toInt_fits hn⟩
  refine ⟨hy, ?_⟩
  cases hdiv with
  | integers m n ha hb hlow hhigh =>
      simp only [fitOne] at hfit
      split at hfit
      case isFalse => cases hfit
      case isTrue =>
        obtain rfl := Option.some.inj hfit
        exact ⟨.scalar, _, quantity_of_int hlow hhigh, .inl ⟨m, n, ha, hb, rfl⟩⟩
  | scalar d hp hnot hscale hround =>
      obtain ⟨n, rfl, hn, hlow, hhigh⟩ := hfitted d hfit
      exact ⟨.scalar, _, quantity_of_int hlow hhigh, .inr ⟨hnot, fun _ => whole_rounded hround hn⟩⟩
  | alike d hpq hne hscale hround =>
      obtain ⟨n, rfl, hn, hlow, hhigh⟩ := hfitted d hfit
      exact ⟨.scalar, _, quantity_of_int hlow hhigh,
        .inr ⟨not_integers ha hne, fun _ => whole_rounded hround hn⟩⟩
  | money => simp [fitOne] at hfit
  | duration n hp hq hlow hhigh hround =>
      simp only [fitOne] at hfit
      split at hfit
      case isFalse => cases hfit
      case isTrue =>
        obtain rfl := Option.some.inj hfit
        refine ⟨.duration, _, quantity_of_duration hlow hhigh,
          .inr ⟨not_integers ha (by simp [hp]), fun _ => ⟨n, ?_, by rw [pow_zero, div_one]⟩⟩⟩
        rwa [pow_zero, mul_one]

/-- A quotient fitted to an attribute of numbers, rounded at its scale where that
is a decimal's. -/
theorem fitted_quotient {declared : Declared} (hkeeps : declared.keeps? = some s)
    (ha : a.quantity? = some (p, x)) (hy : y ≠ 0) (hdiv : Divided a b p q x y places v)
    (hplaces : ∀ digits t, declared = .scalar (.decimal digits t) → places = t)
    (hfit : fitOne declared v = some w) : QuotientHeld declared s a b p q x y w := by
  unfold Declared.keeps? at hkeeps
  split at hkeeps
  case h_1 digits t =>
    obtain rfl := Option.some.inj hkeeps
    exact fit_decimal ha hy (hplaces digits t rfl ▸ hdiv) hfit
  case h_2 c =>
    obtain rfl := Option.some.inj hkeeps
    exact fit_money ha hy hdiv hfit
  case h_3 type =>
    split at hkeeps
    case isTrue =>
      obtain rfl := Option.some.inj hkeeps
      exact fit_whole ha hy hdiv hfit
    case isFalse => cases hkeeps
  case h_4 => cases hkeeps

/-! ### An assignment's run -/

section Assign

variable {r : Readers} {t : FlowType} {id : String} {inputs : Table String Value}
  {position : Int} {env : Env} {location : String} {l m : Expr} {ctx ctx' : Ctx}

/-- The evaluator an effect's expression is evaluated by. -/
def assigning (t : FlowType) (id : String) (inputs : Table String Value) (position : Int)
    (ctx : Ctx) : Evaluator :=
  { ctx.effectEvaluator t id inputs with
    answers := some ctx.answers
    event := some position }

/-- The quotient an assignment evaluates: rounded at a decimal's scale where it
is written to one. -/
def assignedQuotient (r : Readers) (how : Evaluating) (l m : Expr) (ev : Evaluator) (env : Env) :
    Evaluated Value :=
  match how with
  | .writtenAt scale =>
      quotientAt l m (Evaluator.meaning r.metrics l) (Evaluator.meaning r.metrics m) scale ev env
  | _ => ev.evalIn r.metrics (.bin .div l m) env

/-- What an effect's quotient evaluates to, the request otherwise as it was. -/
theorem effectValue_quotient {how : Evaluating} (hhow : how ≠ .filtering)
    (h : effectValue r t id inputs position env (.bin .div l m) how ctx = (.ok v, ctx')) :
    (assignedQuotient r how l m (assigning t id inputs position ctx) env).outcome = .ok v ∧
      ctx'.work = ctx.work := by
  obtain ⟨⟨found, notes⟩, s₁, hfound, hrest⟩ := Program.bind_ok h
  obtain ⟨ctx₀, s₂, hctx, hfound⟩ := Program.bind_ok hfound
  cases hctx
  obtain ⟨_, s₃, hnoted, hfound⟩ := Program.bind_ok hfound
  obtain ⟨hvalue, rfl⟩ := Program.check_ok hfound
  cases hnoted
  have hleft : v = found ∧ ctx'.work = ctx.work := by
    cases how with
    | filtering => exact absurd rfl hhow
    | plain | writtenAt =>
        dsimp only at hrest
        split at hrest
        · cases hrest
        · cases hrest
          exact ⟨rfl, rfl⟩
  refine ⟨?_, hleft.2⟩
  rw [hleft.1]
  have hok : (assignedQuotient r how l m (assigning t id inputs position ctx) env).outcome =
      .ok found := by
    cases how with
    | filtering => exact absurd rfl hhow
    | plain | writtenAt =>
        unfold evaluated at hvalue
        split at hvalue
        case h_1 hok =>
          cases hvalue
          exact hok
        case h_2 => cases hvalue
  exact hok

/-- **An assignment of a quotient** that ends leaves the value it evaluated,
fitted, in the attribute. -/
theorem assign_quotient {o : Object} {spec : Attribute}
    (hspec : t.attribute? location = some spec) (hheld : ctx.work.get id = some o)
    (h : assign r t id inputs position env location (.bin .div l m) ctx = (.ok (), ctx')) :
    ∃ v w o', (assignedQuotient r (evaluatingFor (some spec)) l m
        (assigning t id inputs position ctx) env).outcome = .ok v ∧ v ≠ .absent ∧
      t.atDeclaredScale location v = some w ∧ ctx'.work.get id = some o' ∧
        Table.get? o'.attrs location = some w := by
  obtain ⟨ctx₀, s₁, hctx, h⟩ := Program.bind_ok h
  cases hctx
  have hsupplied : unsupplied (.bin .div l m) inputs ctx.who.principal = false := rfl
  dsimp only at h
  rw [hsupplied, if_neg Bool.false_ne_true, hspec] at h
  have hhow : evaluatingFor (some spec) ≠ .filtering := by
    unfold evaluatingFor
    split <;> simp
  obtain ⟨v, s₂, hv, h⟩ := Program.bind_ok h
  obtain ⟨hvalue, hwork⟩ := effectValue_quotient hhow hv
  split at h
  · cases h
  have hplain : (v.isAbsent && Expr.isPlainRead (.bin .div l m) &&
      (some spec).any (·.optional)) = false := by
    rw [show Expr.isPlainRead (.bin .div l m) = false from rfl, Bool.and_false, Bool.false_and]
  rw [hplain, if_neg Bool.false_ne_true] at h
  split at h
  · cases h
  case isFalse habsent =>
    obtain ⟨w, hfitted, h⟩ := Program.check_bind_ok h
    split at h
    · cases h
    cases h
    have hfit : t.atDeclaredScale location v = some w := by
      unfold fitted at hfitted
      split at hfitted
      case h_1 w' hw =>
        cases hfitted
        exact hw
      case h_2 => cases hfitted
    refine ⟨v, w, { o with attrs := Table.set o.attrs location w }, hvalue,
      mt Value.isAbsent_iff.mpr habsent, hfit, ?_, Table.get?_set_self _ _ _⟩
    show (s₂.work.change id _).get id = _
    rw [World.get_change, if_pos rfl, hwork, hheld]
    rfl

/-- A division there is a value of is the arithmetic's. -/
theorem combined_arithmetic {ev : Evaluator} (h : (ev.combined .div a b).outcome = .ok v)
    (ha : a.quantity? = some (p, x)) (hb : b.quantity? = some (q, y)) :
    arithmetic .div a b = .ok v := by
  have hcombine : combine .div a b = arithmetic .div a b := by
    have hpresent := present_both ha hb
    unfold combine
    rw [if_pos (by decide)]
    dsimp only
    rw [hpresent]
    rfl
  unfold Evaluator.combined at h
  rw [hcombine] at h
  split at h
  case h_1 => cases h
  case h_2 w hw =>
    rw [hw]
    split at h
    case isTrue =>
      split at h
      · obtain ⟨-, -, h⟩ := Noted.bind_outcome_ok.mp h
        exact congrArg Except.ok (Except.ok.inj h)
      · cases h
    case isFalse => exact congrArg Except.ok (Except.ok.inj h)

/-- What a number's decimal stands for. -/
theorem number_exact {k : Decimal} (hk : b.number = some k) (hb : b.quantity? = some (q, y)) :
    k.exact = y := by
  have hq : q = .scalar := by
    rcases quantity_cases hb with hq | ⟨c, e, rfl, -⟩ | ⟨n, rfl, -⟩
    · exact hq
    · cases hk
    · cases hk
  obtain ⟨k', hk', hy⟩ := scalar_number (hq ▸ hb)
  rw [Option.some.inj (hk.symm.trans hk'), hy]

/-- A decimal is divided by a number alone. -/
theorem arithmetic_decimal {d : Decimal} (h : arithmetic .div (.decimal d) b = .ok v)
    (hb : b.quantity? = some (q, y)) : ∃ k, b.number = some k := by
  rcases quantity_cases hb with rfl | ⟨c, e, rfl, -⟩ | ⟨n, rfl, -⟩
  · obtain ⟨k, hk, -⟩ := scalar_number hb
    exact ⟨k, hk⟩
  · simp only [arithmetic, Value.number, reduceCtorEq] at h
  · simp only [arithmetic, Value.number, reduceCtorEq] at h

/-- The operands a quotient is of. -/
theorem assignedQuotient_divided {how : Evaluating} {ev : Evaluator} (hhow : how ≠ .filtering)
    (h : (assignedQuotient r how l m ev env).outcome = .ok v) (hne : v ≠ .absent) :
    ∃ a b, (operands l m (Evaluator.meaning r.metrics l) (Evaluator.meaning r.metrics m) ev
        env).outcome = .ok (a, b) ∧
      ∀ p q x y, a.quantity? = some (p, x) → b.quantity? = some (q, y) →
        ∃ places, (∀ scale, how = .writtenAt scale → places = scale) ∧ y ≠ 0 ∧
          Divided a b p q x y places v := by
  cases how with
  | filtering => exact absurd rfl hhow
  | plain =>
      obtain ⟨term, hterm, hvalue⟩ := Noted.bind_outcome_ok.mp h
      obtain ⟨⟨a, b⟩, hoperands, hterm⟩ := Noted.bind_outcome_ok.mp hterm
      obtain ⟨w, hcombined, hterm⟩ := Noted.bind_outcome_ok.mp hterm
      cases hterm
      cases hvalue
      refine ⟨a, b, hoperands, fun p q x y ha hb => ?_⟩
      obtain ⟨places, hplaces⟩ : ∃ places, ∀ d, a = .decimal d → d.scale = places := by
        cases a with
        | decimal d => exact ⟨d.scale, fun e he => by rw [Value.decimal.inj he]⟩
        | _ => exact ⟨0, fun _ he => by cases he⟩
      obtain ⟨hy, hdivided⟩ :=
        arithmetic_divided ha hb hplaces (combined_arithmetic hcombined ha hb) hne
      refine ⟨places, fun _ hscale => ?_, hy, hdivided⟩
      cases hscale
  | writtenAt scale =>
      obtain ⟨⟨a, b⟩, hoperands, hquotient⟩ := Noted.bind_outcome_ok.mp h
      refine ⟨a, b, hoperands, fun p q x y ha hb => ?_⟩
      have hwritten : y ≠ 0 ∧ Divided a b p q x y scale v := by
        dsimp only at hquotient
        split at hquotient
        case h_1 d k hk =>
          cases ha
          obtain rfl := number_exact hk hb
          split at hquotient
          case isTrue hzero =>
            have hvalue := combined_arithmetic hquotient rfl hb
            obtain ⟨hy, -⟩ := arithmetic_divided rfl hb (fun _ h => by cases h; rfl) hvalue hne
            refine absurd ?_ hy
            unfold Decimal.exact
            rw [of_decide_eq_true hzero, Int.cast_zero, zero_div]
          case isFalse =>
            split at hquotient
            case h_1 e he =>
              cases hquotient
              obtain ⟨hy, hscale, hround⟩ := Decimal.checkedDiv_rounds he
              refine ⟨hy, .scalar e rfl (fun _ _ h => by cases h) hscale ?_⟩
              rw [hscale]
              exact hround
            case h_2 => cases hquotient
        case h_2 hnot =>
          have hvalue := combined_arithmetic hquotient ha hb
          refine arithmetic_divided ha hb (fun d hd => ?_) hvalue hne
          subst hd
          obtain ⟨k, hk⟩ := arithmetic_decimal hvalue hb
          exact absurd hk (hnot d k rfl)
      refine ⟨scale, fun _ hscale => ?_, hwritten⟩
      exact Evaluating.writtenAt.inj hscale

/-- **A quotient assigned** to an attribute of numbers is the exact quotient of
its operands, rounded once at the attribute's scale; of two integers, the
quotient toward zero. -/
theorem quotient_assigned {o : Object} {spec : Attribute} {s : Nat}
    (hspec : t.attribute? location = some spec) (hkeeps : spec.declared.keeps? = some s)
    (hheld : ctx.work.get id = some o)
    (h : assign r t id inputs position env location (.bin .div l m) ctx = (.ok (), ctx')) :
    ∃ a b w o', (operands l m (Evaluator.meaning r.metrics l) (Evaluator.meaning r.metrics m)
        (assigning t id inputs position ctx) env).outcome = .ok (a, b) ∧
      ctx'.work.get id = some o' ∧ Table.get? o'.attrs location = some w ∧
        ∀ p q x y, a.quantity? = some (p, x) → b.quantity? = some (q, y) →
          QuotientHeld spec.declared s a b p q x y w := by
  obtain ⟨v, w, o', hvalue, hne, hfit, hget, hattr⟩ := assign_quotient hspec hheld h
  have hhow : evaluatingFor (some spec) ≠ .filtering := by
    unfold evaluatingFor
    split <;> simp
  obtain ⟨a, b, hoperands, hdivided⟩ := assignedQuotient_divided hhow hvalue hne
  refine ⟨a, b, w, o', hoperands, hget, hattr, fun p q x y ha hb => ?_⟩
  obtain ⟨places, hplaces, hy, hdiv⟩ := hdivided p q x y ha hb
  refine fitted_quotient hkeeps ha hy hdiv (fun digits t' hdeclared => ?_) ?_
  · refine hplaces t' ?_
    unfold evaluatingFor
    rw [Option.bind_some, hdeclared]
    rfl
  · unfold FlowType.atDeclaredScale at hfit
    rw [hspec] at hfit
    obtain ⟨hfit, -⟩ := Option.filter_eq_some_iff.mp hfit
    unfold fitValue at hfit
    split at hfit
    case h_1 => exact absurd rfl hne
    case h_2 => cases hdiv
    case h_3 => cases hfit
    case h_4 => exact hfit

end Assign

/-! ### The arithmetic of the language -/

/-- An evaluator's sums, differences, products and comparisons are exact, an
amount's and a duration's product rounded once; what is past the range or of two
kinds is a failure. -/
structure Evaluator.Exact (ev : Evaluator) : Prop where
  sum : ∀ op a b p q x y, op = .add ∨ op = .sub → a.quantity? = some (p, x) →
    b.quantity? = some (q, y) →
    (p ≠ q ∧ ∃ w, (ev.combined op a b).outcome = .error (.unsupported w)) ∨
      (ev.combined op a b).outcome = .error (.outOfRange (ev.this.getD "")) ∨
        ∃ v r z, (ev.combined op a b).outcome = .ok v ∧ v.quantity? = some (r, z) ∧
          (r = p ∨ r = q) ∧ z = if op = .add then x + y else x - y
  product : ∀ a b p q x y, a.quantity? = some (p, x) → b.quantity? = some (q, y) →
    (p ≠ .scalar ∧ q ≠ .scalar ∧
        ∃ w, (ev.combined .mul a b).outcome = .error (.unsupported w)) ∨
      (ev.combined .mul a b).outcome = .error (.outOfRange (ev.this.getD "")) ∨
        ∃ v r z, (ev.combined .mul a b).outcome = .ok v ∧ v.quantity? = some (r, z) ∧
          Product p q x y r z
  comparison : ∀ op a b p q x y, op ∈ [BinOp.eq, .ne, .lt, .le, .gt, .ge] →
    a.quantity? = some (p, x) → b.quantity? = some (q, y) → Comparable a b p q →
    (ev.combined op a b).outcome = .ok (.bool (compared op x y))

/-- Every assignment of a quotient of numbers to an attribute of numbers that
ends leaves there what `held` says of it. -/
def Assigned (held : Declared → Nat → Value → Value → Quantity → Quantity → ℚ → ℚ → Value → Prop) :
    Prop :=
  ∀ (r : Readers) (t : FlowType) (id : String) (inputs : Table String Value) (position : Int)
    (env : Env) (location : String) (l m : Expr) (ctx ctx' : Ctx) (o : Object) (spec : Attribute)
    (s : Nat), t.attribute? location = some spec → spec.declared.keeps? = some s →
      ctx.work.get id = some o →
      assign r t id inputs position env location (.bin .div l m) ctx = (.ok (), ctx') →
        ∃ a b w o', (operands l m (Evaluator.meaning r.metrics l) (Evaluator.meaning r.metrics m)
            (assigning t id inputs position ctx) env).outcome = .ok (a, b) ∧
          ctx'.work.get id = some o' ∧ Table.get? o'.attrs location = some w ∧
            ∀ p q x y, a.quantity? = some (p, x) → b.quantity? = some (q, y) →
              held spec.declared s a b p q x y w

/-- **Arithmetic is exact or a failure.**  Sums, differences, products and
comparisons are those of the numbers; a decimal taken to a scale is rounded once,
half to even; and a quotient assigned is rounded once at the attribute's scale,
that of two integers toward zero. -/
theorem arithmetic_exact :
    (∀ ev : Evaluator, ev.Exact) ∧
      (∀ (d : Decimal) (s : Nat), d.rescale s = none ∨
        ∃ r, d.rescale s = some r ∧ r.scale = s ∧ HalfEven (d.exact * 10 ^ s) r.units) ∧
      Assigned QuotientHeld := by
  refine ⟨fun ev => ?_, fun d s => ?_, ?_⟩
  · exact
      { sum := fun op a b p q x y hop ha hb => combined_sum ev hop ha hb
        product := fun a b p q x y ha hb => combined_product ev ha hb
        comparison := fun op a b p q x y hop ha hb h => combined_compares ev ha hb h hop }
  · cases h : d.rescale s with
    | none => exact .inl rfl
    | some r => exact .inr ⟨r, rfl, Decimal.rescale_rounds h⟩
  · intro r t id inputs position env location l m ctx ctx' o spec s hspec hkeeps hheld h
    exact quotient_assigned hspec hkeeps hheld h

namespace Halving

/-- A type of two numbers. -/
def parcel : FlowType where
  name := "Parcel"
  attributes := [("count", { declared := .scalar (.named "int"), optional := true }),
    ("weight", { declared := .scalar (.decimal 18 2), optional := true })]
  states := [("OPEN", {})]

/-- A request over one parcel. -/
def ctx : Ctx :=
  Ctx.start
    { lib := { types := [("Parcel", parcel)] }
      objects := [("parcel-1", { id := "parcel-1", type := "Parcel", state := "OPEN" })] }
    CallingBack.counters { transition := "halve", actor := "ann", objectId := some "parcel-1" }
    { who := { id := "ann", kind := "human", acts := true }
      typeName := "Parcel", type := parcel, transition := { kind := .internal }
      oid := some "parcel-1", inputs := [] }
    [] false none none

/-- `set location := left / right` on the parcel. -/
def halved (location : String) (left right : Number) : Except Stop Unit × Ctx :=
  assign CallingBack.readers parcel "parcel-1" [] 11 [] location
    (.bin .div (.num left) (.num right)) ctx

/-- What an assignment leaves in an attribute of the parcel, where it ends. -/
def left? (location : String) : Except Stop Unit × Ctx → Option Value
  | (.ok (), ctx') => (ctx'.work.get "parcel-1").bind fun o => Table.get? o.attrs location
  | _ => none

theorem halved_ok {location : String} {x y : Number}
    (h : (left? location (halved location x y)).isSome = true) :
    halved location x y = (.ok (), (halved location x y).2) := by
  rcases heq : halved location x y with ⟨_ | ⟨⟩, ctx'⟩
  · rw [heq] at h
    cases h
  · rfl

/-- A tenth of 1.05 in two places is 0.10. -/
theorem weight_rounded :
    ∃ a b w o', (operands (.num (.decimal "1.05")) (.num (.int 10))
        (Evaluator.meaning CallingBack.readers.metrics (.num (.decimal "1.05")))
        (Evaluator.meaning CallingBack.readers.metrics (.num (.int 10)))
        (assigning parcel "parcel-1" [] 11 ctx) []).outcome = .ok (a, b) ∧
      (halved "weight" (.decimal "1.05") (.int 10)).2.work.get "parcel-1" = some o' ∧
        Table.get? o'.attrs "weight" = some w ∧
          ∀ p q x y, a.quantity? = some (p, x) → b.quantity? = some (q, y) →
            QuotientHeld (.scalar (.decimal 18 2)) 2 a b p q x y w :=
  arithmetic_exact.2.2 CallingBack.readers parcel "parcel-1" [] 11 [] "weight"
    (.num (.decimal "1.05")) (.num (.int 10)) ctx (halved "weight" (.decimal "1.05") (.int 10)).2
    { id := "parcel-1", type := "Parcel", state := "OPEN" }
    { declared := .scalar (.decimal 18 2), optional := true } 2 rfl rfl rfl
    (halved_ok (by decide +kernel))

/-- The half of seven left in an integer is three. -/
theorem seven_halved :
    ¬ Assigned fun _ s _ _ _ _ x y w => ∃ r z, w.quantity? = some (r, z) ∧ Rounded s (x / y) z := by
  intro h
  have hleft : left? "count" (halved "count" (.int 7) (.int 2)) = some (.int 3) := by
    rfl
  obtain ⟨a, b, w, o', hoperands, hget, hattr, hrounded⟩ :=
    h CallingBack.readers parcel "parcel-1" [] 11 [] "count" (.num (.int 7)) (.num (.int 2)) ctx
      (halved "count" (.int 7) (.int 2)).2 { id := "parcel-1", type := "Parcel", state := "OPEN" }
      { declared := .scalar (.named "int"), optional := true } 0 rfl rfl rfl
      (halved_ok (by rw [hleft]; rfl))
  have hab : (.ok (.int 7, .int 2) : Except NotRun (Value × Value)) = .ok (a, b) := hoperands
  obtain ⟨rfl, rfl⟩ := Prod.mk.inj (Except.ok.inj hab)
  have hw : w = .int 3 := by
    rw [halved_ok (by rw [hleft]; rfl)] at hleft
    have hvalue : ((halved "count" (.int 7) (.int 2)).2.work.get "parcel-1").bind
        (fun o => Table.get? o.attrs "count") = some w := by
      rw [hget]
      exact hattr
    exact Option.some.inj (hvalue.symm.trans hleft)
  subst hw
  obtain ⟨r, z, hz, n, hn, hround⟩ := hrounded .scalar .scalar 7 2 rfl rfl
  obtain ⟨-, rfl⟩ := Prod.mk.inj (Option.some.inj hz)
  have hthree : n = 3 := by
    rw [pow_zero, div_one] at hround
    exact_mod_cast hround.symm
  have heven : Even (3 : Int) := hthree ▸ hn.even (by rw [hthree]; norm_num)
  exact absurd heven (by decide)

end Halving

end ObjectFlow
