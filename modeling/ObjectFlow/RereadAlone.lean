import ObjectFlow.RereadForms

/-!
# What stands alone read back

Literals, names, parameters, sets, calls of names, aggregates and metrics: what a
parser reads in the tightest place.
-/

namespace ObjectFlow

open Base Base.Program

namespace Parser

variable {params : Bool}

theorem Holds.of_primary {e : Expr} {w : Rendered} (hstarts : Starts 9 w)
    (h : ∀ p rest n, Before params 10 n p w rest → Closes 9 e rest →
      primary (n + 1) p = (.ok e, p.past w.toks.length)) : Holds params 9 e w := by
  refine ⟨?_, hstarts⟩
  show ReadsAs params 9 e w
  intro p rest n hbefore hcloses
  have hlength := hstarts.length
  have hturns := hbefore.turns
  obtain ⟨n, rfl⟩ : ∃ m, n = m + 1 := Nat.exists_eq_succ_of_ne_zero (by omega)
  exact h p rest n ⟨hbefore.params, hbefore.sees, hbefore.nests, by omega⟩ hcloses

/-- A word an expression starts with in no place that a keyword starts. -/
theorem starts_of {l : Lexeme} (toks : List Lexeme)
    (h : ∀ value ∈ ["if", "not", "-"] ++ NEVER, l.is value = false) : Starts 9 (.of (l :: toks)) where
  some := List.cons_ne_nil _ _
  never := fun value hvalue => h value (List.mem_append_right _ hvalue)
  if' := fun _ => h "if" (by decide)
  not := fun _ => h "not" (by decide)
  minus := fun _ => h "-" (by decide)

/-- A literal is no word. -/
theorem Lexeme.is_of_kind {l : Lexeme} (h : l.kind = .num ∨ l.kind = .str) (value : String) :
    l.is value = false := by
  unfold Lexeme.is
  rcases h with h | h <;> simp [h]

/-! ### Literals -/

/-- What follows a number that is no duration is no unit. -/
theorem unit_none {p : Parser} {rest : List Lexeme} (h : p.Sees rest) (htie : tieOf rest ≤ 9) :
    ((p.peek 0).kind = .name && UNITS.contains (p.peek 0).text) = false := by
  obtain ⟨l, more, rfl, htie⟩ := exists_head (by omega) htie
  rw [h.first_kind, h.first_text]
  by_contra hunit
  simp only [Bool.not_eq_false, Bool.and_eq_true, decide_eq_true_eq, List.contains_eq_mem]
    at hunit
  have hties : ∀ unit ∈ UNITS, (TIES.lookup unit).getD 0 = 10 := by decide
  have hunits : l.tie = (TIES.lookup l.text).getD 0 := by
    unfold Lexeme.tie
    rw [hunit.1]
  rw [hties l.text hunit.2] at hunits
  omega

theorem primary_num {p : Parser} {text : String} {rest : List Lexeme}
    (h : p.Sees (⟨.num, text⟩ :: rest)) (n : Nat) :
    primary (n + 1) p = (Parse.parser >>= fun p =>
      if ((p.peek 0).kind = .name && UNITS.contains (p.peek 0).text) = true then
        Parse.take >>= fun unit => Pure.pure (Expr.dur (Number.read text) unit.text)
      else Pure.pure (Expr.num (Number.read text))) (p.past 1) := by
  have hkind : (p.peek 0).kind = .num := h.first_kind
  have htext : (p.peek 0).text = text := h.first_text
  unfold primary
  rw [run_current, hkind, htext, if_neg (by simp)]
  rfl

theorem holds_num {n : Number} (h : Number.read n.numeral = n) :
    Holds params 9 (.num n) (.of [⟨.num, n.numeral⟩]) := by
  refine Holds.of_primary (starts_of _ fun value _ => Lexeme.is_of_kind (.inl rfl) value) ?_
  intro p rest m hbefore hcloses
  have hsees := hbefore.sees
  rw [primary_num hsees, run_current, unit_none hsees.next (hcloses.other rfl), h]
  rfl

theorem holds_dur {n : Number} {unit : String} (h : Number.read n.numeral = n)
    (hunit : UNITS.contains unit = true) :
    Holds params 9 (.dur n unit) (.of [⟨.num, n.numeral⟩, .word unit]) := by
  refine Holds.of_primary (starts_of _ fun value _ => Lexeme.is_of_kind (.inl rfl) value) ?_
  intro p rest m hbefore hcloses
  have hsees := hbefore.sees
  have hkind : ((p.past 1).peek 0).kind = .name := hsees.next.first_kind
  have htext : ((p.past 1).peek 0).text = unit := hsees.next.first_text
  rw [primary_num hsees, run_current, if_pos (by rw [hkind, htext, hunit]; rfl), run_take, htext, h,
    past_past]
  rfl

theorem holds_str (s : String) :
    Holds params 9 (.str s) (.of [⟨.str, betweenQuotes s⟩]) := by
  refine Holds.of_primary (starts_of _ fun value _ => Lexeme.is_of_kind (.inr rfl) value) ?_
  intro p rest m hbefore hcloses
  have hsees := hbefore.sees
  have hkind : (p.peek 0).kind = .str := hsees.first_kind
  have htext : (p.peek 0).text = betweenQuotes s := hsees.first_text
  have hinner : ((betweenQuotes s).toList.drop 1).dropLast = s.toList := by
    simp [betweenQuotes]
  unfold primary
  rw [run_current, hkind, htext, if_neg (by simp)]
  dsimp only
  rw [hinner, String.ofList_toList, run_take]
  rfl

theorem holds_bool (b : Bool) :
    Holds params 9 (.bool b) (.of [.word (if b then "true" else "false")]) := by
  have hstarts : ∀ value ∈ ["if", "not", "-"] ++ NEVER,
      (Lexeme.word (if b then "true" else "false")).is value = false := by
    cases b <;> decide
  refine Holds.of_primary (starts_of _ hstarts) ?_
  intro p rest m hbefore hcloses
  have hsees := hbefore.sees
  have hkind : (p.peek 0).kind = .name := hsees.first_kind
  have htext : (p.peek 0).text = if b then "true" else "false" := hsees.first_text
  unfold primary
  rw [run_current, hkind, htext, if_neg (by simp)]
  cases b <;> rfl

theorem holds_money {currency amount : String} (hlength : currency.length = 3)
    (hupper : currency.toList.all Char.isUpper = true) :
    Holds params 9 (.money currency amount) (.of [.word currency, ⟨.num, amount⟩]) := by
  -- no word of the grammar is of upper case
  have hbool : currency ≠ "true" ∧ currency ≠ "false" := by
    constructor <;> rintro rfl <;> exact absurd hupper (by decide)
  have hstarts : ∀ value ∈ ["if", "not", "-"] ++ NEVER, (Lexeme.word currency).is value = false := by
    intro value hvalue
    have hlower : ∀ value ∈ ["if", "not", "-"] ++ NEVER, value.toList.all Char.isUpper = false := by
      decide
    have hne : currency ≠ value := by
      rintro rfl
      rw [hlower _ hvalue] at hupper
      cases hupper
    simp [Lexeme.is, Lexeme.word, hne]
  refine Holds.of_primary (starts_of _ hstarts) ?_
  intro p rest m hbefore hcloses
  have hsees := hbefore.sees
  have hkind : (p.peek 0).kind = .name := hsees.first_kind
  have htext : (p.peek 0).text = currency := hsees.first_text
  have hnum : (p.peek 1).kind = .num := hsees.kind (l := ⟨.num, amount⟩) rfl
  have hamount : ((p.past 1).peek 0).text = amount := hsees.next.first_text
  unfold primary
  rw [run_current, hkind, htext, if_neg (by simp)]
  dsimp only
  rw [if_neg (by simp [hbool]), if_pos (by simp [hlength, hupper, hnum]), run_take, run_take, hamount,
    past_past]
  rfl

theorem holds_param {n : String} (hparams : params = true) :
    Holds params 9 (.param n) (.of [.op ":", .word n]) := by
  refine Holds.of_primary (starts_of _ (by decide)) ?_
  intro p rest m hbefore hcloses
  have hsees := hbefore.sees
  have hkind : (p.peek 0).kind = .op := hsees.first_kind
  have htext : (p.peek 0).text = ":" := hsees.first_text
  have hname : (p.peek 1).kind = .name := hsees.kind (l := .word n) rfl
  have hnext : ((p.past 1).peek 0).text = n := hsees.next.first_text
  unfold primary
  rw [run_current, hkind, htext, hname, hbefore.params, hparams]
  show (Parse.take >>= fun _ => Parse.take >>= fun name => Pure.pure (Expr.param name.text)) p = _
  rw [run_take, run_take, hnext, past_past]
  rfl

/-! ### Names and calls of them -/

/-- A name that is no keyword, and no currency before an amount, is a name or
what is called. -/
theorem primary_name {p : Parser} {f : String} {rest : List Lexeme}
    (h : p.Sees (.word f :: rest)) (hf : KEYWORDS.contains f = false)
    (hnum : (p.peek 1).kind ≠ .num) (n : Nat) :
    primary (n + 1) p = (Parse.parser >>= fun p =>
      if p.at' "(" 0 = true then call n f else Pure.pure (Expr.name f)) (p.past 1) := by
  have hkind : (p.peek 0).kind = .name := h.first_kind
  have htext : (p.peek 0).text = f := h.first_text
  have hbool : f ≠ "true" ∧ f ≠ "false" := by
    constructor <;> rintro rfl <;> exact absurd hf (by decide)
  unfold primary
  rw [run_current, hkind, htext, if_neg (by simp)]
  dsimp only
  rw [if_neg (by simp [hbool]), if_neg (by simp [hnum]), if_neg (by rw [hf]; exact Bool.false_ne_true)]
  rfl

theorem starts_bare {f : String} (hf : KEYWORDS.contains f = false) (hname : isNamed f = true)
    (toks : List Lexeme) : Starts 9 (.of (.word f :: toks)) := by
  refine starts_of _ ?_
  intro value hvalue
  have hcases : ∀ value ∈ ["if", "not", "-"] ++ NEVER,
      KEYWORDS.contains value = true ∨ isNamed value = false := by decide
  have hne : f ≠ value := by
    rintro rfl
    rcases hcases _ hvalue with h | h
    · rw [hf] at h
      cases h
    · rw [hname] at h
      cases h
  simp [Lexeme.is, Lexeme.word, hne]

theorem holds_name {n : String} (hname : isNamed n = true) (hn : KEYWORDS.contains n = false) :
    Holds params 9 (.name n) (.of [.word n]) := by
  refine Holds.of_primary (starts_bare hn hname []) ?_
  intro p rest m hbefore hcloses
  have hsees := hbefore.sees
  have htie := hcloses.other rfl
  obtain ⟨l, more, rfl, hl⟩ := exists_head (by omega) htie
  have hnum : (p.peek 1).kind ≠ .num := by
    rw [hsees.kind (k := 1) rfl]
    intro hnum
    unfold Lexeme.tie at hl
    rw [hnum] at hl
    exact absurd (show 10 ≤ 9 from hl) (by omega)
  rw [primary_name hsees hn hnum, run_current, hsees.next.at' rfl,
    Lexeme.is_of_tie hl (by decide)]
  rfl

/-- Tokens that open no other form open none before a token that is no `in`. -/
theorem opensRows_append {toks : List Lexeme} (more : List Lexeme) {l : Lexeme} (hsome : toks ≠ [])
    (h : opensRows toks = false) (hl : l.is "in" = false) :
    opensRows (toks ++ l :: more) = false := by
  cases toks with
  | nil => exact absurd rfl hsome
  | cons a toks =>
      cases toks with
      | nil =>
          unfold opensRows at *
          simp only [List.cons_append, List.nil_append, List.head?_cons, comprehends, hl,
            Bool.and_false, Bool.or_false] at *
          exact h
      | cons b toks => exact h

/-- What an aggregate's name is called with opens no other form, where its first
argument does not. -/
theorem opensRows_arguments {es : List Expr} {ws : List Rendered} (h : Wholes params es ws)
    (hopens : ∀ w ∈ ws.head?, opensRows w.toks = false) (rest : List Lexeme) :
    opensRows ((Rendered.commas ws ++ .of [.op ")"]).toks ++ rest) = false := by
  cases h with
  | nil =>
      cases rest with
      | nil => rfl
      | cons l rest => rfl
  | @cons e w es ws hw hmore =>
      have hfirst := hopens w rfl
      cases ws with
      | nil =>
          have happend := opensRows_append rest hw.starts.some hfirst
            (show (Lexeme.op ")").is "in" = false from rfl)
          simpa [Rendered.commas] using happend
      | cons w' ws =>
          have happend := opensRows_append
            ((Rendered.commas (w' :: ws) ++ .of [.op ")"]).toks ++ rest) hw.starts.some hfirst
            (show (Lexeme.op ",").is "in" = false from rfl)
          simpa [Rendered.commas] using happend

/-- What a call opens, at its parenthesis. -/
theorem call_opens {p : Parser} {l a b : Lexeme} {toks : List Lexeme}
    (h : p.Sees (l :: a :: b :: toks)) (hopens : opensRows (a :: b :: toks) = false) :
    (( p.at' "distinct" 1 && (p.peek 2).kind = .name && p.at' "in" 3) ||
      ((p.peek 1).kind = .name && p.at' "in" 2)) = false ∧
      ( p.at' "where" 1 || p.at' "distinct" 1) = false := by
  have hat : ∀ value, p.at' value 1 = a.is value := fun value => h.at' rfl value
  have hin : p.at' "in" 2 = b.is "in" := h.at' rfl "in"
  have hkind : (p.peek 1).kind = a.kind := h.kind rfl
  unfold opensRows comprehends at hopens
  simp only [List.head?_cons, Option.any_some, Bool.or_eq_false_iff] at hopens
  obtain ⟨⟨hwhere, hdistinct⟩, hcomprehends⟩ := hopens
  rw [hat, hat, hin, hkind, hwhere, hdistinct, hcomprehends]
  exact ⟨rfl, rfl⟩

/-- **A call of a name** reads as its arguments do, where the name is an
aggregate's and they open no other form of it, or is no form's own. -/
theorem holds_call {f : String} {es : List Expr} {ws : List Rendered} (hname : isNamed f = true)
    (hf : KEYWORDS.contains f = false) (hmetric : f ≠ "metric") (hchanged : f ≠ "changed_since")
    (h : Wholes params es ws)
    (hopens : (AggKind.named f).isSome → ∀ w ∈ ws.head?, opensRows w.toks = false) :
    Holds params 9 (.call (.name f) es) (.of [.word f] ++ argumentsWritten ws) := by
  refine Holds.of_primary ((starts_bare hf hname []).append _) ?_
  intro p rest n hbefore hcloses
  have hturns := hbefore.turns
  simp [argumentsWritten] at hturns
  obtain ⟨n, rfl⟩ : ∃ m, n = m + 1 := Nat.exists_eq_succ_of_ne_zero (by omega)
  have hlast : Before params 30 n (p.past 1) (argumentsWritten ws) rest :=
    hbefore.second (by simp [argumentsWritten]; omega)
  have hsees := hbefore.sees
  have hparen : (p.past 1).Sees (.op "(" :: ((Rendered.commas ws ++ .of [.op ")"]).toks ++ rest)) :=
    hlast.sees
  have hopen : Parser.at' (p.past 1) "(" 0 = true := hparen.at' (l := .op "(") rfl "("
  have hnum : (p.peek 1).kind ≠ .num := by
    rw [hsees.kind (k := 1) (l := .op "(") rfl]
    simp [Lexeme.op]
  have hread : (arguments n >>= fun args => Pure.pure (Expr.call (.name f) args)) (p.past 1) =
      (.ok (.call (.name f) es), p.past (.of [.word f] ++ argumentsWritten ws).toks.length) := by
    rw [run_bind (arguments_read h hlast), past_past]
    exact past_congr p _ (by simp; omega)
  rw [primary_name hsees hf hnum, run_current, if_pos hopen]
  unfold call
  rw [run_current]
  cases hkind : AggKind.named f with
  | none =>
      dsimp only
      rw [if_neg hmetric, if_neg hchanged]
      exact hread
  | some kind =>
      obtain ⟨after, more, hrest, _⟩ := exists_head (by omega) (hcloses.other rfl)
      have hlength : rest.length = more.length + 1 := by rw [hrest, List.length_cons]
      have hrows := opensRows_arguments h (hopens (by rw [hkind]; rfl)) rest
      cases htoks : (Rendered.commas ws ++ .of [.op ")"]).toks ++ rest with
      | nil => simp at htoks
      | cons a toks =>
          cases toks with
          | nil =>
              have hcount := congrArg List.length htoks
              simp at hcount
              omega
          | cons b toks =>
              rw [htoks] at hparen hrows
              obtain ⟨hcomprehension, hwhere⟩ := call_opens hparen hrows
              dsimp only
              rw [hcomprehension, hwhere]
              exact hread

/-! ### Sets -/

theorem holds_set {es : List Expr} {ws : List Rendered} (h : Wholes params es ws) :
    Holds params 9 (.set es) (.of [.op "\x7b"] ++ (.commas ws ++ .of [.op "\x7d"])) := by
  refine Holds.of_primary ((starts_of [] (by decide)).append _) ?_
  intro p rest n hbefore hcloses
  have hsees := hbefore.sees
  have hkind : (p.peek 0).kind = .op := hsees.first_kind
  have htext : (p.peek 0).text = "\x7b" := hsees.first_text
  have hitems : Before params 30 n (p.past 1) (.commas ws ++ .of [.op "\x7d"]) rest := by
    have hturns := hbefore.turns
    simp at hturns
    exact hbefore.second (by simp; omega)
  have hread := itemsUntil_reads (.inr rfl) h (p.past 1) rest n [] hitems
  unfold primary
  rw [run_current, hkind, htext, if_neg (by simp)]
  show (Parse.take >>= fun _ => itemsUntil n "\x7d" [] >>= fun items => expect "\x7d" >>= fun _ =>
    Pure.pure (Expr.set items)) p = _
  rw [run_take, run_bind hread, run_expect hitems.first.sees.past rfl, List.nil_append, past_past,
    past_past]
  exact past_congr p _ (by simp; omega)

/-! ### `changed_since` -/

/-- The names in the brackets read, whatever tokens they are. -/
theorem names_read {ns : List String} (h : ∀ n ∈ ns, n ≠ "]") (p : Parser) (rest : List Lexeme)
    (n : Nat) (found : List String) (hsees : p.Sees (namesWritten ns ++ .op "]" :: rest))
    (hn : ns.length < n) :
    names n found p = (.ok (found ++ ns), p.past (namesWritten ns).length) := by
  induction ns generalizing p n found with
  | nil =>
      obtain ⟨n, rfl⟩ : ∃ m, n = m + 1 := Nat.exists_eq_succ_of_ne_zero (by omega)
      unfold names
      rw [run_current, hsees.at' rfl, List.append_nil]
      rfl
  | cons m ns ih =>
      rw [List.length_cons] at hn
      obtain ⟨n, rfl⟩ : ∃ m, n = m + 1 := Nat.exists_eq_succ_of_ne_zero (by omega)
      have hne : (lexemeOf m).is "]" = false := by
        have hm := h m List.mem_cons_self
        simp [Lexeme.is, lexemeOf, hm]
      have hmore : ∀ n ∈ ns, n ≠ "]" := fun n hn => h n (List.mem_cons_of_mem _ hn)
      unfold names
      cases ns with
      | nil =>
          have hsees : p.Sees (lexemeOf m :: .op "]" :: rest) := hsees
          have htext : (p.peek 0).text = m := hsees.first_text
          rw [run_current, hsees.at' rfl, hne]
          show (Parse.take >>= fun name => separator "]" >>= fun _ => names n (found ++ [name.text])) p
            = _
          rw [run_take, run_separated hsees.next, htext, ih hmore _ n _ hsees.next (by simpa using hn),
            List.append_nil, past_past]
          rfl
      | cons m' ns =>
          have hsees : p.Sees (lexemeOf m :: .op "," :: (namesWritten (m' :: ns) ++ .op "]" :: rest)) :=
            hsees
          have htext : (p.peek 0).text = m := hsees.first_text
          rw [run_current, hsees.at' rfl, hne]
          show (Parse.take >>= fun name => separator "]" >>= fun _ => names n (found ++ [name.text])) p
            = _
          rw [run_take, run_comma (.inr (.inl rfl)) hsees.next, htext,
            ih hmore _ n _ hsees.next.next (by simpa using hn), List.append_assoc, past_past, past_past]
          exact past_congr p _ (by simp [namesWritten]; omega)

/-- What is written of the names, before the value they are of. -/
theorem length_namesWritten (ns : List String) : ns.length ≤ (namesWritten ns).length := by
  induction ns with
  | nil => exact Nat.le_refl _
  | cons n ns ih =>
      cases ns with
      | nil => exact Nat.le_refl _
      | cons n' ns =>
          simp only [namesWritten, List.length_cons] at *
          omega

/-- **`changed_since`** reads where the value it is of does. -/
theorem holds_changed {ns : List String} {e : Expr} {w : Rendered} (hns : ∀ n ∈ ns, n ≠ "]")
    (h : Whole params e w) :
    Holds params 9 (.changed ns e)
      (.of [.word "changed_since"] ++ (.of [.op "("] ++ (.of [.op "["] ++ (.of (namesWritten ns) ++
        (.of [.op "]"] ++ (.of [.op ","] ++ (w ++ .of [.op ")"]))))))) := by
  have hf : KEYWORDS.contains "changed_since" = false ∧ isNamed "changed_since" = true := by decide
  refine Holds.of_primary ((starts_bare hf.1 hf.2 []).append _) ?_
  intro p rest n hbefore hcloses
  have hturns := hbefore.turns
  simp at hturns
  have hlength := length_namesWritten ns
  obtain ⟨n, rfl⟩ : ∃ m, n = m + 1 := Nat.exists_eq_succ_of_ne_zero (by omega)
  have hparen := hbefore.next
  have hbracket := hparen.next
  have hnames := hbracket.next
  have hclose := hnames.after
  rw [Rendered.toks_of] at hclose
  have hcomma := hclose.next
  have hvalue := hcomma.next
  have hnum : (p.peek 1).kind ≠ .num := by
    rw [hbefore.sees.kind (k := 1) (l := .op "(") rfl]
    simp [Lexeme.op]
  have hopen : Parser.at' (p.past 1) "(" 0 = true := hparen.sees.at' (l := .op "(") rfl "("
  have hread := names_read hns _ _ n [] hnames.first.sees (by omega)
  rw [primary_name hbefore.sees hf.1 hnum, run_current, if_pos hopen]
  unfold call
  rw [run_current]
  show (expect "(" >>= fun _ => expect "[" >>= fun _ => names n [] >>= fun names =>
    expect "]" >>= fun _ => expect "," >>= fun _ => expr n >>= fun event => expect ")" >>= fun _ =>
    Pure.pure (Expr.changed names event)) (p.past 1) = _
  rw [run_word hparen rfl, run_word hbracket rfl, run_bind hread, run_word hclose rfl,
    run_word hcomma rfl, run_whole h hvalue.first (by omega) rfl, run_expect hvalue.first.sees.past rfl,
    List.nil_append]
  simp only [past_past]
  exact past_congr p _ (by simp; omega)

/-! ### Aggregates -/

/-- What is written of a part that may be left out, after its word. -/
def PartWritten (params : Bool) (word : Lexeme) (part : Option Expr) (w : Rendered) : Prop :=
  (part = none ∧ w = .of []) ∨ ∃ e u, part = some e ∧ w = .of [word] ++ u ∧ Whole params e u

theorem run_following {word : Lexeme} {value : String} {part : Option Expr} {w b : Rendered}
    {k n m : Nat} {p : Parser} {rest : List Lexeme} {β : Type} (h : PartWritten params word part w)
    (hword : word.is value = true) (hbefore : Before params k n p (w ++ b) rest)
    (hm : 32 * w.toks.length ≤ m) (htie : tieOf (b.toks ++ rest) = 0)
    (hnot : (b.toks ++ rest).head?.any (·.is value) = false) (f : Option Expr → Parse β) :
    (following value (expr m) >>= f) p = f part (p.past w.toks.length) := by
  rcases h with ⟨rfl, rfl⟩ | ⟨e, u, rfl, rfl, hu⟩
  · obtain ⟨l, more, hrest, _⟩ := exists_head (k := 0) (by omega) (Nat.le_of_eq htie)
    have hsees : p.Sees (l :: more) := by
      rw [← hrest]
      exact hbefore.sees
    rw [hrest] at hnot
    have hfollowing : following value (expr m) p = (.ok none, p) := by
      show (taken value >>= fun t => if t then (expr m >>= fun e => Pure.pure (some e))
        else Pure.pure none) p = _
      rw [run_notTaken hsees hnot]
      rfl
    exact run_bind hfollowing f
  · have hvalue : Before params k n (p.past 1) u (b.toks ++ rest) := hbefore.first.next
    have hfollowing : following value (expr m) p =
        (.ok (some e), p.past (Rendered.of [word] ++ u).toks.length) := by
      simp at hm
      show (taken value >>= fun t => if t then (expr m >>= fun e => Pure.pure (some e))
        else Pure.pure none) p = _
      rw [run_taken hbefore.sees hword]
      show (expr m >>= fun e => Pure.pure (some e)) (p.past 1) = _
      rw [run_whole hu hvalue (by omega) htie, past_past]
      exact past_congr p _ (by simp; omega)
    exact run_bind hfollowing f

theorem tie_part {word : Lexeme} {part : Option Expr} {w : Rendered} {toks : List Lexeme}
    (h : PartWritten params word part w) (hword : word.tie = 0) (htie : tieOf toks = 0) :
    tieOf (w.toks ++ toks) = 0 := by
  rcases h with ⟨rfl, rfl⟩ | ⟨e, u, rfl, rfl, hu⟩
  · exact htie
  · exact hword

/-- What is written of a part starts with its word or with what follows. -/
theorem head_part {word : Lexeme} {value : String} {part : Option Expr} {w : Rendered}
    {toks : List Lexeme} (h : PartWritten params word part w) (hword : word.is value = false)
    (htoks : toks.head?.any (·.is value) = false) :
    (w.toks ++ toks).head?.any (·.is value) = false := by
  rcases h with ⟨rfl, rfl⟩ | ⟨e, u, rfl, rfl, hu⟩
  · exact htoks
  · exact hword

theorem named_text (kind : AggKind) :
    AggKind.named kind.text = some kind ∧ KEYWORDS.contains kind.text = false ∧
      isNamed kind.text = true := by
  cases kind <;> decide

/-- The word of an aggregate over what is distinct, where it is written. -/
def distinctWritten (distinct : Bool) : Rendered := .of (if distinct then [.word "distinct"] else [])

theorem run_distinct {distinct : Bool} {k n : Nat} {p : Parser} {b : Rendered}
    {rest : List Lexeme} {β : Type} (hbefore : Before params k n p (distinctWritten distinct ++ b) rest)
    (hnot : distinct = true ∨ ∃ l toks, b.toks ++ rest = l :: toks ∧ l.is "distinct" = false)
    (f : Bool → Parse β) :
    (taken "distinct" >>= f) p = f distinct (p.past (distinctWritten distinct).toks.length) := by
  cases distinct with
  | true => exact run_taken (l := .word "distinct") hbefore.sees rfl f
  | false =>
      obtain hfalse | ⟨l, toks, htoks, hl⟩ := hnot
      · cases hfalse
      · have hsees : p.Sees (b.toks ++ rest) := hbefore.sees
        rw [htoks] at hsees
        exact run_notTaken hsees hl f

/-- **An aggregate over items** reads where its parts do. -/
theorem holds_items {kind : AggKind} {distinct : Bool} {var : String} {collection : Expr}
    {filter body : Option Expr} {u v w : Rendered} (hvar : (distinct || var ≠ "distinct") = true)
    (hcollection : Holds params 5 collection u)
    (hfilter : PartWritten params (.word "where") filter v)
    (hbody : PartWritten params (.op ":") body w)
    (hbodied : (body.isSome || !(kind.bodied || distinct)) = true) :
    Holds params 9 (.agg kind distinct (some var) (some collection) filter body)
      (.of [.word kind.text] ++ (.of [.op "("] ++ (distinctWritten distinct ++ (.of [.word var] ++
        (.of [.word "in"] ++ (u ++ (v ++ (w ++ .of [.op ")"])))))))) := by
  obtain ⟨hnamed, hf, hname⟩ := named_text kind
  refine Holds.of_primary ((starts_bare hf hname []).append _) ?_
  intro p rest n hbefore hcloses
  have hturns := hbefore.turns
  simp at hturns
  obtain ⟨n, rfl⟩ : ∃ m, n = m + 2 := ⟨n - 2, by omega⟩
  have hparen := hbefore.next
  have hdistinct := hparen.next
  have hword := hdistinct.after
  have hin := hword.next
  have hitems := hin.next
  have hfilters := hitems.after
  have hbodies := hfilters.after
  have hend := hbodies.first.sees
  have hnum : (p.peek 1).kind ≠ .num := by
    rw [hbefore.sees.kind (k := 1) (l := .op "(") rfl]
    simp [Lexeme.op]
  have hopen : Parser.at' (p.past 1) "(" 0 = true := hparen.sees.at' (l := .op "(") rfl "("
  have hcomprehension : ((Parser.at' (p.past 1) "distinct" 1 && ((p.past 1).peek 2).kind = .name &&
      Parser.at' (p.past 1) "in" 3) || (((p.past 1).peek 1).kind = .name && Parser.at' (p.past 1) "in" 2)) =
      true := by
    have hsees := hparen.sees
    cases distinct with
    | true =>
        rw [hsees.at' (k := 1) (l := .word "distinct") rfl, hsees.kind (k := 2) (l := .word var) rfl,
          hsees.at' (k := 3) (l := .word "in") rfl]
        rfl
    | false =>
        rw [hsees.kind (k := 1) (l := .word var) rfl, hsees.at' (k := 2) (l := .word "in") rfl]
        simp [Lexeme.word, Lexeme.is]
  have hnot : distinct = true ∨ ∃ l toks, (Rendered.of [Lexeme.word var] ++ (.of [.word "in"] ++
      (u ++ (v ++ (w ++ .of [.op ")"]))))).toks ++ rest = l :: toks ∧ l.is "distinct" = false := by
    cases distinct with
    | true => exact .inl rfl
    | false =>
        have hne : var ≠ "distinct" := by simpa using hvar
        exact .inr ⟨.word var, _, rfl, by simp [Lexeme.is, Lexeme.word, hne]⟩
  have hclose : tieOf ((Rendered.of [Lexeme.op ")"]).toks ++ rest) = 0 := rfl
  have hafterFilter : tieOf ((w ++ .of [.op ")"]).toks ++ rest) = 0 := by
    rw [Rendered.toks_append, List.append_assoc]
    exact tie_part hbody rfl hclose
  have hafterItems : tieOf ((v ++ (w ++ .of [.op ")"])).toks ++ rest) = 0 := by
    rw [Rendered.toks_append, List.append_assoc]
    exact tie_part hfilter rfl hafterFilter
  have hwhere : ((w ++ .of [.op ")"]).toks ++ rest).head?.any (·.is "where") = false := by
    rw [Rendered.toks_append, List.append_assoc]
    exact head_part hbody rfl rfl
  have htext : ∀ q : Parser, q.Sees ((Rendered.of [Lexeme.word var] ++ (.of [.word "in"] ++
      (u ++ (v ++ (w ++ .of [.op ")"]))))).toks ++ rest) → (q.peek 0).text = var :=
    fun q hq => hq.first_text
  have hbodyNone : (body.isNone && (kind.bodied || distinct)) = false := by
    cases body with
    | none => simpa using hbodied
    | some e => rfl
  rw [primary_name hbefore.sees hf hnum, run_current, if_pos hopen]
  unfold call
  rw [run_current, hnamed]
  dsimp only
  rw [hcomprehension]
  show overItems (n + 1) kind.text kind (p.past 1) = _
  unfold overItems
  show (expect "(" >>= fun _ => taken "distinct" >>= fun distinct => Parse.take >>= fun var =>
    expect "in" >>= fun _ => additive n >>= fun collection => following "where" (expr n) >>= fun filter =>
    following ":" (expr n) >>= fun body =>
    if (body.isNone && (kind.bodied || distinct)) = true then
        fail ("a body after ':', which " ++ (if distinct then "a distinct count" else kind.text) ++
          " requires")
    else expect ")" >>= fun _ =>
        Pure.pure (Expr.agg kind distinct (some var.text) (some collection) filter body)) (p.past 1) = _
  rw [run_word hparen rfl, run_distinct hdistinct hnot, run_take, htext _ hword.sees, run_word hin rfl,
    run_additive hcollection hitems.first (by omega) hafterItems,
    run_following hfilter rfl hfilters (by omega) hafterFilter hwhere,
    run_following hbody rfl hbodies (by omega) hclose rfl, hbodyNone]
  show (expect ")" >>= fun _ =>
    Pure.pure (Expr.agg kind distinct (some var) (some collection) filter body)) _ = _
  rw [run_expect hend.past rfl]
  simp only [past_past]
  exact past_congr p _ (by simp; omega)

/-- What is written of an aggregate's body over its own rows, which opens no other
form of it. -/
def BodyWritten (params : Bool) (body : Option Expr) (w : Rendered) : Prop :=
  (body = none ∧ w = .of []) ∨ ∃ e, body = some e ∧ Whole params e w ∧ opensItems w.toks = false

theorem run_unless {body : Option Expr} {u : Rendered} {k n m : Nat} {p : Parser}
    {rest : List Lexeme} {β : Type} (h : BodyWritten params body u)
    (hbefore : Before params k n p u rest) (hnext : p.at' "where" 0 = body.isNone)
    (hm : 32 * u.toks.length < m) (htie : tieOf rest = 0) (f : Option Expr → Parse β) :
    (unlessNext "where" (expr m) >>= f) p = f body (p.past u.toks.length) := by
  have hunless : unlessNext "where" (expr m) p = (.ok body, p.past u.toks.length) := by
    unfold unlessNext
    rw [run_current, hnext]
    rcases h with ⟨rfl, rfl⟩ | ⟨e, rfl, hu, _⟩
    · rfl
    · show (expr m >>= fun e => Pure.pure (some e)) p = _
      rw [run_whole hu hbefore hm htie]
      rfl
  exact run_bind hunless f

/-- How what an aggregate over its own rows holds starts: as no item and as its
filter where it has no body. -/
theorem rows_head {filter body : Option Expr} {u v : Rendered} (hbody : BodyWritten params body u)
    (hfilter : PartWritten params (.word "where") filter v)
    (hsome : (body.isSome || filter.isSome) = true) (rest : List Lexeme) :
    ∃ a b toks, (u ++ (v ++ .of [.op ")"])).toks ++ rest = a :: b :: toks ∧ a.is "in" = false ∧
      (a.kind = .name && b.is "in") = false ∧ a.is "where" = body.isNone := by
  rcases hbody with ⟨rfl, rfl⟩ | ⟨e, rfl, hu, hopens⟩
  · rcases hfilter with ⟨rfl, rfl⟩ | ⟨f, w, rfl, rfl, hw⟩
    · cases hsome
    · obtain ⟨b, toks, htoks⟩ := List.exists_cons_of_ne_nil hw.starts.some
      have hnever := hw.starts.never "in" (by decide)
      rw [htoks] at hnever
      have hb : b.is "in" = false := hnever
      exact ⟨.word "where", b, toks ++ .op ")" :: rest, by simp [htoks], rfl, by simp [hb], rfl⟩
  · obtain ⟨a, toks, htoks⟩ := List.exists_cons_of_ne_nil hu.starts.some
    have hnever := hu.starts.never "in" (by decide)
    unfold opensItems at hopens
    rw [htoks] at hnever hopens
    simp only [List.head?_cons, Option.any_some, Bool.or_eq_false_iff] at hnever hopens
    have hafter : (v.toks ++ .op ")" :: rest).head?.any (·.is "in") = false :=
      head_part hfilter rfl rfl
    have hnonempty : v.toks ++ .op ")" :: rest ≠ [] := by simp
    cases toks with
    | nil =>
        obtain ⟨b, more, hmore⟩ := List.exists_cons_of_ne_nil hnonempty
        rw [hmore] at hafter
        have hb : b.is "in" = false := hafter
        exact ⟨a, b, more, by simp [htoks, hmore], hnever, by simp [hb], hopens.1⟩
    | cons b toks =>
        exact ⟨a, b, toks ++ (v.toks ++ .op ")" :: rest), by simp [htoks], hnever, hopens.2,
          hopens.1⟩

/-- **A metric's aggregate over its own rows** reads where its parts do. -/
theorem holds_rows {kind : AggKind} {distinct : Bool} {filter body : Option Expr}
    {u v : Rendered} (hbody : BodyWritten params body u)
    (hfilter : PartWritten params (.word "where") filter v)
    (hdistinct : (distinct || body.isNone) = true)
    (hsome : (body.isSome || filter.isSome) = true) :
    Holds params 9 (.agg kind distinct none none filter body)
      (.of [.word kind.text] ++ (.of [.op "("] ++ (distinctWritten distinct ++
        (u ++ (v ++ .of [.op ")"]))))) := by
  obtain ⟨hnamed, hf, hname⟩ := named_text kind
  refine Holds.of_primary ((starts_bare hf hname []).append _) ?_
  intro p rest n hbefore hcloses
  have hturns := hbefore.turns
  simp at hturns
  obtain ⟨n, rfl⟩ : ∃ m, n = m + 2 := ⟨n - 2, by omega⟩
  obtain ⟨a, b, toks, htoks, hin, hitem, hwhere⟩ := rows_head hbody hfilter hsome rest
  have hparen := hbefore.next
  have hword := hparen.next
  have hrows := hword.after
  have hfilters := hrows.after
  have hend := hfilters.first.sees
  have hnum : (p.peek 1).kind ≠ .num := by
    rw [hbefore.sees.kind (k := 1) (l := .op "(") rfl]
    simp [Lexeme.op]
  have hopen : Parser.at' (p.past 1) "(" 0 = true := hparen.sees.at' (l := .op "(") rfl "("
  have hform : ((Parser.at' (p.past 1) "distinct" 1 && ((p.past 1).peek 2).kind = .name &&
      Parser.at' (p.past 1) "in" 3) || (((p.past 1).peek 1).kind = .name && Parser.at' (p.past 1) "in" 2)) =
      false ∧ (Parser.at' (p.past 1) "where" 1 || Parser.at' (p.past 1) "distinct" 1) = true := by
    have hsees := hparen.sees
    rw [Rendered.toks_append, Rendered.toks_append, List.append_assoc, List.append_assoc, htoks] at hsees
    cases distinct with
    | true =>
        have hsees : (p.past 1).Sees (.op "(" :: .word "distinct" :: a :: b :: toks) := hsees
        rw [hsees.at' (k := 1) rfl, hsees.kind (k := 2) rfl, hsees.at' (k := 3) rfl,
          hsees.kind (k := 1) rfl, hsees.at' (k := 2) rfl, hsees.at' (k := 1) rfl, hin]
        simpa [Lexeme.is, Lexeme.word] using hitem
    | false =>
        have hsees : (p.past 1).Sees (.op "(" :: a :: b :: toks) := hsees
        have hbodyNone : a.is "where" = true := by
          rw [hwhere]
          simpa using hdistinct
        have hother : a.is "distinct" = false := Lexeme.is_other hbodyNone (by decide)
        rw [hsees.at' (k := 1) rfl, hsees.kind (k := 1) rfl, hsees.at' (k := 2) rfl,
          hsees.at' (k := 1) rfl, hother, hitem, hbodyNone]
        exact ⟨rfl, rfl⟩
  have hnot : distinct = true ∨
      ∃ l toks, (u ++ (v ++ .of [.op ")"])).toks ++ rest = l :: toks ∧ l.is "distinct" = false := by
    cases distinct with
    | true => exact .inl rfl
    | false =>
        have hbodyNone : a.is "where" = true := by
          rw [hwhere]
          simpa using hdistinct
        exact .inr ⟨a, _, htoks, Lexeme.is_other hbodyNone (by decide)⟩
  have hfirst : ∀ q : Parser, q.Sees ((u ++ (v ++ .of [.op ")"])).toks ++ rest) →
      q.at' "where" 0 = body.isNone := by
    intro q hq
    rw [htoks] at hq
    rw [hq.at' rfl, hwhere]
  have hafter : tieOf ((v ++ .of [.op ")"]).toks ++ rest) = 0 := by
    rw [Rendered.toks_append, List.append_assoc]
    exact tie_part hfilter rfl rfl
  rw [primary_name hbefore.sees hf hnum, run_current, if_pos hopen]
  unfold call
  rw [run_current, hnamed]
  dsimp only
  rw [hform.1, hform.2]
  show ownRows (n + 1) kind (p.past 1) = _
  unfold ownRows
  rw [run_word hparen rfl, run_distinct hword hnot,
    run_unless hbody hrows.first (hfirst _ hrows.sees) (by omega) hafter,
    run_following hfilter rfl hfilters (by omega) rfl rfl, run_expect hend.past rfl]
  simp only [past_past]
  exact past_congr p _ (by simp; omega)

/-! ### Metrics -/

/-- What is written of what a metric's call binds. -/
inductive BindsWritten (params : Bool) : List (String × Expr) → Rendered → Prop
  | nil : BindsWritten params [] (.of [])
  | cons {d : String} {e : Expr} {rest : List (String × Expr)} {w u : Rendered}
      (window : d ≠ "over") (fresh : d ≠ "fresh") (value : Whole params e w)
      (more : BindsWritten params rest u) :
      BindsWritten params ((d, e) :: rest)
        (.of [.op ","] ++ (.of [lexemeOf d] ++ (.of [.op ":="] ++ (w ++ u))))

/-- What is written of a metric's window, or of how fresh it is, after its words. -/
def SpanWritten (params : Bool) (words : Rendered) (part : Option Expr) (w : Rendered) : Prop :=
  (part = none ∧ w = .of []) ∨
    ∃ e u, part = some e ∧ w = .of [.op ","] ++ (words ++ u) ∧ Holds params 9 e u

theorem tie_binds {bs : List (String × Expr)} {w : Rendered} {toks : List Lexeme}
    (h : BindsWritten params bs w) (htie : tieOf toks = 0) : tieOf (w.toks ++ toks) = 0 := by
  cases h with
  | nil => exact htie
  | cons window fresh value more => rfl

theorem tie_span {words : Rendered} {part : Option Expr} {w : Rendered} {toks : List Lexeme}
    (h : SpanWritten params words part w) (htie : tieOf toks = 0) : tieOf (w.toks ++ toks) = 0 := by
  rcases h with ⟨rfl, rfl⟩ | ⟨e, u, rfl, rfl, hu⟩
  · exact htie
  · rfl

/-- What a comma of a metric's call goes on with. -/
theorem metricFrom_comma {p : Parser} {rest : List Lexeme} (h : p.Sees (.op "," :: rest)) (n : Nat)
    (given : Given) : metricFrom (n + 1) given p =
      (if Parser.at' (p.past 1) "over" 0 = true then
        Parse.take >>= fun _ => expect "last" >>= fun _ => primary n >>= fun window =>
          metricFrom n { given with window := some window }
      else if Parser.at' (p.past 1) "fresh" 0 = true then
        Parse.take >>= fun _ => primary n >>= fun fresh =>
          metricFrom n { given with fresh := some fresh }
      else
        Parse.take >>= fun dimension => expect ":=" >>= fun _ => expr n >>= fun e =>
          metricFrom n { given with binds := given.binds ++ [(dimension.text, e)] }) (p.past 1) := by
  conv => lhs; unfold metricFrom
  rw [run_current, h.at' rfl]
  rfl

/-- **What a metric's call binds** reads one after the other. -/
theorem binds_read {bs : List (String × Expr)} {w : Rendered} (h : BindsWritten params bs w)
    {j k c : Nat} {p : Parser} {b : Rendered} {rest : List Lexeme} (n : Nat) (given : Given)
    (hbefore : Before params k j p (w ++ b) rest) (hn : 32 * (w.toks.length + c) ≤ n)
    (htie : tieOf (b.toks ++ rest) = 0) :
    ∃ m, 32 * c ≤ m ∧ metricFrom n given p =
      metricFrom m { given with binds := given.binds ++ bs } (p.past w.toks.length) := by
  induction h generalizing p n given with
  | nil => exact ⟨n, by simpa using hn, by rw [List.append_nil]; rfl⟩
  | @cons d e bs w u window fresh value more ih =>
      simp at hn
      obtain ⟨n, rfl⟩ : ∃ m, n = m + 1 := Nat.exists_eq_succ_of_ne_zero (by omega)
      have hcomma : Before params k j p (.of [.op ","] ++ (.of [lexemeOf d] ++ (.of [.op ":="] ++
          (w ++ (u ++ b))))) rest := by
        simpa only [Rendered.append_assoc] using hbefore
      have hname := hcomma.next
      have hsets := hname.next
      have hvalue := hsets.next
      have hmore := hvalue.after
      have hover : Parser.at' (p.past 1) "over" 0 = false := by
        rw [hname.sees.at' (k := 0) (l := lexemeOf d) rfl]
        simp [Lexeme.is, lexemeOf, window]
      have hfresh : Parser.at' (p.past 1) "fresh" 0 = false := by
        rw [hname.sees.at' (k := 0) (l := lexemeOf d) rfl]
        simp [Lexeme.is, lexemeOf, fresh]
      have htext : ((p.past 1).peek 0).text = d := hname.sees.text (k := 0) (l := lexemeOf d) rfl
      have hafter : tieOf ((u ++ b).toks ++ rest) = 0 := by
        rw [Rendered.toks_append, List.append_assoc]
        exact tie_binds more htie
      obtain ⟨m, hm, hrun⟩ := ih n { given with binds := given.binds ++ [(d, e)] } hmore (by omega)
      refine ⟨m, hm, ?_⟩
      have hcommas : p.Sees (.op "," :: _) := hcomma.sees
      rw [metricFrom_comma hcommas, if_neg (by simp [hover]), if_neg (by simp [hfresh]), run_take, htext,
        run_word hsets rfl, run_whole value hvalue.first (by omega) hafter, hrun]
      simp only [past_past, List.append_assoc, List.singleton_append]
      congr 2
      simp
      omega

/-- A window, or how fresh, reads after its words. -/
theorem span_read {words : Rendered} {part : Option Expr} {w : Rendered}
    (h : SpanWritten params words part w) (of : Option Expr → Given)
    (hwords : ∀ p rest n, p.Sees (.op "," :: (words.toks ++ rest)) → metricFrom (n + 1) (of none) p =
      (primary n >>= fun e => metricFrom n (of (some e))) ((p.past 1).past words.toks.length))
    {j k c : Nat} {p : Parser} {b : Rendered} {rest : List Lexeme} (n : Nat)
    (hbefore : Before params k j p (w ++ b) rest) (hn : 32 * (w.toks.length + c) ≤ n)
    (htie : tieOf (b.toks ++ rest) = 0) :
    ∃ m, 32 * c ≤ m ∧ metricFrom n (of none) p = metricFrom m (of part) (p.past w.toks.length) := by
  rcases h with ⟨rfl, rfl⟩ | ⟨e, u, rfl, rfl, hu⟩
  · exact ⟨n, by simpa using hn, rfl⟩
  · simp at hn
    obtain ⟨n, rfl⟩ : ∃ m, n = m + 1 := Nat.exists_eq_succ_of_ne_zero (by omega)
    have hcomma : Before params k j p (.of [.op ","] ++ (words ++ (u ++ b))) rest := by
      simpa only [Rendered.append_assoc] using hbefore
    have hvalue := hcomma.next.after
    have hsees : p.Sees (.op "," :: (words.toks ++ ((u ++ b).toks ++ rest))) := by
      have h := hcomma.sees
      rw [Rendered.toks_append, Rendered.toks_append, List.append_assoc, List.append_assoc] at h
      exact h
    refine ⟨n, by omega, ?_⟩
    rw [hwords p _ n hsees, run_primary hu hvalue.first (by omega) htie, past_past, past_past]
    congr 2
    simp
    omega

theorem window_words (binds : List (String × Expr)) (fresh : Option Expr) (p : Parser)
    (rest : List Lexeme) (n : Nat)
    (h : p.Sees (.op "," :: ((Rendered.of [Lexeme.word "over"] ++ .of [.word "last"]).toks ++ rest))) :
    metricFrom (n + 1) ⟨binds, none, fresh⟩ p =
      (primary n >>= fun e => metricFrom n ⟨binds, some e, fresh⟩) ((p.past 1).past 2) := by
  have hover : Parser.at' (p.past 1) "over" 0 = true := h.next.at' (k := 0) (l := .word "over") rfl "over"
  rw [metricFrom_comma h, if_pos hover, run_take]
  have hlast : ((p.past 1).past 1).Sees (.word "last" :: rest) := h.next.next
  rw [run_expect hlast rfl, past_past]

theorem fresh_words (binds : List (String × Expr)) (window : Option Expr) (p : Parser)
    (rest : List Lexeme) (n : Nat)
    (h : p.Sees (.op "," :: ((Rendered.of [Lexeme.word "fresh"]).toks ++ rest))) :
    metricFrom (n + 1) ⟨binds, window, none⟩ p =
      (primary n >>= fun e => metricFrom n ⟨binds, window, some e⟩) ((p.past 1).past 1) := by
  have hover : Parser.at' (p.past 1) "over" 0 = false := h.next.at' (k := 0) (l := .word "fresh") rfl "over"
  have hfresh : Parser.at' (p.past 1) "fresh" 0 = true := h.next.at' (k := 0) (l := .word "fresh") rfl "fresh"
  rw [metricFrom_comma h, if_neg (by simp [hover]), if_pos hfresh, run_take]

/-- **A metric** reads where its parts do. -/
theorem holds_metric {name : Expr} {binds : List (String × Expr)} {window fresh : Option Expr}
    {t u v w : Rendered} (hname : Holds params 5 name t) (hbinds : BindsWritten params binds u)
    (hwindow : SpanWritten params (.of [.word "over"] ++ .of [.word "last"]) window v)
    (hfresh : SpanWritten params (.of [.word "fresh"]) fresh w) :
    Holds params 9 (.metric name binds window fresh)
      (.of [.word "metric"] ++ (.of [.op "("] ++ (t ++ (u ++ (v ++ (w ++ .of [.op ")"])))))) := by
  have hf : KEYWORDS.contains "metric" = false ∧ isNamed "metric" = true := by decide
  refine Holds.of_primary ((starts_bare hf.1 hf.2 []).append _) ?_
  intro p rest n hbefore hcloses
  have hturns := hbefore.turns
  simp at hturns
  obtain ⟨n, rfl⟩ : ∃ m, n = m + 2 := ⟨n - 2, by omega⟩
  have hparen := hbefore.next
  have hnames := hparen.next
  have hgiven := hnames.after
  have hwindows := hgiven.after
  have hfreshes := hwindows.after
  have hend := hfreshes.first.sees
  have hnum : (p.peek 1).kind ≠ .num := by
    rw [hbefore.sees.kind (k := 1) (l := .op "(") rfl]
    simp [Lexeme.op]
  have hopen : Parser.at' (p.past 1) "(" 0 = true := hparen.sees.at' (l := .op "(") rfl "("
  have hclose : tieOf ((Rendered.of [Lexeme.op ")"]).toks ++ rest) = 0 := rfl
  have hafterWindow : tieOf ((w ++ .of [.op ")"]).toks ++ rest) = 0 := by
    rw [Rendered.toks_append, List.append_assoc]
    exact tie_span hfresh hclose
  have hafterBinds : tieOf ((v ++ (w ++ .of [.op ")"])).toks ++ rest) = 0 := by
    rw [Rendered.toks_append, List.append_assoc]
    exact tie_span hwindow hafterWindow
  have hafterName : tieOf ((u ++ (v ++ (w ++ .of [.op ")"]))).toks ++ rest) = 0 := by
    rw [Rendered.toks_append, List.append_assoc]
    exact tie_binds hbinds hafterBinds
  have hread : metricFrom n {} (((p.past 1).past 1).past t.toks.length) =
      (.ok ⟨binds, window, fresh⟩,
        (((p.past 1).past 1).past t.toks.length).past (u.toks.length + v.toks.length + w.toks.length)) := by
    obtain ⟨m, hm, hbound⟩ := binds_read hbinds (c := v.toks.length + w.toks.length + 1) n {} hgiven
      (by omega) hafterBinds
    obtain ⟨m, hm, hover⟩ := span_read hwindow (fun window => ⟨binds, window, none⟩)
      (window_words binds none) (c := w.toks.length + 1) m hwindows (by omega) hafterWindow
    obtain ⟨m, hm, hlast⟩ := span_read hfresh (fun fresh => ⟨binds, window, fresh⟩)
      (fresh_words binds window) (c := 1) m hfreshes (by omega) hclose
    obtain ⟨m, rfl⟩ : ∃ j, m = j + 1 := Nat.exists_eq_succ_of_ne_zero (by omega)
    have hcloses : ((((((p.past 1).past 1).past t.toks.length).past u.toks.length).past
        v.toks.length).past w.toks.length).Sees (.op ")" :: rest) := hend.past
    rw [hbound, List.nil_append, hover, hlast]
    unfold metricFrom
    rw [run_current, hcloses.at' rfl]
    simp only [past_past]
    exact past_congr p (⟨binds, window, fresh⟩ : Given) (by omega)
  rw [primary_name hbefore.sees hf.1 hnum, run_current, if_pos hopen]
  unfold call
  rw [run_current]
  show metric (n + 1) (p.past 1) = _
  unfold metric
  rw [run_word hparen rfl, run_additive hname hnames.first (by omega) hafterName, run_bind hread]
  have hcloses : ((((p.past 1).past 1).past t.toks.length).past
      (u.toks.length + v.toks.length + w.toks.length)).Sees (.op ")" :: rest) := by
    rw [← past_past, ← past_past]
    exact hend.past
  rw [run_expect hcloses rfl]
  simp only [past_past]
  exact past_congr p _ (by simp; omega)

end Parser

end ObjectFlow
