import ObjectFlow.Parse
import ObjectFlow.Reference

/-!
# What a text writes

The two tokenizers differ in two spellings: the reference's takes the four
separators of ASCII as blanks, and the core's lets a string escape a line's end.
A text is read here by the rules that allow both, and each tokenizer reads the
same tokens where the text has no use of the spelling it refuses.
-/

namespace ObjectFlow

/-- What a text writes. -/
structure Written where
  toks : List Token
  /-- Whether a separator stands between tokens, which the core refuses. -/
  separated : Bool := false
  /-- Whether a string escapes a line's end, which the reference refuses. -/
  broken : Bool := false

/-- Whether what is left of a string escapes a line's end. -/
def breaks : List Char → Bool
  | [] => false
  | c :: rest =>
      if c = QUOTE then false
      else if c = BACKSLASH then
        match rest with
        | [] => false
        | d :: more => d = '\n' || breaks more
      else breaks rest

/-- The kind and the length of what a text starts with, a blank of either
tokenizer's. -/
def lexeme : List Char → Option (Option TokenKind × Nat)
  | [] => none
  | c :: rest => if Reference.isSpace c then some (none, 1) else scan (c :: rest)

/-- A blank before what the rest writes. -/
def Written.blank (w : Written) (c : Char) : Written :=
  { w with separated := w.separated || !isWhitespace c }

/-- A token before what the rest writes. -/
def Written.token (w : Written) (t : Token) (c : Char) (rest : List Char) : Written :=
  { w with toks := t :: w.toks, broken := w.broken || (c = QUOTE && breaks rest) }

/-- What is left of a text writes, its first characters skipped as a token's
already read. -/
def writtenFrom (text : String) : Nat → Nat → List Char → Option Written
  | _, _, [] => some { toks := [.endOf text] }
  | skip + 1, i, _ :: rest => writtenFrom text skip (i + 1) rest
  | 0, i, c :: rest =>
      match lexeme (c :: rest) with
      | none => none
      | some (none, n) => (writtenFrom text (n - 1) (i + 1) rest).map (·.blank c)
      | some (some kind, n) => (writtenFrom text (n - 1) (i + 1) rest).map
          (·.token ⟨kind, String.ofList ((c :: rest).take n), i⟩ c rest)

/-- What a text writes, if its characters are a text's. -/
def written (text : String) : Option Written := writtenFrom text 0 0 text.toList

/-- The tokens the core reads of it. -/
def Written.core (w : Written) : Option (List Token) := if w.separated then none else some w.toks

/-- The tokens the reference parser reads of it. -/
def Written.reference (w : Written) : Option (List Token) :=
  if w.broken then none else some w.toks

/-- A token before the tokens of the rest. -/
theorem toOption_cons (t : Token) (toks : Except ParseError (List Token)) :
    (do let toks ← toks; return t :: toks : Except ParseError (List Token)).toOption =
      toks.toOption.map (t :: ·) := by
  cases toks <;> rfl

theorem lexeme_blank {c : Char} {rest : List Char} (h : Reference.isSpace c = true) :
    lexeme (c :: rest) = some (none, 1) := by
  rw [lexeme, if_pos h]

theorem lexeme_scan {c : Char} {rest : List Char} (h : Reference.isSpace c = false) :
    lexeme (c :: rest) = scan (c :: rest) := by
  rw [lexeme, if_neg (by simp [h])]

/-! ### The core's tokens -/

theorem isWhitespace_isSpace {c : Char} (h : isWhitespace c = true) :
    Reference.isSpace c = true := by
  unfold isWhitespace at h
  unfold Reference.isSpace
  rw [h, Bool.true_or]

/-- The core reads nothing of a separator. -/
theorem scan_separator {c : Char} (rest : List Char) (hspace : Reference.isSpace c = true)
    (h : isWhitespace c = false) : scan (c :: rest) = none := by
  have hbounds : 28 ≤ c.toNat ∧ c.toNat ≤ 31 := by
    unfold isWhitespace at h
    unfold Reference.isSpace at hspace
    rw [h, Bool.false_or] at hspace
    simpa using hspace
  have hnone : (∀ two ∈ TWO, two.head? ≠ some c) ∧ c ≠ QUOTE ∧ c.isDigit = false ∧
      (c.isAlpha || decide (c = '_')) = false ∧ ONE.contains c = false := by
    have hofNat : c = Char.ofNat c.toNat := (Char.ofNat_toNat c).symm
    have hcases : c.toNat = 28 ∨ c.toNat = 29 ∨ c.toNat = 30 ∨ c.toNat = 31 := by omega
    rcases hcases with hn | hn | hn | hn <;> rw [hn] at hofNat <;> subst hofNat <;> decide
  obtain ⟨hpairs, hquote, hdigit, halpha, hone⟩ := hnone
  have htwo : TWO.contains ((c :: rest).take 2) = false := by
    rw [List.contains_eq_mem, decide_eq_false_iff_not]
    intro hmem
    exact hpairs _ hmem rfl
  rw [scan, if_neg (by simp [h]), if_neg hquote, if_neg (by simp [hdigit]),
    if_neg (by simpa using halpha), if_neg (by rw [htwo]; simp), if_neg (by rw [hone]; simp)]

/-- A token of no kind is a blank. -/
theorem scan_blank {c : Char} {rest : List Char} {n : Nat}
    (h : scan (c :: rest) = some (none, n)) : isWhitespace c = true := by
  by_contra hblank
  rw [scan, if_neg hblank] at h
  repeat' split at h
  all_goals simp at h

theorem Written.core_token (w : Written) (t : Token) (c : Char) (rest : List Char) :
    (w.token t c rest).core = w.core.map (t :: ·) := by
  unfold core token
  split <;> rfl

/-- **The core's tokens** are those of what a text writes, unless a separator
stands between them. -/
theorem tokenizeFrom_toOption (text : String) (chars : List Char) (skip i : Nat) :
    (tokenizeFrom text skip i chars).toOption =
      (writtenFrom text skip i chars).bind Written.core := by
  induction chars generalizing skip i with
  | nil => cases skip <;> rfl
  | cons c rest ih =>
      cases skip with
      | succ skip => exact ih skip (i + 1)
      | zero =>
          unfold tokenizeFrom writtenFrom
          by_cases hspace : Reference.isSpace c = true
          · rw [lexeme_blank hspace]
            by_cases hblank : isWhitespace c = true
            · rw [scan, if_pos hblank]
              have hcore : (Written.core ∘ fun w : Written => w.blank c) = Written.core := by
                funext w
                simp [Written.core, Written.blank, hblank]
              dsimp only
              rw [ih, Option.bind_map, hcore]
            · rw [scan_separator rest hspace (by simpa using hblank)]
              have hcore : (Written.core ∘ fun w : Written => w.blank c) = fun _ => none := by
                funext w
                simp [Written.core, Written.blank, hblank]
              dsimp only
              rw [Option.bind_map, hcore]
              cases writtenFrom text (1 - 1) (i + 1) rest <;> rfl
          · rw [lexeme_scan (by simpa using hspace)]
            rcases hscan : scan (c :: rest) with _ | ⟨_ | kind, n⟩
            · rfl
            · exact absurd (isWhitespace_isSpace (scan_blank hscan)) hspace
            · dsimp only
              rw [toOption_cons, ih, Option.bind_map, Option.map_bind]
              congr 1
              funext w
              exact (Written.core_token w _ c rest).symm

theorem tokenize_toOption (text : String) :
    (tokenize text).toOption = (written text).bind Written.core :=
  tokenizeFrom_toOption text text.toList 0 0

/-! ### The reference parser's tokens -/

/-- The reference parser reads a string where it escapes no line's end. -/
theorem strLength_eq (chars : List Char) :
    Reference.strLength chars = if breaks chars = true then none else stringLength chars := by
  induction chars using breaks.induct with
  | case1 => rfl
  | case2 more =>
      rw [Reference.strLength.eq_def, breaks.eq_def, stringLength.eq_def]
      simp
  | case3 hquote =>
      rw [Reference.strLength.eq_def, breaks.eq_def, stringLength.eq_def]
      simp [hquote]
  | case4 d more hquote ih =>
      rw [Reference.strLength.eq_def, breaks.eq_def, stringLength.eq_def]
      by_cases hbreak : d = '\n'
      · simp [hquote, hbreak]
      · by_cases hmore : breaks more = true <;> simp [hquote, hbreak, hmore, ih]
  | case5 c rest hquote hback ih =>
      rw [Reference.strLength.eq_def, breaks.eq_def, stringLength.eq_def]
      by_cases hrest : breaks rest = true <;> simp [hquote, hback, hrest, ih]

theorem opLength_eq (c : Char) (rest : List Char) :
    Reference.opLength (c :: rest) =
      if TWO.contains ((c :: rest).take 2) then some 2
      else if ONE.contains c then some 1 else none := by
  have htwo : ∀ d : Char, TWO.contains [c, d] =
      (d = '=' && (c = '=' || c = '!' || c = '<' || c = '>' || c = ':')) := by
    intro d
    rw [Bool.eq_iff_iff]
    simp [TWO]
    grind
  have hone : ONE = ['<', '>', '+', '-', '*', '/', '(', ')', '\x7b', '\x7d', '[', ']', ',', '.',
      ':', '…', '?'] := by decide
  rw [hone]
  cases rest with
  | nil =>
      have hnone : TWO.contains ((c :: []).take 2) = false := by simp [TWO]
      rw [hnone]
      unfold Reference.opLength
      split <;> simp_all
  | cons d more =>
      rw [show (c :: d :: more).take 2 = [c, d] from rfl, htwo]
      unfold Reference.opLength
      split
      case h_6 heq hne hle hge hset hchars =>
        -- no pattern of two characters matched
        cases hchars
        have hnot : (d = '=' && (c = '=' || c = '!' || c = '<' || c = '>' || c = ':')) = false := by
          by_cases hd : d = '='
          · subst hd
            simp only [decide_true, Bool.true_and, Bool.or_eq_false_iff, decide_eq_false_iff_not]
            exact ⟨⟨⟨⟨(heq more · rfl), (hne more · rfl)⟩, (hle more · rfl)⟩, (hge more · rfl)⟩,
              (hset more · rfl)⟩
          · simp [hd]
        simp only [hnot, Bool.false_eq_true, if_false]
      case h_7 hchars => cases hchars
      all_goals
        next hchars =>
          cases hchars
          rfl

/-- What the reference parser matches past the blanks is what the core scans,
but a string that escapes a line's end. -/
theorem matched_eq {c : Char} (rest : List Char) (hspace : Reference.isSpace c = false) :
    Reference.matched (c :: rest) =
      if (decide (c = QUOTE) && breaks rest) = true then none else scan (c :: rest) := by
  have hblank : ¬ isWhitespace c = true := by
    intro h
    rw [isWhitespace_isSpace h] at hspace
    cases hspace
  rw [Reference.matched, scan, if_neg (by simp [hspace]), if_neg hblank]
  by_cases hquote : c = QUOTE
  · subst hquote
    -- a quote opens no token but a string
    have hother : QUOTE.isDigit = false ∧ (QUOTE.isAlpha || decide (QUOTE = '_')) = false ∧
        ONE.contains QUOTE = false ∧ ∀ two ∈ TWO, two.head? ≠ some QUOTE := by
      decide
    have hop : Reference.opLength (QUOTE :: rest) = none := by
      have htwo : TWO.contains ((QUOTE :: rest).take 2) = false := by
        rw [List.contains_eq_mem, decide_eq_false_iff_not]
        intro hmem
        exact hother.2.2.2 _ hmem rfl
      rw [opLength_eq, htwo, hother.2.2.1]
      rfl
    rw [if_pos rfl, if_pos rfl, strLength_eq]
    by_cases hbreaks : breaks rest = true
    · simp [hbreaks, hother.1, hother.2.1, hop]
    · cases hlength : stringLength rest with
      | none => simp [hbreaks, hother.1, hother.2.1, hop]
      | some n => simp [hbreaks]
  · rw [if_neg hquote, if_neg hquote, opLength_eq]
    have hnot : (decide (c = QUOTE) && breaks rest) = false := by simp [hquote]
    simp only [hnot, Bool.false_eq_true, if_false]
    repeat' split
    all_goals rfl

/-- Blanks matched at once are the blanks matched one at a time. -/
theorem reference_blank {text : String} {c : Char} {rest : List Char} {pos : Nat}
    (h : Reference.isSpace c = true) :
    Reference.tokenizeFrom text 0 pos (c :: rest) =
      Reference.tokenizeFrom text 0 (pos + 1) rest := by
  have hmatched : ∀ (c : Char) (rest : List Char), Reference.isSpace c = true →
      Reference.matched (c :: rest) =
        some (none, (rest.takeWhile Reference.isSpace).length + 1) := by
    intro c rest h
    rw [Reference.matched, if_pos h, List.takeWhile_cons_of_pos h, List.length_cons]
  rw [Reference.tokenizeFrom, hmatched c rest h]
  dsimp only
  rw [Nat.add_sub_cancel]
  cases rest with
  | nil => rfl
  | cons d more =>
      by_cases hd : Reference.isSpace d = true
      · rw [List.takeWhile_cons_of_pos hd, List.length_cons, Reference.tokenizeFrom,
          Reference.tokenizeFrom, hmatched d more hd]
        rfl
      · rw [List.takeWhile_cons_of_neg hd]
        rfl

theorem Written.reference_token (w : Written) (t : Token) {c : Char} {rest : List Char}
    (h : (decide (c = QUOTE) && breaks rest) = false) :
    (w.token t c rest).reference = w.reference.map (t :: ·) := by
  unfold reference token
  rw [h, Bool.or_false]
  split <;> rfl

/-- **The reference parser's tokens** are those of what a text writes, unless a
string escapes a line's end. -/
theorem reference_tokenizeFrom_toOption (text : String) (chars : List Char) (skip pos : Nat) :
    (Reference.tokenizeFrom text skip pos chars).toOption =
      (writtenFrom text skip pos chars).bind Written.reference := by
  induction chars generalizing skip pos with
  | nil => cases skip <;> rfl
  | cons c rest ih =>
      cases skip with
      | succ skip => exact ih skip (pos + 1)
      | zero =>
          by_cases hspace : Reference.isSpace c = true
          · have hreference : (Written.reference ∘ fun w : Written => w.blank c) =
                Written.reference := rfl
            rw [reference_blank hspace, ih, writtenFrom, lexeme_blank hspace]
            dsimp only
            rw [Option.bind_map, hreference]
          · have hspace : Reference.isSpace c = false := by simpa using hspace
            rw [Reference.tokenizeFrom, writtenFrom, matched_eq rest hspace, lexeme_scan hspace]
            by_cases hbreaks : (decide (c = QUOTE) && breaks rest) = true
            · rw [if_pos hbreaks]
              rcases hscan : scan (c :: rest) with _ | ⟨_ | kind, n⟩
              · rfl
              · exact absurd (isWhitespace_isSpace (scan_blank hscan)) (by simp [hspace])
              · have hreference : (Written.reference ∘ fun w : Written =>
                    w.token ⟨kind, String.ofList ((c :: rest).take n), pos⟩ c rest) =
                    fun _ => none := by
                  funext w
                  simp only [Written.reference, Written.token, Function.comp, hbreaks,
                    Bool.or_true, if_true]
                dsimp only
                rw [Option.bind_map, hreference]
                cases writtenFrom text (n - 1) (pos + 1) rest <;> rfl
            · have hbreaks : (decide (c = QUOTE) && breaks rest) = false := by simpa using hbreaks
              rw [if_neg (by simp [hbreaks])]
              rcases hscan : scan (c :: rest) with _ | ⟨_ | kind, n⟩
              · rfl
              · exact absurd (isWhitespace_isSpace (scan_blank hscan)) (by simp [hspace])
              · dsimp only
                rw [toOption_cons, ih, Option.bind_map, Option.map_bind]
                congr 1
                funext w
                exact (w.reference_token _ hbreaks).symm

theorem reference_tokenize_toOption (text : String) :
    (Reference.tokenize text).toOption = (written text).bind Written.reference :=
  reference_tokenizeFrom_toOption text text.toList 0 0

/-! ### The tokens themselves -/

/-- What a text writes ends, and none of its names is a colon. -/
structure Written.WellFormed (w : Written) : Prop where
  ends : ∃ toks t, w.toks = toks ++ [t] ∧ t.kind = .end'
  names : ∀ t ∈ w.toks, t.kind = .name → t.text ≠ ":"

/-- A name starts with a letter or an underscore. -/
theorem scan_name {c : Char} {rest : List Char} {n : Nat}
    (h : scan (c :: rest) = some (some .name, n)) :
    String.ofList ((c :: rest).take n) ≠ ":" := by
  intro hcolon
  have hchars : (c :: rest).take n = [':'] := by
    have := congrArg String.toList hcolon
    simpa using this
  have hc : c = ':' := by
    cases n with
    | zero => simp at hchars
    | succ n =>
        rw [List.take_succ_cons] at hchars
        exact (List.cons.inj hchars).1
  subst hc
  have hnot : isWhitespace ':' = false ∧ ':' ≠ QUOTE ∧ ':'.isDigit = false ∧
      (':'.isAlpha || decide (':' = '_')) = false := by
    decide
  rw [scan, if_neg (by simp [hnot.1]), if_neg hnot.2.1, if_neg (by simp [hnot.2.2.1]),
    if_neg (by simp)] at h
  repeat' split at h
  all_goals simp at h

theorem writtenFrom_wellFormed (text : String) (chars : List Char) (skip i : Nat) (w : Written)
    (h : writtenFrom text skip i chars = some w) : w.WellFormed := by
  induction chars generalizing skip i w with
  | nil =>
      have hw : w = { toks := [.endOf text] } := by
        cases skip <;> exact (Option.some.inj h).symm
      subst hw
      refine ⟨⟨[], .endOf text, rfl, rfl⟩, ?_⟩
      intro t ht hkind
      rw [List.mem_singleton.mp ht] at hkind
      cases hkind
  | cons c rest ih =>
      cases skip with
      | succ skip => exact ih skip (i + 1) w h
      | zero =>
          rw [writtenFrom] at h
          rcases hlex : lexeme (c :: rest) with _ | ⟨_ | kind, n⟩
          · rw [hlex] at h
            cases h
          · rw [hlex] at h
            obtain ⟨w', hw', rfl⟩ := Option.map_eq_some_iff.mp h
            exact ⟨(ih _ _ w' hw').ends, (ih _ _ w' hw').names⟩
          · rw [hlex] at h
            obtain ⟨w', hw', rfl⟩ := Option.map_eq_some_iff.mp h
            obtain ⟨⟨toks, last, htoks, hlast⟩, hnames⟩ := ih _ _ w' hw'
            refine ⟨⟨⟨kind, String.ofList ((c :: rest).take n), i⟩ :: toks, last,
              by simp [Written.token, htoks], hlast⟩, ?_⟩
            intro t ht hkind
            rcases List.mem_cons.mp ht with rfl | ht
            · have hspace : Reference.isSpace c = false := by
                by_contra hspace
                rw [lexeme_blank (by simpa using hspace)] at hlex
                cases hlex
              rw [lexeme_scan hspace] at hlex
              cases kind with
              | name => exact scan_name hlex
              | _ => cases hkind
            · exact hnames t ht hkind

theorem written_wellFormed {text : String} {w : Written} (h : written text = some w) :
    w.WellFormed :=
  writtenFrom_wellFormed text _ 0 0 w h

end ObjectFlow
