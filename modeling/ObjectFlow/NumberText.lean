import ObjectFlow.TimeText

/-!
# Numbers as text

An integer, a decimal and a duration are read back from the text they are
written in, at the places and in the unit they are written with.
-/

namespace ObjectFlow

open Base

/-! ### Signs and digits -/

/-- A number's text is its sign and the digits of its magnitude. -/
theorem toString_toList (n : Int) :
    (toString n).toList = (if n < 0 then ['-'] else []) ++ Nat.toDigits 10 n.natAbs := by
  cases n with
  | ofNat m =>
    have hrepr : toString (Int.ofNat m) = Nat.repr m := rfl
    rw [hrepr, Nat.toList_repr, if_neg (by simp)]
    rfl
  | negSucc m =>
    have hrepr : toString (Int.negSucc m) = "-" ++ Nat.repr (m + 1) := rfl
    rw [hrepr, String.toList_append, Nat.toList_repr, if_pos (Int.negSucc_lt_zero m)]
    rfl

theorem toDigits_isDigit (n : Nat) : ∀ c ∈ Nat.toDigits 10 n, c.isDigit = true :=
  fun _ h => Nat.isDigit_of_mem_toDigits (by decide) (by decide) h

theorem digits_toDigits (n : Nat) : Decimal.digits (Nat.toDigits 10 n) = some (n : Int) := by
  rw [digits_eq (toDigits_isDigit n), Nat.ofDigitChars_ten_toDigits]

/-- A number's digits are some, and the first is no sign. -/
theorem toDigits_cons (n : Nat) : ∃ c rest, Nat.toDigits 10 n = c :: rest ∧ c ≠ '-' ∧ c ≠ '+' := by
  cases hlist : Nat.toDigits 10 n with
  | nil => exact absurd hlist Nat.toDigits_ne_nil
  | cons c rest =>
    have hc := toDigits_isDigit n c (hlist ▸ List.mem_cons_self)
    exact ⟨c, rest, rfl, isDigit_ne hc rfl, isDigit_ne hc rfl⟩

/-- **An integer of 64 bits** is read back from its text. -/
theorem parseInt_toString {n : Int} (h : fits64 n = some n) : parseInt (toString n) = some n := by
  have hvalue := digits_toDigits n.natAbs
  obtain ⟨c, rest, hlist, hminus, hplus⟩ := toDigits_cons n.natAbs
  have hempty : (Nat.toDigits 10 n.natAbs).isEmpty = false := by rw [hlist]; rfl
  unfold parseInt
  rw [toString_toList]
  by_cases hneg : n < 0
  · have habs : -((n.natAbs : Nat) : Int) = n := by omega
    rw [if_pos hneg, List.singleton_append]
    simp only [hempty, hvalue, Bool.false_eq_true, if_false, Option.map_some, Option.bind_some, habs, h]
  · have habs : ((n.natAbs : Nat) : Int) = n := by omega
    rw [if_neg hneg, List.nil_append]
    rw [hlist] at hvalue ⊢
    split
    · rename_i heq
      exact absurd (List.cons.inj heq).1 hminus
    · rename_i heq
      exact absurd (List.cons.inj heq).1 hplus
    · simp only [List.isEmpty_cons, hvalue, Bool.false_eq_true, if_false, Option.bind_some, habs, h]

/-! ### Nothing around a text -/

theorem isWhiteSpace_of_isDigit {c : Char} (h : c.isDigit = true) : isWhiteSpace c = false := by
  have hrange := Char.isDigit_iff_toNat.mp h
  have hzero : '0'.toNat = 48 := rfl
  have hnine : '9'.toNat = 57 := rfl
  unfold isWhiteSpace
  simp only [List.mem_cons, List.not_mem_nil, or_false, decide_eq_false_iff_not]
  omega

/-- A text that neither begins nor ends with white space is as trimmed. -/
theorem trim_eq {text : String} {c d : Char} {r i : List Char}
    (hfirst : text.toList = c :: r) (hlast : text.toList = i ++ [d])
    (hc : isWhiteSpace c = false) (hd : isWhiteSpace d = false) : trim text = text := by
  have hhead : text.toList.dropWhile isWhiteSpace = text.toList := by
    rw [hfirst, List.dropWhile_cons_of_neg (by simp [hc])]
  have htail : text.toList.reverse.dropWhile isWhiteSpace = text.toList.reverse := by
    rw [hlast, List.reverse_append, List.reverse_singleton, List.singleton_append,
      List.dropWhile_cons_of_neg (by simp [hd])]
  unfold trim
  rw [hhead, htail, List.reverse_reverse, String.ofList_toList]

/-! ### Decimals -/

namespace Decimal

/-- A decimal's digits before and after its point. -/
theorem display_toList (d : Decimal) : ∃ whole fraction : List Char,
    d.display.toList = (if d.units < 0 then ['-'] else []) ++
      (whole ++ if d.scale = 0 then [] else '.' :: fraction) ∧
    whole ≠ [] ∧ fraction.length = d.scale ∧
    (∀ c ∈ whole ++ fraction, c.isDigit = true) ∧
    Nat.ofDigitChars 10 (whole ++ fraction) 0 = d.units.natAbs := by
  have hsign : (if d.units < 0 then "-" else "").toList = if d.units < 0 then ['-'] else [] := by
    split <;> rfl
  have hdigits : (toString d.units.natAbs).toList = Nat.toDigits 10 d.units.natAbs := by
    rw [Nat.toString_eq_repr, Nat.toList_repr]
  unfold display
  dsimp only
  rw [hdigits]
  by_cases hscale : d.scale = 0
  · refine ⟨Nat.toDigits 10 d.units.natAbs, [], ?_, Nat.toDigits_ne_nil, ?_, ?_, ?_⟩
    · rw [if_pos hscale, if_pos hscale, String.toList_append, hsign, String.toList_ofList,
        List.append_nil]
    · rw [hscale]
      rfl
    · rw [List.append_nil]
      exact toDigits_isDigit _
    · rw [List.append_nil, Nat.ofDigitChars_ten_toDigits]
  · simp only [if_neg hscale]
    generalize hk : d.scale + 1 - (Nat.toDigits 10 d.units.natAbs).length = k
    generalize hall : List.replicate k '0' ++ Nat.toDigits 10 d.units.natAbs = all
    have hlength : d.scale < all.length := by
      rw [← hall, List.length_append, List.length_replicate]
      omega
    refine ⟨all.take (all.length - d.scale), all.drop (all.length - d.scale), ?_, ?_, ?_, ?_, ?_⟩
    · simp [String.toList_append, hsign, List.append_assoc]
    · intro hnil
      have htake := congrArg List.length hnil
      rw [List.length_take, List.length_nil] at htake
      omega
    · rw [List.length_drop]
      omega
    · rw [List.take_append_drop, ← hall]
      intro c hc
      rcases List.mem_append.mp hc with hzero | hdigit
      · rw [List.eq_of_mem_replicate hzero]
        decide
      · exact toDigits_isDigit _ c hdigit
    · rw [List.take_append_drop, ← hall, Nat.ofDigitChars_append, Nat.ofDigitChars_replicate_zero,
        Nat.mul_zero, Nat.ofDigitChars_ten_toDigits]

/-- Nothing of a decimal's text is white space. -/
theorem display_not_white (d : Decimal) : ∀ c ∈ d.display.toList, isWhiteSpace c = false := by
  obtain ⟨whole, fraction, hlist, _, _, hdigits, _⟩ := display_toList d
  have hdash : isWhiteSpace '-' = false := by decide
  have hpoint : isWhiteSpace '.' = false := by decide
  intro c hc
  rw [hlist] at hc
  rcases List.mem_append.mp hc with hsign | hbody
  · split at hsign
    · rw [List.mem_singleton.mp hsign]
      exact hdash
    · cases hsign
  · rcases List.mem_append.mp hbody with hwhole | hrest
    · exact isWhiteSpace_of_isDigit (hdigits c (List.mem_append_left _ hwhole))
    · split at hrest
      · cases hrest
      · rcases List.mem_cons.mp hrest with rfl | hfraction
        · exact hpoint
        · exact isWhiteSpace_of_isDigit (hdigits c (List.mem_append_right _ hfraction))

theorem trim_display (d : Decimal) : trim d.display = d.display := by
  have hwhite := display_not_white d
  obtain ⟨whole, fraction, hlist, hwhole, _⟩ := display_toList d
  have hne : d.display.toList ≠ [] := by
    rw [hlist]
    simp [hwhole]
  obtain ⟨c, rest, hfirst⟩ := List.exists_cons_of_ne_nil hne
  obtain ⟨init, last, hlast⟩ := List.eq_nil_or_concat _ |>.resolve_left hne
  rw [List.concat_eq_append] at hlast
  exact trim_eq hfirst hlast (hwhite c (by rw [hfirst]; exact List.mem_cons_self))
    (hwhite last (by rw [hlast]; simp))

/-- What a decimal's text after its sign is read as. -/
def unsigned (negative : Bool) (body : List Char) : Option Decimal :=
  let whole := body.takeWhile (· ≠ '.')
  let fraction := (body.dropWhile (· ≠ '.')).drop 1
  if whole.isEmpty ∨ (body.contains '.' ∧ fraction.isEmpty) then none
  else do
    let units ← (digits (whole ++ fraction)).bind fits128
    new (if negative then -units else units) fraction.length

theorem parse_minus {text : String} {body : List Char} (h : (trim text).toList = '-' :: body) :
    parse text = unsigned true body := by
  unfold parse
  rw [h]
  rfl

theorem parse_plain {text : String} {body : List Char} (h : (trim text).toList = body)
    (hsign : ∀ rest, body ≠ '-' :: rest) : parse text = unsigned false body := by
  unfold parse
  rw [h]
  dsimp only
  split
  · exact absurd rfl (hsign _)
  · rfl

/-- **A decimal is read back from its text**, at its places, but for the least
of 128 bits. -/
theorem parse_display {d : Decimal} (h : -i128Max ≤ d.units) : parse d.display = some d := by
  obtain ⟨whole, fraction, hlist, hwhole, hlength, hdigits, hvalue⟩ := display_toList d
  have hpoint : ∀ l : List Char, (∀ c ∈ l, c.isDigit = true) → ∀ c ∈ l, decide (c ≠ '.') = true := by
    intro l hl c hc
    exact decide_eq_true (isDigit_ne (hl c hc) rfl)
  have hwholeDigits : ∀ c ∈ whole, c.isDigit = true := fun c hc => hdigits c (List.mem_append_left _ hc)
  have hwholePoint := hpoint whole hwholeDigits
  generalize hbody : (whole ++ if d.scale = 0 then [] else '.' :: fraction) = body at hlist
  have htake : body.takeWhile (fun c => decide (c ≠ '.')) = whole := by
    rw [← hbody]
    split
    · rw [List.append_nil, List.takeWhile_eq_self_iff]
      exact hwholePoint
    · rw [List.takeWhile_append_of_pos hwholePoint, List.takeWhile_cons_of_neg (by simp),
        List.append_nil]
  have hdrop : (body.dropWhile (fun c => decide (c ≠ '.'))).drop 1 = fraction := by
    rw [← hbody]
    split
    · rename_i hscale
      rw [hscale] at hlength
      rw [List.append_nil, List.dropWhile_eq_nil_iff.mpr hwholePoint,
        List.eq_nil_of_length_eq_zero hlength]
      rfl
    · rw [List.dropWhile_append_of_pos hwholePoint, List.dropWhile_cons_of_neg (by simp)]
      rfl
  have hempty : ¬ (whole.isEmpty = true ∨ (body.contains '.' = true ∧ fraction.isEmpty = true)) := by
    rintro (hnil | ⟨hcontains, hnil⟩)
    · exact hwhole (List.isEmpty_iff.mp hnil)
    · have hscale : d.scale = 0 := by rw [← hlength, List.isEmpty_iff.mp hnil]; rfl
      rw [← hbody, if_pos hscale, List.append_nil, List.contains_iff_mem] at hcontains
      exact absurd rfl (isDigit_ne (hwholeDigits '.' hcontains) (d := '.') rfl)
  have hunits : (digits (whole ++ fraction)).bind fits128 = some (d.units.natAbs : Int) := by
    have hhigh := d.bounded.2
    have hmin : i128Min ≤ 0 := by decide
    rw [digits_eq hdigits, hvalue, Option.bind_some, fits128_eq_some]
    omega
  have hnew : new (if d.units < 0 then -(d.units.natAbs : Int) else d.units.natAbs)
      fraction.length = some d := by
    rw [new_eq_some, hlength]
    split <;> omega
  by_cases hneg : d.units < 0
  · rw [if_pos hneg] at hnew
    have htext : (trim d.display).toList = '-' :: body := by
      rw [trim_display, hlist, if_pos hneg, List.singleton_append]
    rw [parse_minus htext]
    unfold unsigned
    rw [htake, hdrop, if_neg hempty, hunits, Option.bind_eq_bind, Option.bind_some, if_pos rfl]
    exact hnew
  · have hnot : ∀ rest, body ≠ '-' :: rest := by
      obtain ⟨c, rest, hcons⟩ := List.exists_cons_of_ne_nil hwhole
      intro tail heq
      rw [← hbody, hcons, List.cons_append, List.cons.injEq] at heq
      have hdigit := hwholeDigits c (hcons ▸ List.mem_cons_self)
      exact isDigit_ne hdigit (d := '-') rfl heq.1
    rw [if_neg hneg] at hnew
    have htext : (trim d.display).toList = body := by
      rw [trim_display, hlist, if_neg hneg, List.nil_append]
    rw [parse_plain htext hnot]
    unfold unsigned
    rw [htake, hdrop, if_neg hempty, hunits, Option.bind_eq_bind, Option.bind_some,
      if_neg Bool.false_ne_true]
    exact hnew

end Decimal

/-! ### Durations -/

/-- A duration's text is a count and a unit that make it. -/
theorem durationText_eq (seconds : Int) : ∃ (n size : Int) (unit : String) (c d : Char)
    (init rest : List Char), durationText seconds = toString n ++ " " ++ unit ∧
      unitSeconds unit = some size ∧ n * size = seconds ∧ unit.toList = c :: rest ∧
      unit.toList = init ++ [d] ∧ isWhiteSpace c = false ∧ isWhiteSpace d = false := by
  unfold durationText
  dsimp only
  split
  · rename_i one many size hfound
    have hunits : ∀ u : String × String × Int,
        u ∈ [("week", "weeks", (604800 : Int)), ("day", "days", 86400), ("h", "h", 3600),
          ("min", "min", 60), ("s", "s", 1)] → ∀ unit : String, unit = u.1 ∨ unit = u.2.1 →
        unitSeconds unit = some u.2.2 ∧ ∃ (c d : Char) (init rest : List Char),
          unit.toList = c :: rest ∧ unit.toList = init ++ [d] ∧ isWhiteSpace c = false ∧
            isWhiteSpace d = false := by
      intro u hu unit hunit
      simp only [List.mem_cons, List.not_mem_nil, or_false] at hu
      rcases hu with rfl | rfl | rfl | rfl | rfl <;> rcases hunit with rfl | rfl <;>
        exact ⟨by decide, _, _, _, _, rfl, (List.dropLast_append_getLast (by decide)).symm,
          by decide, by decide⟩
    have hmem := List.mem_of_find?_eq_some hfound
    have hholds := List.find?_some hfound
    simp only [Bool.decide_and, Bool.and_eq_true, decide_eq_true_eq] at hholds
    have hmul : seconds.tdiv size * size = seconds := by
      have hsplit := Int.tdiv_mul_add_tmod seconds size
      omega
    generalize hunit : (if (seconds.tdiv size).natAbs = 1 then one else many) = unit
    have hone : unit = one ∨ unit = many := by
      rw [← hunit]
      split
      · exact .inl rfl
      · exact .inr rfl
    obtain ⟨hseconds, c, d, init, rest, hends⟩ := hunits _ hmem unit hone
    exact ⟨_, size, unit, c, d, init, rest, rfl, hseconds, hmul, hends⟩
  · have htext : toString seconds ++ " s" = toString seconds ++ " " ++ "s" := by
      rw [String.append_assoc]
      rfl
    exact ⟨seconds, 1, "s", 's', 's', [], [], htext, by decide, by omega, rfl, rfl, by decide, by decide⟩

theorem unitSeconds_pos {unit : String} {size : Int} (h : unitSeconds unit = some size) : 1 ≤ size := by
  unfold unitSeconds at h
  split_ifs at h <;> cases h <;> decide

/-- **A duration of 64 bits** is read back from its text. -/
theorem parseDuration_durationText {seconds : Int} (h : fits64 seconds = some seconds) :
    parseDuration (durationText seconds) = some seconds := by
  obtain ⟨n, size, unit, c, d, init, rest, htext, hunit, hmul, hfirst, hlast, hc, hd⟩ :=
    durationText_eq seconds
  obtain ⟨e, digits, hdigits, hminus, hplus⟩ := toDigits_cons n.natAbs
  -- the count's characters, none a space and the first no white space
  have hcount : ∀ x ∈ (toString n).toList, x ≠ ' ' := by
    intro x hx
    rw [toString_toList] at hx
    rcases List.mem_append.mp hx with hsign | hdigit
    · split at hsign
      · rw [List.mem_singleton.mp hsign]
        decide
      · cases hsign
    · exact isDigit_ne (toDigits_isDigit _ x hdigit) rfl
  have hbegins : ∃ b tail, (toString n).toList = b :: tail ∧ isWhiteSpace b = false := by
    rw [toString_toList, hdigits]
    by_cases hneg : n < 0
    · exact ⟨'-', e :: digits, by rw [if_pos hneg]; rfl, by decide⟩
    · have he := toDigits_isDigit n.natAbs e (hdigits ▸ List.mem_cons_self)
      exact ⟨e, digits, by rw [if_neg hneg]; rfl, isWhiteSpace_of_isDigit he⟩
  obtain ⟨b, tail, hb, hbwhite⟩ := hbegins
  have hlist : (durationText seconds).toList = (toString n).toList ++ ' ' :: unit.toList := by
    rw [htext, String.toList_append, String.toList_append]
    simp
  have htrim : trim (durationText seconds) = durationText seconds := by
    apply trim_eq (c := b) (d := d) (r := tail ++ ' ' :: unit.toList)
      (i := (toString n).toList ++ ' ' :: init) _ _ hbwhite hd
    · rw [hlist, hb, List.cons_append]
    · rw [hlist, hlast, List.append_assoc, List.cons_append]
  have hspace : (durationText seconds).toList.contains ' ' = true := by
    rw [List.contains_iff_mem, hlist]
    simp
  have hall : ∀ x ∈ (toString n).toList, decide (x ≠ ' ') = true :=
    fun x hx => decide_eq_true (hcount x hx)
  have htake : (durationText seconds).toList.takeWhile (fun x => decide (x ≠ ' ')) =
      (toString n).toList := by
    rw [hlist, List.takeWhile_append_of_pos hall, List.takeWhile_cons_of_neg (by simp),
      List.append_nil]
  have hdrop : ((durationText seconds).toList.dropWhile (fun x => decide (x ≠ ' '))).drop 1 =
      unit.toList := by
    rw [hlist, List.dropWhile_append_of_pos hall, List.dropWhile_cons_of_neg (by simp)]
    rfl
  have hunitTrim : trim unit = unit := trim_eq hfirst hlast hc hd
  have hfits : fits64 n = some n := by
    have hsize := unitSeconds_pos hunit
    have hrange := (fits64_eq_some.mp h).2
    have hmin : i64Min ≤ 0 := by decide
    have hmax : 0 ≤ i64Max := by decide
    rw [fits64_eq_some, ← hmul] at *
    refine ⟨rfl, ?_, ?_⟩
    · nlinarith
    · nlinarith
  have hvalue := digits_toDigits n.natAbs
  unfold parseDuration
  dsimp only
  rw [htrim, hspace, htake, hdrop, String.ofList_toList, hunitTrim, toString_toList, hdigits,
    Bool.not_true, if_neg Bool.false_ne_true]
  rw [hdigits] at hvalue
  by_cases hneg : n < 0
  · rw [if_pos hneg, List.singleton_append]
    simp [hvalue, hunit, abs_of_neg hneg, hfits, hmul, h]
  · have habs : |n| = n := abs_of_nonneg (by omega)
    rw [if_neg hneg, List.nil_append]
    simp [hminus, hplus, hvalue, hunit, habs, hfits, hmul, h]

end ObjectFlow
