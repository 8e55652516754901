import Mathlib.Data.List.TakeWhile
import ObjectFlow.Civil
import ObjectFlow.Export

/-!
# Dates and times as text

The calendar's days and seconds are read back from the text they are written
in, and nothing outside the calendar is read.
-/

namespace ObjectFlow

open Base

/-- A number of two digits. -/
def twoDigits (s : String) : Option Int :=
  if s.length = 2 then Decimal.digits s.toList else none

/-- The hour, the minute and the second a text names, the last none where it
stops at the minute. -/
def clockFields (time : String) : Option (Int × Int × Int) :=
  match splitOnce ':' time with
  | none => none
  | some (h, rest) =>
      match splitOnce ':' rest with
      | none => (twoDigits h).bind fun h => (twoDigits rest).map fun mi => (h, mi, 0)
      | some (mi, s) => (twoDigits h).bind fun h => (twoDigits mi).bind fun mi =>
          (twoDigits s).map fun s => (h, mi, s)

/-- An instant written in RFC 3339 at UTC, to the second or to the minute, in
seconds since 1970. -/
def parseTimestamp (text : String) : Option Int :=
  match (stripEnding "Z" text).orElse fun _ => stripEnding "+00:00" text with
  | none => none
  | some body =>
      match splitOnce 'T' body with
      | none => none
      | some (date, time) =>
          match parseDate date with
          | none => none
          | some days =>
              match clockFields time with
              | none => none
              | some (h, mi, s) =>
                  if h < 24 ∧ mi < 60 ∧ s < 60 then some (days * 86400 + (h * 3600 + mi * 60 + s))
                  else none

/-! ### Digits -/

theorem digits_append {l : List Char} {n : Nat} (h : ∀ c ∈ l, c.isDigit = true) :
    l.foldlM (fun (n : Int) c => if c.isDigit then some (n * 10 + (c.toNat - 48 : Nat)) else none)
      (n : Int) = some (Nat.ofDigitChars 10 l n : Int) := by
  induction l generalizing n with
  | nil => simp
  | cons c rest ih =>
    obtain ⟨hc, hrest⟩ := List.forall_mem_cons.mp h
    have hnext : (n : Int) * 10 + ((c.toNat - 48 : Nat) : Int) = ((10 * n + (c.toNat - 48) : Nat) : Int) := by
      push_cast
      ring
    rw [List.foldlM_cons, if_pos hc, Option.bind_eq_bind, Option.bind_some, hnext, ih hrest,
      Nat.ofDigitChars_cons]
    rfl

/-- A text of digits is the number they write. -/
theorem digits_eq {l : List Char} (h : ∀ c ∈ l, c.isDigit = true) :
    Decimal.digits l = some (Nat.ofDigitChars 10 l 0 : Int) := digits_append (n := 0) h

theorem isDigit_of_foldlM {l : List Char} {n v : Int}
    (h : l.foldlM (fun (n : Int) c => if c.isDigit then some (n * 10 + (c.toNat - 48 : Nat)) else none)
      n = some v) : ∀ c ∈ l, c.isDigit = true := by
  induction l generalizing n with
  | nil => exact fun c hc => absurd hc List.not_mem_nil
  | cons c rest ih =>
    rw [List.foldlM_cons] at h
    by_cases hc : c.isDigit = true
    · rw [if_pos hc] at h
      exact List.forall_mem_cons.mpr ⟨hc, ih h⟩
    · rw [if_neg hc] at h
      cases h

/-- Only digits are read as a number, and it is none below zero. -/
theorem digits_some {l : List Char} {v : Int} (h : Decimal.digits l = some v) :
    (∀ c ∈ l, c.isDigit = true) ∧ v = (Nat.ofDigitChars 10 l 0 : Int) := by
  have hdigits : ∀ c ∈ l, c.isDigit = true := isDigit_of_foldlM h
  rw [digits_eq hdigits] at h
  exact ⟨hdigits, (Option.some.inj h).symm⟩

theorem ofDigitChars_lt {l : List Char} (h : ∀ c ∈ l, c.isDigit = true) (n : Nat) :
    Nat.ofDigitChars 10 l n < (n + 1) * 10 ^ l.length := by
  induction l generalizing n with
  | nil => simp
  | cons c rest ih =>
    obtain ⟨hc, hrest⟩ := List.forall_mem_cons.mp h
    have hdigit : c.toNat - '0'.toNat ≤ 9 := by
      have h' := Char.isDigit_iff_toNat.mp hc
      have hzero : '0'.toNat = 48 := rfl
      have hnine : '9'.toNat = 57 := rfl
      omega
    have hnext := ih hrest (10 * n + (c.toNat - '0'.toNat))
    rw [Nat.ofDigitChars_cons, List.length_cons, Nat.pow_succ]
    calc Nat.ofDigitChars 10 rest (10 * n + (c.toNat - '0'.toNat))
        < (10 * n + (c.toNat - '0'.toNat) + 1) * 10 ^ rest.length := hnext
      _ ≤ (10 * n + 10) * 10 ^ rest.length := Nat.mul_le_mul_right _ (by omega)
      _ = (n + 1) * (10 ^ rest.length * 10) := by ring

/-- A number that fits its width is its digits, zeros before them. -/
theorem padded_digits {w : Nat} {n : Int} (h : 0 ≤ n) (h' : n < 10 ^ w) (hwidth : 0 < w) :
    (padded w n).toList.length = w ∧ (∀ c ∈ (padded w n).toList, c.isDigit = true) ∧
      Nat.ofDigitChars 10 (padded w n).toList 0 = n.natAbs := by
  have hlength : (Nat.toDigits 10 n.natAbs).length ≤ w := by
    rw [Nat.length_toDigits_le_iff (by decide) hwidth]
    zify
    rw [abs_of_nonneg h]
    exact h'
  rw [padded_toList, if_neg (by omega), if_neg (by omega), List.nil_append]
  refine ⟨?_, ?_, ?_⟩
  · rw [List.length_append, List.length_replicate]
    omega
  · intro c hc
    rcases List.mem_append.mp hc with hzero | hdigit
    · rw [List.eq_of_mem_replicate hzero]
      decide
    · exact Nat.isDigit_of_mem_toDigits (by decide) (by decide) hdigit
  · rw [Nat.ofDigitChars_append, Nat.ofDigitChars_replicate_zero, Nat.mul_zero,
      Nat.ofDigitChars_ten_toDigits]

theorem digits_padded {w : Nat} {n : Int} (h : 0 ≤ n) (h' : n < 10 ^ w) (hwidth : 0 < w) :
    Decimal.digits (padded w n).toList = some n := by
  obtain ⟨_, hdigits, hvalue⟩ := padded_digits h h' hwidth
  rw [digits_eq hdigits, hvalue]
  congr 1
  omega

theorem isDigit_ne {c d : Char} (h : c.isDigit = true) (hd : d.isDigit = false) : c ≠ d := by
  rintro rfl
  rw [h] at hd
  cases hd

/-! ### Splitting -/

/-- A text is split at the first of a character. -/
theorem splitOnce_eq {c : Char} {t : String} {first rest : List Char}
    (h : t.toList = first ++ c :: rest) (hfirst : ∀ x ∈ first, x ≠ c) :
    splitOnce c t = some (String.ofList first, String.ofList rest) := by
  have hall : ∀ x ∈ first, decide (x ≠ c) = true := fun x hx => decide_eq_true (hfirst x hx)
  unfold splitOnce
  rw [h, List.dropWhile_append_of_pos hall, List.takeWhile_append_of_pos hall,
    List.dropWhile_cons_of_neg (by simp), List.takeWhile_cons_of_neg (by simp), List.append_nil]

/-- What a split text is. -/
theorem splitOnce_some {c : Char} {text first rest : String} (h : splitOnce c text = some (first, rest)) :
    text.toList = first.toList ++ c :: rest.toList ∧ ∀ x ∈ first.toList, x ≠ c := by
  unfold splitOnce at h
  have hcut := List.takeWhile_append_dropWhile (p := fun x => decide (x ≠ c)) (l := text.toList)
  cases hdrop : text.toList.dropWhile fun x => decide (x ≠ c) with
  | nil =>
    rw [hdrop] at h
    cases h
  | cons d tail =>
    rw [hdrop] at h hcut
    obtain ⟨rfl, rfl⟩ := Prod.mk.inj (Option.some.inj h)
    have hd := List.head?_dropWhile_not (fun x => decide (x ≠ c)) text.toList
    rw [hdrop] at hd
    have hdc : d = c := by simpa using hd
    rw [String.toList_ofList, String.toList_ofList]
    refine ⟨?_, fun x hx => ?_⟩
    · rw [← hdc]
      rw [← hdc] at hcut
      exact hcut.symm
    · have hall := List.all_takeWhile (p := fun x => decide (x ≠ c)) (l := text.toList)
      exact of_decide_eq_true (List.all_eq_true.mp hall x hx)

theorem splitOnce_none {c : Char} {text : String} (h : ∀ x ∈ text.toList, x ≠ c) :
    splitOnce c text = none := by
  have hdrop : text.toList.dropWhile (fun x => decide (x ≠ c)) = [] :=
    List.dropWhile_eq_nil_iff.mpr fun x hx => decide_eq_true (h x hx)
  unfold splitOnce
  rw [hdrop]

theorem stripEnding_append (text ending : String) : stripEnding ending (text ++ ending) = some text := by
  unfold stripEnding
  have hsuffix : ending.toList.isSuffixOf (text ++ ending).toList = true := by
    rw [List.isSuffixOf_iff_suffix, String.toList_append]
    exact List.suffix_append _ _
  have hlength : (text ++ ending).length - ending.length = text.toList.length := by
    rw [String.length_append, String.length_toList]
    omega
  rw [if_pos hsuffix, hlength, String.toList_append, List.take_left, String.ofList_toList]

/-! ### The calendar -/

/-- A day is of the calendar exactly where its year has four digits and is not
before the first. -/
theorem inCalendar_iff (day : Int) :
    inCalendar day = true ↔ 1 ≤ (civilFromDays day).1 ∧ (civilFromDays day).1 ≤ 9999 := by
  have hm := civil_month day
  have hfirst : monthStart 12 = FIRST_DAY := by decide +kernel
  have hlast : monthStart 120000 = LAST_DAY + 1 := by decide +kernel
  have hlow := monthStart_le_iff 12 day
  have hhigh := monthStart_le_iff 120000 day
  rw [hfirst] at hlow
  rw [hlast] at hhigh
  unfold monthOf at hlow hhigh
  unfold inCalendar
  rw [decide_eq_true_eq]
  omega

/-- A calendar day is read back from its text. -/
theorem parseDate_dateText {day : Int} (h : inCalendar day = true) :
    parseDate (dateText day) = some day := by
  obtain ⟨hy, hy'⟩ := (inCalendar_iff day).mp h
  obtain ⟨hm, hm'⟩ := civil_month day
  obtain ⟨hd, hd'⟩ := civil_day day
  obtain ⟨hdate, hback⟩ := daysFromCivil_civilFromDays day
  obtain ⟨hylength, hydigits, _⟩ := padded_digits (w := 4) (n := (civilFromDays day).1)
    (by omega) (by norm_num; omega) (by decide)
  obtain ⟨hmlength, hmdigits, _⟩ := padded_digits (w := 2) (n := (civilFromDays day).2.1)
    (by omega) (by norm_num; omega) (by decide)
  obtain ⟨hdlength, hddigits, _⟩ := padded_digits (w := 2) (n := (civilFromDays day).2.2)
    (by omega) (by norm_num; omega) (by decide)
  have hylist : (dateText day).toList = (padded 4 (civilFromDays day).1).toList ++
      '-' :: ((padded 2 (civilFromDays day).2.1).toList ++
        '-' :: (padded 2 (civilFromDays day).2.2).toList) := by
    simp [dateText, String.toList_append]
  have hrest := splitOnce_eq (t := String.ofList ((padded 2 (civilFromDays day).2.1).toList ++
      '-' :: (padded 2 (civilFromDays day).2.2).toList))
    (String.toList_ofList ..) fun x hx => isDigit_ne (hmdigits x hx) rfl
  have hyear := digits_padded (w := 4) (n := (civilFromDays day).1) (by omega)
    (by norm_num; omega) (by decide)
  have hmonth := digits_padded (w := 2) (n := (civilFromDays day).2.1) (by omega)
    (by norm_num; omega) (by decide)
  have hday := digits_padded (w := 2) (n := (civilFromDays day).2.2) (by omega)
    (by norm_num; omega) (by decide)
  unfold parseDate
  rw [splitOnce_eq hylist fun x hx => isDigit_ne (hydigits x hx) rfl]
  dsimp only
  rw [hrest]
  simp only [String.ofList_toList]
  rw [← String.length_toList, ← String.length_toList, ← String.length_toList, if_pos hylength,
    if_pos hmlength, if_pos hdlength, hyear, hmonth, hday]
  simp only [Int.toNat_natCast, hback]
  rw [if_neg (by omega), if_pos trivial]

/-- Only calendar days are read. -/
theorem parseDate_inCalendar {text : String} {day : Int} (h : parseDate text = some day) :
    inCalendar day = true := by
  unfold parseDate at h
  split at h
  · cases h
  · split at h
    · cases h
    · rename_i y _ _ m d _
      dsimp only at h
      split at h
      · rename_i yv mv dv hy hm hd
        split at h
        · cases h
        · rename_i hin
          split at h
          · rename_i hcivil
            obtain rfl := Option.some.inj h
            rw [inCalendar_iff, hcivil]
            dsimp only
            split at hy
            · rename_i hlength
              obtain ⟨hdigits, hvalue⟩ := digits_some hy
              have hlt := ofDigitChars_lt hdigits 0
              rw [String.length_toList, hlength] at hlt
              omega
            · cases hy
          · cases h
      · cases h

/-- The hours, minutes and seconds of a day, as one text. -/
def timeText (rest : Int) : String :=
  padded 2 (rest / 3600) ++ ":" ++ padded 2 (rest % 3600 / 60) ++ ":" ++ padded 2 (rest % 60)

theorem timestampText_eq (seconds : Int) :
    timestampText seconds = dateText (seconds / 86400) ++ "T" ++ timeText (seconds % 86400) ++ "Z" := by
  simp [timestampText, timeText, String.append_assoc]

theorem dateText_chars {day : Int} (h : inCalendar day = true) :
    ∀ c ∈ (dateText day).toList, c ≠ 'T' := by
  obtain ⟨hy, hy'⟩ := (inCalendar_iff day).mp h
  obtain ⟨hm, hm'⟩ := civil_month day
  obtain ⟨hd, hd'⟩ := civil_day day
  obtain ⟨_, hydigits, _⟩ := padded_digits (w := 4) (n := (civilFromDays day).1)
    (by omega) (by norm_num; omega) (by decide)
  obtain ⟨_, hmdigits, _⟩ := padded_digits (w := 2) (n := (civilFromDays day).2.1)
    (by omega) (by norm_num; omega) (by decide)
  obtain ⟨_, hddigits, _⟩ := padded_digits (w := 2) (n := (civilFromDays day).2.2)
    (by omega) (by norm_num; omega) (by decide)
  intro c hc
  simp only [dateText, String.toList_append, List.mem_append] at hc
  have hdash : ∀ c ∈ "-".toList, c ≠ 'T' := by
    intro c hc
    have hsame : c = '-' := List.mem_singleton.mp hc
    rw [hsame]
    decide
  rcases hc with (((hc | hc) | hc) | hc) | hc
  · exact isDigit_ne (hydigits c hc) rfl
  · exact hdash c hc
  · exact isDigit_ne (hmdigits c hc) rfl
  · exact hdash c hc
  · exact isDigit_ne (hddigits c hc) rfl

theorem twoDigits_padded {n : Int} (h : 0 ≤ n) (h' : n < 100) :
    twoDigits (padded 2 n) = some n := by
  unfold twoDigits
  rw [← String.length_toList, if_pos (padded_two_length h h')]
  exact digits_padded h (by norm_num; omega) (by decide)

theorem twoDigits_nonneg {s : String} {v : Int} (h : twoDigits s = some v) : 0 ≤ v := by
  unfold twoDigits at h
  split at h
  · rw [(digits_some h).2]
    omega
  · cases h

theorem clockFields_timeText (rest : Int) (h : 0 ≤ rest) (h' : rest < 86400) :
    clockFields (timeText rest) = some (rest / 3600, rest % 3600 / 60, rest % 60) := by
  have hhour : 0 ≤ rest / 3600 ∧ rest / 3600 < 100 := by omega
  have hminute : 0 ≤ rest % 3600 / 60 ∧ rest % 3600 / 60 < 100 := by omega
  have hsecond : 0 ≤ rest % 60 ∧ rest % 60 < 100 := by omega
  unfold timeText
  generalize rest / 3600 = hour at hhour
  generalize rest % 3600 / 60 = minute at hminute
  generalize rest % 60 = second at hsecond
  obtain ⟨_, hhdigits, _⟩ := padded_digits (w := 2) hhour.1 (by norm_num; exact hhour.2)
    (by decide)
  obtain ⟨_, hmdigits, _⟩ := padded_digits (w := 2) hminute.1 (by norm_num; exact hminute.2)
    (by decide)
  have hlist : (padded 2 hour ++ ":" ++ padded 2 minute ++ ":" ++ padded 2 second).toList =
      (padded 2 hour).toList ++ ':' :: ((padded 2 minute).toList ++ ':' :: (padded 2 second).toList) := by
    simp [String.toList_append]
  have hrest := splitOnce_eq (t := String.ofList ((padded 2 minute).toList ++
      ':' :: (padded 2 second).toList))
    (String.toList_ofList ..) fun x hx => isDigit_ne (hmdigits x hx) rfl
  unfold clockFields
  rw [splitOnce_eq hlist fun x hx => isDigit_ne (hhdigits x hx) rfl]
  dsimp only
  rw [hrest]
  dsimp only
  rw [String.ofList_toList, String.ofList_toList, String.ofList_toList,
    twoDigits_padded hhour.1 hhour.2, twoDigits_padded hminute.1 hminute.2,
    twoDigits_padded hsecond.1 hsecond.2]
  rfl

theorem clockFields_nonneg {time : String} {h mi s : Int}
    (hfields : clockFields time = some (h, mi, s)) : 0 ≤ h ∧ 0 ≤ mi ∧ 0 ≤ s := by
  unfold clockFields at hfields
  split at hfields
  · cases hfields
  split at hfields
  · obtain ⟨a, ha, hfields⟩ := Option.bind_eq_some_iff.mp hfields
    obtain ⟨b, hb, hfields⟩ := Option.map_eq_some_iff.mp hfields
    cases hfields
    exact ⟨twoDigits_nonneg ha, twoDigits_nonneg hb, le_refl _⟩
  · obtain ⟨a, ha, hfields⟩ := Option.bind_eq_some_iff.mp hfields
    obtain ⟨b, hb, hfields⟩ := Option.bind_eq_some_iff.mp hfields
    obtain ⟨c, hc, hfields⟩ := Option.map_eq_some_iff.mp hfields
    cases hfields
    exact ⟨twoDigits_nonneg ha, twoDigits_nonneg hb, twoDigits_nonneg hc⟩

/-- A calendar second is read back from its text. -/
theorem parseTimestamp_timestampText {seconds : Int} (h : inCalendar (seconds / 86400) = true) :
    parseTimestamp (timestampText seconds) = some seconds := by
  have hsplit : splitOnce 'T' (dateText (seconds / 86400) ++ "T" ++ timeText (seconds % 86400)) =
      some (dateText (seconds / 86400), timeText (seconds % 86400)) := by
    have hlist : (dateText (seconds / 86400) ++ "T" ++ timeText (seconds % 86400)).toList =
        (dateText (seconds / 86400)).toList ++ 'T' :: (timeText (seconds % 86400)).toList := by
      simp [String.toList_append]
    rw [splitOnce_eq hlist (dateText_chars h), String.ofList_toList, String.ofList_toList]
  have hclock := clockFields_timeText (seconds % 86400) (by omega) (by omega)
  have hstrip := stripEnding_append
    (dateText (seconds / 86400) ++ "T" ++ timeText (seconds % 86400)) "Z"
  rw [← timestampText_eq] at hstrip
  have hsum : seconds / 86400 * 86400 + (seconds % 86400 / 3600 * 3600 +
      seconds % 86400 % 3600 / 60 * 60 + seconds % 86400 % 60) = seconds := by omega
  have hclocked : seconds % 86400 / 3600 < 24 ∧ seconds % 86400 % 3600 / 60 < 60 ∧
      seconds % 86400 % 60 < 60 := by omega
  simp only [parseTimestamp, hstrip, Option.orElse_some, hsplit, parseDate_dateText h, hclock,
    if_pos hclocked, hsum]

/-- Only seconds of calendar days are read. -/
theorem parseTimestamp_inCalendar {text : String} {seconds : Int}
    (h : parseTimestamp text = some seconds) : inCalendar (seconds / 86400) = true := by
  unfold parseTimestamp at h
  split at h
  · cases h
  split at h
  · cases h
  split at h
  · cases h
  rename_i days hdays
  split at h
  · cases h
  rename_i hour minute second hfields
  split at h
  · obtain ⟨hhour, hminute, hsecond⟩ := clockFields_nonneg hfields
    obtain rfl := Option.some.inj h
    have hday : (days * 86400 + (hour * 3600 + minute * 60 + second)) / 86400 = days := by omega
    rw [hday]
    exact parseDate_inCalendar hdays
  · cases h

end ObjectFlow
