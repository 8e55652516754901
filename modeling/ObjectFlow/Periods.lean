import Mathlib.Data.Prod.Lex
import ObjectFlow.Split
import ObjectFlow.TimeText

/-!
# The calendar whole

Dates stand in the order of their days, a date is read from the one text that
writes it, and the buckets of a unit follow one another without a gap, each
under a name of its own.
-/

namespace ObjectFlow

open Base

/-! ### Dates in order -/

/-- A date as its year, its month and its day compare. -/
def civilOrder (date : Int × Nat × Nat) : Int ×ₗ Nat ×ₗ Nat :=
  toLex (date.1, toLex (date.2.1, date.2.2))

/-- A day by the month it is in and its place there. -/
theorem day_of_month (z : Int) : z = monthStart (monthOf z) + ((civilFromDays z).2.2 : Int) - 1 := by
  obtain ⟨hm, hm'⟩ := civil_month z
  have hstart : monthStart (monthOf z) = daysFromCivil (civilFromDays z).1 (civilFromDays z).2.1 1 :=
    monthStart_of hm hm'
  have hday := (daysFromCivil_civilFromDays z).2
  rw [daysFromCivil_day] at hday
  rw [hstart]
  omega

/-- **A later day has a later date.** -/
theorem civilFromDays_strictMono : StrictMono fun z => civilOrder (civilFromDays z) := by
  intro a b hab
  have hmonths : monthOf a ≤ monthOf b :=
    (monthStart_le_iff (monthOf a) b).mp ((monthOf_spec a).1.trans hab.le)
  have ha := day_of_month a
  have hb := day_of_month b
  have hma := civil_month a
  have hmb := civil_month b
  simp only [civilOrder, Prod.Lex.toLex_lt_toLex]
  by_cases hsame : monthOf a = monthOf b
  · rw [hsame] at ha
    unfold monthOf at hsame
    omega
  · unfold monthOf at hmonths hsame
    omega

/-! ### The text of a date -/

/-- Digits as many, of one number, are the same. -/
theorem digits_unique {l l' : List Char} (h : ∀ c ∈ l, c.isDigit = true)
    (h' : ∀ c ∈ l', c.isDigit = true) (hlength : l.length = l'.length) {n n' : Nat}
    (hvalue : Nat.ofDigitChars 10 l n = Nat.ofDigitChars 10 l' n') : l = l' ∧ n = n' := by
  induction l generalizing l' n n' with
  | nil =>
      cases l' with
      | nil => exact ⟨rfl, hvalue⟩
      | cons c' rest' => cases hlength
  | cons c rest ih =>
      cases l' with
      | nil => cases hlength
      | cons c' rest' =>
          obtain ⟨hc, hrest⟩ := List.forall_mem_cons.mp h
          obtain ⟨hc', hrest'⟩ := List.forall_mem_cons.mp h'
          rw [Nat.ofDigitChars_cons, Nat.ofDigitChars_cons] at hvalue
          obtain ⟨hsame, hnext⟩ := ih hrest hrest' (Nat.succ.inj hlength) hvalue
          have hdigit := Char.isDigit_iff_toNat.mp hc
          have hdigit' := Char.isDigit_iff_toNat.mp hc'
          have hzero : '0'.toNat = 48 := rfl
          have hnine : '9'.toNat = 57 := rfl
          have hchar : c.toNat = c'.toNat := by omega
          exact ⟨by rw [hsame, Char.toNat_inj.mp hchar], by omega⟩

/-- A text of digits is the padded number it writes. -/
theorem padded_of_digits {w : Nat} {s : String} {v : Int} (hlength : s.length = w) (hwidth : 0 < w)
    (h : Decimal.digits s.toList = some v) : padded w v = s ∧ 0 ≤ v ∧ v < 10 ^ w := by
  obtain ⟨hdigits, rfl⟩ := digits_some h
  have hlt := ofDigitChars_lt hdigits 0
  rw [String.length_toList, hlength, Nat.zero_add, Nat.one_mul] at hlt
  have hlt' : (Nat.ofDigitChars 10 s.toList 0 : Int) < 10 ^ w := by exact_mod_cast hlt
  obtain ⟨hlength', hdigits', hvalue'⟩ := padded_digits (Int.natCast_nonneg _) hlt' hwidth
  refine ⟨String.toList_inj.mp (digits_unique hdigits' hdigits ?_ hvalue').1,
    Int.natCast_nonneg _, hlt'⟩
  rw [hlength', String.length_toList, hlength]

/-- **A date is read from the one text that writes it**, and from no other. -/
theorem parseDate_iff (text : String) (day : Int) :
    parseDate text = some day ↔ inCalendar day = true ∧ text = dateText day := by
  constructor
  · intro h
    refine ⟨parseDate_inCalendar h, ?_⟩
    unfold parseDate at h
    split at h
    · cases h
    case h_2 y rest hfirst =>
      split at h
      · cases h
      case h_2 m d hsecond =>
        dsimp only at h
        split at h
        case h_2 => cases h
        case h_1 yv mv dv hy hm hd =>
          split at h
          · cases h
          split at h
          case isFalse => cases h
          case isTrue hrange hcivil =>
            obtain rfl := Option.some.inj h
            have hread : ∀ {n : Nat} {s : String} {v : Int}, 0 < n →
                (if s.length = n then Decimal.digits s.toList else none) = some v →
                  padded n v = s ∧ 0 ≤ v := by
              intro n s v hn hdigits
              split at hdigits
              case isTrue hlength =>
                obtain ⟨hpadded, hnonneg, -⟩ := padded_of_digits hlength hn hdigits
                exact ⟨hpadded, hnonneg⟩
              case isFalse => cases hdigits
            obtain ⟨hytext, -⟩ := hread (by decide) hy
            obtain ⟨hmtext, hmnonneg⟩ := hread (by decide) hm
            obtain ⟨hdtext, hdnonneg⟩ := hread (by decide) hd
            rw [← String.toList_inj, (splitOnce_some hfirst).1, (splitOnce_some hsecond).1]
            unfold dateText
            rw [hcivil]
            dsimp only
            rw [Int.toNat_of_nonneg hmnonneg, Int.toNat_of_nonneg hdnonneg, hytext, hmtext, hdtext]
            simp [String.toList_append]
  · intro ⟨hday, htext⟩
    rw [htext]
    exact parseDate_dateText hday

theorem stripEnding_some {ending text body : String} (h : stripEnding ending text = some body) :
    text = body ++ ending := by
  unfold stripEnding at h
  split at h
  case isTrue hsuffix =>
    obtain ⟨front, hfront⟩ := List.isSuffixOf_iff_suffix.mp hsuffix
    have hbody : text.toList.take (text.length - ending.length) = front := by
      have hlength : text.length - ending.length = front.length := by
        rw [← String.length_toList, ← String.length_toList, ← hfront, List.length_append]
        omega
      rw [hlength, ← hfront, List.take_left]
    obtain rfl := Option.some.inj h
    rw [← String.toList_inj, String.toList_append, String.toList_ofList, hbody, hfront]
  case isFalse => cases h

/-- An instant is read from a text that begins with its date. -/
theorem parseTimestamp_date {text : String} {seconds : Int} (h : parseTimestamp text = some seconds) :
    inCalendar (seconds / 86400) = true ∧
      ∃ rest, text = dateText (seconds / 86400) ++ "T" ++ rest := by
  refine ⟨parseTimestamp_inCalendar h, ?_⟩
  unfold parseTimestamp at h
  split at h
  · cases h
  case h_2 body hbody =>
  split at h
  · cases h
  case h_2 date time hsplit =>
  split at h
  · cases h
  case h_2 days hdays =>
  split at h
  · cases h
  case h_2 hour minute second hfields =>
  split at h
  case isFalse => cases h
  case isTrue hclock =>
    obtain ⟨hhour, hminute, hsecond⟩ := clockFields_nonneg hfields
    obtain rfl := Option.some.inj h
    have hday : (days * 86400 + (hour * 3600 + minute * 60 + second)) / 86400 = days := by omega
    have hdate := ((parseDate_iff date days).mp hdays).2
    have hjoined : body = date ++ "T" ++ time := by
      rw [← String.toList_inj, (splitOnce_some hsplit).1]
      simp [String.toList_append]
    have hending : ∃ ending, text = body ++ ending := by
      cases hz : stripEnding "Z" text with
      | some body' =>
          rw [hz, Option.orElse_some] at hbody
          cases hbody
          exact ⟨"Z", stripEnding_some hz⟩
      | none =>
          rw [hz, Option.orElse_none] at hbody
          exact ⟨"+00:00", stripEnding_some hbody⟩
    obtain ⟨ending, htext⟩ := hending
    exact ⟨time ++ ending, by rw [hday, ← hdate, htext, hjoined, String.append_assoc]⟩

/-! ### Weeks -/

/-- **A week is named by its Thursday**: by the year that day is in, and how many
of the year's Thursdays it is. -/
theorem week_named {seconds thursday : Int} (hthursday : thursday % 7 = 0)
    (hsame : bucket "week" (thursday * 86400) = bucket "week" seconds) :
    bucket "week" seconds = padded 4 (civilFromDays thursday).1 ++ "-W" ++
      padded 2 ((thursday - daysFromCivil (civilFromDays thursday).1 1 1) / 7 + 1) := by
  have hday : thursday * 86400 / 86400 = thursday := by omega
  have hown : thursday - (thursday + 3) % 7 + 3 = thursday := by omega
  have hfirst := (thursday_spec thursday).1
  rw [← hsame, bucket_text]
  simp only [show ("week" = "day") = False by decide, if_true, if_false, hday, hown]
  rw [Int.tdiv_eq_ediv_of_nonneg (by omega)]

/-- Each time is in the week of one Thursday. -/
theorem week_thursday (seconds : Int) : ∃ thursday, thursday % 7 = 0 ∧
    bucket "week" (thursday * 86400) = bucket "week" seconds := by
  refine ⟨7 * ((seconds / 86400 + 3) / 7), by omega, ?_⟩
  have hweek : ∀ z, bucketNumber "week" z = (z + 3) / 7 := fun _ => rfl
  rw [bucket_eq_iff, hweek, hweek]
  omega

/-- Two times are in one bucket where the next begins at one time for both. -/
theorem bucket_eq_next (unit : String) (s t : Int) :
    bucket unit s = bucket unit t ↔ nextBoundary unit s = nextBoundary unit t := by
  constructor
  · intro h
    rw [nextBoundary_eq, nextBoundary_eq, (bucket_eq_iff unit s t).mp h]
  · intro h
    rcases le_total s t with hst | hts
    · refine ((bucket_boundaries unit).same hst).mp ?_ |>.symm
      rw [h]
      exact (bucket_boundaries unit).forward t
    · refine ((bucket_boundaries unit).same hts).mp ?_
      rw [← h]
      exact (bucket_boundaries unit).forward s

/-- **The calendar is exact**: dates and days are each other's inverses and stand
in one order, a text is read where it writes a date or an instant there is, and
a unit's buckets tile time, each named for itself alone and a week by its
Thursday. -/
theorem calendar_exact :
    (∀ (y : Int) (m d : Nat), CivilDate y m d → civilFromDays (daysFromCivil y m d) = (y, m, d)) ∧
      (∀ z, CivilDate (civilFromDays z).1 (civilFromDays z).2.1 (civilFromDays z).2.2 ∧
        daysFromCivil (civilFromDays z).1 (civilFromDays z).2.1 (civilFromDays z).2.2 = z) ∧
      (StrictMono fun z => civilOrder (civilFromDays z)) ∧
      (∀ text day, parseDate text = some day ↔ inCalendar day = true ∧ text = dateText day) ∧
      (∀ seconds, inCalendar (seconds / 86400) = true →
        parseTimestamp (timestampText seconds) = some seconds) ∧
      (∀ text seconds, parseTimestamp text = some seconds → inCalendar (seconds / 86400) = true ∧
        ∃ rest, text = dateText (seconds / 86400) ++ "T" ++ rest) ∧
      (∀ unit t, t < nextBoundary unit t ∧
        (∀ s, t ≤ s → (s < nextBoundary unit t ↔ bucket unit s = bucket unit t)) ∧
          ∀ s, bucket unit s = bucket unit t ↔ nextBoundary unit s = nextBoundary unit t) ∧
      ∀ seconds, ∃ thursday, thursday % 7 = 0 ∧
        bucket "week" (thursday * 86400) = bucket "week" seconds ∧
          bucket "week" seconds = padded 4 (civilFromDays thursday).1 ++ "-W" ++
            padded 2 ((thursday - daysFromCivil (civilFromDays thursday).1 1 1) / 7 + 1) := by
  refine ⟨fun y m d => civilFromDays_daysFromCivil, daysFromCivil_civilFromDays,
    civilFromDays_strictMono, parseDate_iff, fun seconds => parseTimestamp_timestampText,
    fun text seconds => parseTimestamp_date, fun unit t => ⟨(bucket_boundaries unit).forward t,
      fun s => (bucket_boundaries unit).same, fun s => bucket_eq_next unit s t⟩, fun seconds => ?_⟩
  obtain ⟨thursday, hthursday, hsame⟩ := week_thursday seconds
  exact ⟨thursday, hthursday, hsame, week_named hthursday hsame⟩

end ObjectFlow
