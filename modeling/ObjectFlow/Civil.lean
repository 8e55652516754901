import Mathlib
import ObjectFlow.Calendar

/-!
# The civil calendar

Days since 1970 and civil dates are each other's: a year is counted from March,
so its leap day is its last, and a month by the days before it.  Months follow
one another without a gap, so a day is in the month whose first day it is not
before, and before the first of the next.
-/

namespace ObjectFlow

/-! ### Years that begin in March -/

/-- Days from 0000-03-01 to the start of a year that begins in March. -/
def marchStart (year : Int) : Int := 365 * year + year / 4 - year / 100 + year / 400

/-- Whether a year that begins in March ends in a leap day. -/
def MarchLeap (year : Int) : Prop :=
  (year + 1) % 4 = 0 ∧ ((year + 1) % 100 ≠ 0 ∨ (year + 1) % 400 = 0)

instance (year : Int) : Decidable (MarchLeap year) := inferInstanceAs (Decidable (_ ∧ _))

/-- The year of its era a day of it is in. -/
theorem yearOfEra {c q r doy : Int} (hc : 0 ≤ c) (hc' : c ≤ 3) (hq : 0 ≤ q) (hq' : q ≤ 24)
    (hr : 0 ≤ r) (hr' : r ≤ 3) (hd : 0 ≤ doy) (hd' : doy ≤ 365)
    (hleap : doy = 365 → r = 3 ∧ (q = 24 → c = 3)) {doe : Int}
    (hdoe : doe = 36524 * c + 1461 * q + 365 * r + doy) :
    (doe - doe / 1460 + doe / 36524 - doe / 146096) / 365 = 100 * c + 4 * q + r := by
  have h1 : doe / 1460 = 25 * c + q + (24 * c + q + 365 * r + doy) / 1460 := by omega
  have h2 : doe / 36524 = c + (if 1461 * q + 365 * r + doy = 36524 then 1 else 0) := by
    split <;> omega
  have h3 : doe / 146096 = (if doe = 146096 then 1 else 0) := by
    split <;> omega
  rw [h1, h2, h3]
  split <;> split <;> omega

theorem marchYear_parts (year : Int) : ∃ e c q r : Int, year = 400 * e + 100 * c + 4 * q + r ∧
    0 ≤ c ∧ c ≤ 3 ∧ 0 ≤ q ∧ q ≤ 24 ∧ 0 ≤ r ∧ r ≤ 3 :=
  ⟨year / 400, year % 400 / 100, year % 400 % 100 / 4, year % 400 % 100 % 4, by omega, by omega,
    by omega, by omega, by omega, by omega, by omega⟩

theorem marchStart_parts {year e c q r : Int} (hyear : year = 400 * e + 100 * c + 4 * q + r)
    (hc : 0 ≤ c) (hc' : c ≤ 3) (hq : 0 ≤ q) (hq' : q ≤ 24) (hr : 0 ≤ r) (hr' : r ≤ 3) :
    marchStart year = 146097 * e + 36524 * c + 1461 * q + 365 * r := by
  unfold marchStart
  have h4 : year / 4 = 100 * e + 25 * c + q := by omega
  have h100 : year / 100 = 4 * e + c := by omega
  have h400 : year / 400 = e := by omega
  omega

theorem marchLeap_parts {year e c q r : Int} (hyear : year = 400 * e + 100 * c + 4 * q + r)
    (hc : 0 ≤ c) (hc' : c ≤ 3) (hq : 0 ≤ q) (hq' : q ≤ 24) (hr : 0 ≤ r) (hr' : r ≤ 3) :
    MarchLeap year ↔ r = 3 ∧ (q = 24 → c = 3) := by
  have h4 : (year + 1) % 4 = 0 ↔ r = 3 := by omega
  have h100 : (year + 1) % 100 = 0 ↔ q = 24 ∧ r = 3 := by omega
  have h400 : (year + 1) % 400 = 0 ↔ c = 3 ∧ q = 24 ∧ r = 3 := by omega
  unfold MarchLeap
  rw [h4, ne_eq, h100, h400]
  tauto

/-- A day of a March-based year, by its month. -/
def marchMonth (doy : Int) : Nat × Nat :=
  let mp := (5 * doy + 2) / 153
  ((if mp < 10 then mp + 3 else mp - 9).toNat, (doy - (153 * mp + 2) / 5 + 1).toNat)

theorem civilFromDays_march {year doy : Int} (h : 0 ≤ doy) (h' : doy ≤ 365)
    (hleap : doy = 365 → MarchLeap year) :
    civilFromDays (marchStart year + doy - 719468) =
      (year + (if (marchMonth doy).1 ≤ 2 then 1 else 0), marchMonth doy) := by
  obtain ⟨e, c, q, r, hyear, hc, hc', hq, hq', hr, hr'⟩ := marchYear_parts year
  have hstart := marchStart_parts hyear hc hc' hq hq' hr hr'
  have hl : doy = 365 → r = 3 ∧ (q = 24 → c = 3) := fun hd =>
    (marchLeap_parts hyear hc hc' hq hq' hr hr').mp (hleap hd)
  have hwithin : 36524 * c + 1461 * q + 365 * r + doy ≤ 146096 := by omega
  have hsum : marchStart year + doy - 719468 + 719468 =
      146097 * e + (36524 * c + 1461 * q + 365 * r + doy) := by
    rw [hstart]
    ring
  have h4 : (100 * c + 4 * q + r) / 4 = 25 * c + q := by omega
  have h100 : (100 * c + 4 * q + r) / 100 = c := by omega
  unfold civilFromDays
  dsimp only
  rw [hsum]
  have hpositive : 0 ≤ 36524 * c + 1461 * q + 365 * r + doy := by omega
  generalize hdoe : 36524 * c + 1461 * q + 365 * r + doy = doe at hwithin hpositive
  have hera : (146097 * e + doe) / 146097 = e := by omega
  have hyoe := yearOfEra hc hc' hq hq' hr hr' h h' hl hdoe.symm
  have hrest : 146097 * e + doe - e * 146097 = doe := by ring
  rw [hera, hrest, hyoe, h4, h100]
  have hdoy : doe - (365 * (100 * c + 4 * q + r) + (25 * c + q) - c) = doy := by
    rw [← hdoe]
    ring
  rw [hdoy]
  unfold marchMonth
  dsimp only
  clear hyoe hera hrest hdoe hsum hdoy
  have hmp : 0 ≤ (5 * doy + 2) / 153 ∧ (5 * doy + 2) / 153 ≤ 11 := by omega
  refine Prod.ext ?_ rfl
  dsimp only
  generalize (5 * doy + 2) / 153 = mp at hmp
  split <;> split <;> omega

/-- Every day is one of a year that begins in March. -/
theorem march_exists (z : Int) : ∃ year doy, z = marchStart year + doy - 719468 ∧ 0 ≤ doy ∧
    doy ≤ 365 ∧ (doy = 365 → MarchLeap year) := by
  generalize hc : min ((z + 719468) % 146097 / 36524) 3 = c
  generalize hd : (z + 719468) % 146097 - 36524 * c = d
  generalize hq : d / 1461 = q
  generalize hr : min ((d - 1461 * q) / 365) 3 = r
  have hc₀ : 0 ≤ c := by omega
  have hc₁ : c ≤ 3 := by omega
  have hd₀ : 0 ≤ d := by omega
  have hd₁ : d ≤ 36524 := by omega
  have hd₂ : c < 3 → d ≤ 36523 := by omega
  have hq₀ : 0 ≤ q := by omega
  have hq₁ : q ≤ 24 := by omega
  have hr₀ : 0 ≤ r := by omega
  have hr₁ : r ≤ 3 := by omega
  have hyear : 400 * ((z + 719468) / 146097) + 100 * c + 4 * q + r =
      400 * ((z + 719468) / 146097) + 100 * c + 4 * q + r := rfl
  refine ⟨400 * ((z + 719468) / 146097) + 100 * c + 4 * q + r, d - 1461 * q - 365 * r, ?_,
    by omega, by omega, ?_⟩
  · rw [marchStart_parts hyear hc₀ hc₁ hq₀ hq₁ hr₀ hr₁]
    omega
  · intro hlast
    rw [marchLeap_parts hyear hc₀ hc₁ hq₀ hq₁ hr₀ hr₁]
    omega

/-! ### Dates -/

/-- Whether a year has a leap day. -/
def LeapYear (y : Int) : Prop := y % 4 = 0 ∧ (y % 100 ≠ 0 ∨ y % 400 = 0)

instance (y : Int) : Decidable (LeapYear y) := inferInstanceAs (Decidable (_ ∧ _))

/-- The days of a month. -/
def monthDays (y : Int) (m : Nat) : Nat :=
  if m = 2 then if LeapYear y then 29 else 28
  else if m = 4 ∨ m = 6 ∨ m = 9 ∨ m = 11 then 30 else 31

/-- A date of the calendar. -/
structure CivilDate (y : Int) (m d : Nat) : Prop where
  month : 1 ≤ m ∧ m ≤ 12
  day : 1 ≤ d ∧ d ≤ monthDays y m

/-- The days before a month, counted from March. -/
def daysBefore (m : Nat) : Int := (153 * (if m > 2 then (m : Int) - 3 else (m : Int) + 9) + 2) / 5

/-- The year a month is in, counted from March. -/
def marchYear (y : Int) (m : Nat) : Int := if m ≤ 2 then y - 1 else y

theorem daysFromCivil_march (y : Int) (m d : Nat) :
    daysFromCivil y m d = marchStart (marchYear y m) + (daysBefore m + (d : Int) - 1) - 719468 := by
  unfold daysFromCivil
  dsimp only
  rw [show (if m ≤ 2 then y - 1 else y) = marchYear y m from rfl,
    show (153 * (if m > 2 then (m : Int) - 3 else (m : Int) + 9) + 2) / 5 = daysBefore m from rfl]
  generalize marchYear y m = year
  generalize daysBefore m = before
  obtain ⟨e, c, q, r, hyear, hc, hc', hq, hq', hr, hr'⟩ := marchYear_parts year
  rw [marchStart_parts hyear hc hc' hq hq' hr hr']
  have h400 : year / 400 = e := by omega
  rw [h400]
  have hrest : year - e * 400 = 100 * c + 4 * q + r := by omega
  rw [hrest]
  have h4 : (100 * c + 4 * q + r) / 4 = 25 * c + q := by omega
  have h100 : (100 * c + 4 * q + r) / 100 = c := by omega
  rw [h4, h100]
  ring

theorem marchLeap_marchYear {y : Int} {m : Nat} (hm : m ≤ 2) :
    MarchLeap (marchYear y m) ↔ LeapYear y := by
  rw [marchYear, if_pos hm, MarchLeap, LeapYear, sub_add_cancel]

/-- The month and the day a day of a March-based year is. -/
theorem marchMonth_date {doy : Int} (h : 0 ≤ doy) (h' : doy ≤ 365) :
    1 ≤ (marchMonth doy).1 ∧ (marchMonth doy).1 ≤ 12 ∧ 1 ≤ (marchMonth doy).2 ∧
      daysBefore (marchMonth doy).1 + ((marchMonth doy).2 : Int) - 1 = doy ∧
      (∀ y, (marchMonth doy).1 ≠ 2 → (marchMonth doy).2 ≤ monthDays y (marchMonth doy).1) ∧
      ((marchMonth doy).1 = 2 → (marchMonth doy).2 ≤ 29 ∧
        (doy ≠ 365 → (marchMonth doy).2 ≤ 28)) := by
  have hmp : 0 ≤ (5 * doy + 2) / 153 ∧ (5 * doy + 2) / 153 ≤ 11 := by omega
  unfold marchMonth
  dsimp only
  obtain ⟨hlow, hhigh⟩ := hmp
  generalize hgen : (5 * doy + 2) / 153 = mp at hlow hhigh
  interval_cases mp <;> simp [daysBefore, monthDays] <;> omega

theorem monthDays_le (y : Int) {m : Nat} (hm : 1 ≤ m) (hm' : m ≤ 12) :
    monthDays y m ≤ 31 ∧ (m = 2 → monthDays y m ≤ 29) ∧
      (m ≠ 2 → daysBefore m + (monthDays y m : Int) =
        (153 * ((if m > 2 then (m : Int) - 3 else (m : Int) + 9) + 1) + 2) / 5) := by
  unfold monthDays daysBefore
  by_cases hyear : LeapYear y
  · interval_cases m <;> simp [hyear]
  · interval_cases m <;> simp [hyear]

/-- The month a day is in, by the days before it. -/
theorem monthOf_daysBefore {mp day : Int} (h : 0 ≤ mp) (h' : mp ≤ 11) (hd : 0 ≤ day)
    (hd' : (153 * mp + 2) / 5 + day < (153 * (mp + 1) + 2) / 5) :
    (5 * ((153 * mp + 2) / 5 + day) + 2) / 153 = mp := by
  interval_cases mp <;> omega

/-- The day of a March-based year a date is. -/
theorem marchMonth_eq {y : Int} {m d : Nat} (h : CivilDate y m d) :
    0 ≤ daysBefore m + (d : Int) - 1 ∧ daysBefore m + (d : Int) - 1 ≤ 365 ∧
      (daysBefore m + (d : Int) - 1 = 365 → MarchLeap (marchYear y m)) ∧
      marchMonth (daysBefore m + (d : Int) - 1) = (m, d) := by
  obtain ⟨⟨hm, hm'⟩, hd, hd'⟩ := h
  obtain ⟨hlong, hfeb, hother⟩ := monthDays_le y hm hm'
  have hdays : 0 ≤ daysBefore m ∧ daysBefore m ≤ 337 ∧ (m ≠ 2 → daysBefore m ≤ 306) := by
    unfold daysBefore
    split <;> omega
  have hmarch : (m ≠ 2 → daysBefore m + (monthDays y m : Int) ≤ 337) := by
    intro hne
    rw [hother hne]
    split <;> omega
  refine ⟨by omega, by omega, fun hlast => ?_, ?_⟩
  · have htwo : m = 2 := by omega
    subst htwo
    rw [marchLeap_marchYear (le_refl _)]
    by_contra hyear
    have hshort : monthDays y 2 = 28 := by simp [monthDays, hyear]
    have hbefore : daysBefore 2 = 337 := by decide
    omega
  · have hmonth : (5 * (daysBefore m + (d : Int) - 1) + 2) / 153 =
        if m > 2 then (m : Int) - 3 else (m : Int) + 9 := by
      have hsum : daysBefore m + (d : Int) - 1 =
          (153 * (if m > 2 then (m : Int) - 3 else (m : Int) + 9) + 2) / 5 + ((d : Int) - 1) := by
        unfold daysBefore
        ring
      rw [hsum]
      apply monthOf_daysBefore
      · split <;> omega
      · split <;> omega
      · omega
      · by_cases htwo : m = 2
        · subst htwo
          simp only [gt_iff_lt, lt_self_iff_false, if_false]
          have := hfeb rfl
          omega
        · rw [← hother htwo]
          unfold daysBefore
          omega
    unfold marchMonth
    dsimp only
    rw [hmonth]
    have hback : daysBefore m + (d : Int) - 1 -
        (153 * (if m > 2 then (m : Int) - 3 else (m : Int) + 9) + 2) / 5 + 1 = d := by
      unfold daysBefore
      ring
    rw [hback]
    refine Prod.ext ?_ (by simp)
    dsimp only
    split <;> split <;> omega

/-- **A date's days are its own.** -/
theorem civilFromDays_daysFromCivil {y : Int} {m d : Nat} (h : CivilDate y m d) :
    civilFromDays (daysFromCivil y m d) = (y, m, d) := by
  obtain ⟨hlow, hhigh, hleap, hmonth⟩ := marchMonth_eq h
  rw [daysFromCivil_march, civilFromDays_march hlow hhigh hleap, hmonth]
  unfold marchYear
  split <;> simp

/-- **A day's date is of the calendar, and its days are the day.** -/
theorem daysFromCivil_civilFromDays (z : Int) :
    CivilDate (civilFromDays z).1 (civilFromDays z).2.1 (civilFromDays z).2.2 ∧
      daysFromCivil (civilFromDays z).1 (civilFromDays z).2.1 (civilFromDays z).2.2 = z := by
  obtain ⟨year, doy, rfl, hlow, hhigh, hleap⟩ := march_exists z
  rw [civilFromDays_march hlow hhigh hleap]
  obtain ⟨hm, hm', hd, hdays, hlong, hshort⟩ := marchMonth_date hlow hhigh
  generalize marchMonth doy = date at *
  obtain ⟨m, d⟩ := date
  dsimp only at *
  have hyear : marchYear (year + if m ≤ 2 then 1 else 0) m = year := by
    unfold marchYear
    split <;> simp
  refine ⟨⟨⟨hm, hm'⟩, hd, ?_⟩, ?_⟩
  · by_cases hfeb : m = 2
    · obtain ⟨h29, h28⟩ := hshort hfeb
      subst hfeb
      have hyear' : marchYear (year + 1) 2 = year := hyear
      have hmonth : monthDays (year + if 2 ≤ 2 then 1 else 0) 2 =
          if LeapYear (year + 1) then 29 else 28 := rfl
      rw [hmonth]
      by_cases hleap' : LeapYear (year + 1)
      · rw [if_pos hleap']
        exact h29
      · rw [if_neg hleap']
        apply h28
        intro hlast
        rw [← marchLeap_marchYear (m := 2) (le_refl _), hyear'] at hleap'
        exact hleap' (hleap hlast)
    · exact hlong _ hfeb
  · rw [daysFromCivil_march, hyear, hdays]

/-! ### Months -/

/-- The months before the one a day is in. -/
def monthOf (z : Int) : Int := 12 * (civilFromDays z).1 + ((civilFromDays z).2.1 : Int) - 1

/-- The first day of a month, by the months before it. -/
def monthStart (k : Int) : Int := daysFromCivil (k / 12) (k % 12 + 1).toNat 1

theorem daysFromCivil_day (y : Int) (m d : Nat) :
    daysFromCivil y m d = daysFromCivil y m 1 + (d : Int) - 1 := by
  rw [daysFromCivil_march, daysFromCivil_march]
  push_cast
  ring

theorem monthStart_of {y : Int} {m : Nat} (hm : 1 ≤ m) (hm' : m ≤ 12) :
    monthStart (12 * y + (m : Int) - 1) = daysFromCivil y m 1 := by
  have hyear : (12 * y + (m : Int) - 1) / 12 = y := by omega
  have hmonth : ((12 * y + (m : Int) - 1) % 12 + 1).toNat = m := by omega
  rw [monthStart, hyear, hmonth]

theorem marchStart_succ (y : Int) :
    marchStart (y + 1) = marchStart y + (if MarchLeap y then 366 else 365) := by
  unfold marchStart
  by_cases h : MarchLeap y
  · rw [if_pos h]
    unfold MarchLeap at h
    omega
  · rw [if_neg h]
    unfold MarchLeap at h
    omega

/-- A month has its days, and the next begins after them. -/
theorem daysFromCivil_succ {y : Int} {m : Nat} (hm : 1 ≤ m) (hm' : m ≤ 12) :
    (if m = 12 then daysFromCivil (y + 1) 1 1 else daysFromCivil y (m + 1) 1) =
      daysFromCivil y m 1 + (monthDays y m : Int) := by
  have hyear := marchStart_succ (y - 1)
  have hleap : MarchLeap (y - 1) ↔ LeapYear y := marchLeap_marchYear (m := 1) (by omega)
  rw [sub_add_cancel] at hyear
  simp only [daysFromCivil_march, marchYear, daysBefore]
  by_cases htwo : m = 2
  · subst htwo
    simp only [Nat.reduceEqDiff, if_false, Nat.reduceAdd, monthDays]
    by_cases h : LeapYear y
    · simp only [if_pos h, if_pos (hleap.mpr h)] at hyear ⊢
      simp only [le_refl, if_true, gt_iff_lt, lt_self_iff_false, if_false]
      norm_num
      omega
    · simp only [if_neg h, if_neg (fun hl => h (hleap.mp hl))] at hyear ⊢
      simp only [le_refl, if_true, gt_iff_lt, lt_self_iff_false, if_false]
      norm_num
      omega
  · clear hyear hleap
    interval_cases m <;> simp [monthDays] at htwo ⊢ <;> omega

theorem monthStart_succ (k : Int) :
    monthStart (k + 1) = monthStart k + (monthDays (k / 12) (k % 12 + 1).toNat : Int) := by
  have hm : 1 ≤ (k % 12 + 1).toNat := by omega
  have hm' : (k % 12 + 1).toNat ≤ 12 := by omega
  rw [monthStart, monthStart, ← daysFromCivil_succ hm hm']
  split
  · have hyear : (k + 1) / 12 = k / 12 + 1 := by omega
    have hmonth : ((k + 1) % 12 + 1).toNat = 1 := by omega
    rw [hyear, hmonth]
  · have hyear : (k + 1) / 12 = k / 12 := by omega
    have hmonth : ((k + 1) % 12 + 1).toNat = (k % 12 + 1).toNat + 1 := by omega
    rw [hyear, hmonth]

theorem monthDays_pos (y : Int) (m : Nat) : 0 < monthDays y m := by
  unfold monthDays
  split
  · split <;> omega
  · split <;> omega

/-- Months follow one another. -/
theorem monthStart_strictMono : StrictMono monthStart := by
  apply strictMono_int_of_lt_succ
  intro k
  have hdays := monthDays_pos (k / 12) (k % 12 + 1).toNat
  rw [monthStart_succ]
  omega

/-- A day is in its month. -/
theorem monthOf_spec (z : Int) : monthStart (monthOf z) ≤ z ∧ z < monthStart (monthOf z + 1) := by
  obtain ⟨⟨⟨hm, hm'⟩, hd, hd'⟩, hz⟩ := daysFromCivil_civilFromDays z
  have hstart : monthStart (monthOf z) =
      daysFromCivil (civilFromDays z).1 (civilFromDays z).2.1 1 := monthStart_of hm hm'
  have hyear : monthOf z / 12 = (civilFromDays z).1 := by
    unfold monthOf
    omega
  have hmonth : (monthOf z % 12 + 1).toNat = (civilFromDays z).2.1 := by
    unfold monthOf
    omega
  rw [daysFromCivil_day] at hz
  rw [monthStart_succ, hstart, hyear, hmonth]
  omega

/-- A month is not after a day exactly where it is not after the day's. -/
theorem monthStart_le_iff (k z : Int) : monthStart k ≤ z ↔ k ≤ monthOf z := by
  obtain ⟨hlow, hhigh⟩ := monthOf_spec z
  constructor
  · intro h
    by_contra hk
    have hbeyond := monthStart_strictMono.monotone (show monthOf z + 1 ≤ k by omega)
    omega
  · intro hk
    have hbefore := monthStart_strictMono.monotone hk
    omega

/-- Days of one date are one day. -/
theorem civilFromDays_injective : Function.Injective civilFromDays := by
  intro a b h
  rw [← (daysFromCivil_civilFromDays a).2, h, (daysFromCivil_civilFromDays b).2]

/-! ### Numbers padded with zeros -/

/-- The number a padded one writes. -/
def unpadded : List Char → Int
  | [] => 0
  | c :: rest =>
      if c = '-' then -(Nat.ofDigitChars 10 rest 0 : Int) else (Nat.ofDigitChars 10 (c :: rest) 0 : Int)

theorem padded_toList (width : Nat) (n : Int) :
    (padded width n).toList = (if n < 0 then ['-'] else []) ++
      (List.replicate (width - ((if n < 0 then 1 else 0) + (Nat.toDigits 10 n.natAbs).length)) '0' ++
        Nat.toDigits 10 n.natAbs) := by
  unfold padded
  dsimp only
  have hlength : (toString n.natAbs).length = (Nat.toDigits 10 n.natAbs).length := by
    rw [Nat.toString_eq_repr, ← String.length_toList, Nat.toList_repr]
  have hsign : "-".length = 1 := rfl
  rw [hlength]
  by_cases hneg : n < 0 <;> simp [hneg, hsign, String.toList_append, Nat.toList_repr]

/-- A padded number is the number. -/
theorem unpadded_padded (width : Nat) (n : Int) : unpadded (padded width n).toList = n := by
  rw [padded_toList]
  have hvalue : ∀ k, Nat.ofDigitChars 10 (List.replicate k '0' ++ Nat.toDigits 10 n.natAbs) 0 =
      n.natAbs := by
    intro k
    rw [Nat.ofDigitChars_append, Nat.ofDigitChars_replicate_zero, Nat.mul_zero,
      Nat.ofDigitChars_ten_toDigits]
  by_cases hneg : n < 0
  · rw [if_pos hneg, if_pos hneg, List.singleton_append, unpadded, if_pos rfl, hvalue]
    omega
  · rw [if_neg hneg, if_neg hneg, List.nil_append]
    generalize hk : width - (0 + (Nat.toDigits 10 n.natAbs).length) = k
    have hdigits : ∀ c ∈ List.replicate k '0' ++ Nat.toDigits 10 n.natAbs, c ≠ '-' := by
      intro c hc
      rcases List.mem_append.mp hc with hzero | hdigit
      · rw [List.eq_of_mem_replicate hzero]
        decide
      · have h := Nat.isDigit_of_mem_toDigits (by decide) (by decide) hdigit
        rintro rfl
        exact absurd h (by decide)
    have hvalue' := hvalue k
    cases hlist : List.replicate k '0' ++ Nat.toDigits 10 n.natAbs with
    | nil =>
      have hempty := (List.append_eq_nil_iff.mp hlist).2
      exact absurd hempty Nat.toDigits_ne_nil
    | cons c rest =>
      rw [hlist] at hvalue' hdigits
      rw [unpadded, if_neg (hdigits c List.mem_cons_self), hvalue']
      omega

theorem padded_inj {width : Nat} {a b : Int} (h : (padded width a).toList = (padded width b).toList) :
    a = b := by
  rw [← unpadded_padded width a, h, unpadded_padded]

/-- A number of at most two digits takes two characters. -/
theorem padded_two_length {n : Int} (h : 0 ≤ n) (h' : n < 100) :
    (padded 2 n).toList.length = 2 := by
  have hdigits : (Nat.toDigits 10 n.natAbs).length ≤ 2 := by
    rw [Nat.length_toDigits_le_iff (by decide) (by decide)]
    omega
  rw [padded_toList, if_neg (by omega), if_neg (by omega)]
  simp only [List.nil_append, List.length_append, List.length_replicate]
  omega

/-! ### Buckets -/

/-- The bucket a day is in, among those of its unit; a week by its Thursday. -/
def bucketNumber (unit : String) (z : Int) : Int :=
  if unit = "day" then z
  else if unit = "week" then (z + 3) / 7
  else if unit = "month" then monthOf z
  else if unit = "quarter" then monthOf z / 3
  else monthOf z / 12

/-- A year and what follows it are read apart. -/
theorem padded_append_inj {a b : Int} {sep s s' : String}
    (h : padded 4 a ++ sep ++ s = padded 4 b ++ sep ++ s')
    (hlength : s.toList.length = s'.toList.length) : a = b ∧ s = s' := by
  have hlist := congrArg String.toList h
  simp only [String.toList_append] at hlist
  obtain ⟨hfirst, hrest⟩ := List.append_inj' hlist hlength
  obtain ⟨hyear, _⟩ := List.append_inj' hfirst rfl
  exact ⟨padded_inj hyear, String.toList_inj.mp hrest⟩

theorem civil_month (z : Int) : 1 ≤ (civilFromDays z).2.1 ∧ (civilFromDays z).2.1 ≤ 12 :=
  (daysFromCivil_civilFromDays z).1.month

theorem civil_day (z : Int) : 1 ≤ (civilFromDays z).2.2 ∧ (civilFromDays z).2.2 ≤ 31 := by
  obtain ⟨⟨hm, hm'⟩, hd, hd'⟩ := (daysFromCivil_civilFromDays z).1
  have hlong := (monthDays_le (civilFromDays z).1 hm hm').1
  omega

theorem dayText_inj {a b : Int}
    (h : padded 4 (civilFromDays a).1 ++ "-" ++ padded 2 (civilFromDays a).2.1 ++ "-" ++
        padded 2 (civilFromDays a).2.2 =
      padded 4 (civilFromDays b).1 ++ "-" ++ padded 2 (civilFromDays b).2.1 ++ "-" ++
        padded 2 (civilFromDays b).2.2) : a = b := by
  have ha := civil_month a
  have hb := civil_month b
  have hda := civil_day a
  have hdb := civil_day b
  have hlist := congrArg String.toList h
  simp only [String.toList_append] at hlist
  obtain ⟨hfirst, hday⟩ := List.append_inj' hlist (by
    rw [padded_two_length (by omega) (by omega), padded_two_length (by omega) (by omega)])
  obtain ⟨hfirst, _⟩ := List.append_inj' hfirst rfl
  obtain ⟨hfirst, hmonth⟩ := List.append_inj' hfirst (by
    rw [padded_two_length (by omega) (by omega), padded_two_length (by omega) (by omega)])
  obtain ⟨hyear, _⟩ := List.append_inj' hfirst rfl
  apply civilFromDays_injective
  have hmonth := padded_inj hmonth
  have hday := padded_inj hday
  exact Prod.ext (padded_inj hyear) (Prod.ext (by omega) (by omega))

/-- The year of a week's Thursday, and the weeks of it before that day. -/
theorem thursday_spec (z : Int) :
    daysFromCivil (civilFromDays z).1 1 1 ≤ z ∧ z ≤ daysFromCivil (civilFromDays z).1 1 1 + 365 := by
  have hm := civil_month z
  have hyear : monthStart (12 * (civilFromDays z).1) = daysFromCivil (civilFromDays z).1 1 1 := by
    have h := monthStart_of (y := (civilFromDays z).1) (m := 1) (le_refl _) (by omega)
    rw [← h]
    congr 1
    push_cast
    ring
  have hnext : monthStart (12 * (civilFromDays z).1 + 12) ≤
      daysFromCivil (civilFromDays z).1 1 1 + 366 := by
    have h := monthStart_of (y := (civilFromDays z).1 + 1) (m := 1) (le_refl _) (by omega)
    have hsum : 12 * ((civilFromDays z).1 + 1) + ((1 : Nat) : Int) - 1 =
        12 * (civilFromDays z).1 + 12 := by
      push_cast
      ring
    rw [hsum] at h
    have hlong := marchStart_succ ((civilFromDays z).1 - 1)
    rw [sub_add_cancel] at hlong
    rw [h, daysFromCivil_march, daysFromCivil_march]
    have hnow : marchYear (civilFromDays z).1 1 = (civilFromDays z).1 - 1 := rfl
    have hthen : marchYear ((civilFromDays z).1 + 1) 1 = (civilFromDays z).1 := by
      unfold marchYear
      simp
    rw [hnow, hthen]
    split at hlong <;> omega
  have hspec := monthOf_spec z
  have hlow : monthStart (12 * (civilFromDays z).1) ≤ monthStart (monthOf z) :=
    monthStart_strictMono.monotone (by unfold monthOf; omega)
  have hhigh : monthStart (monthOf z + 1) ≤ monthStart (12 * (civilFromDays z).1 + 12) :=
    monthStart_strictMono.monotone (by unfold monthOf; omega)
  omega

/-- What a time's bucket is written from. -/
theorem bucket_text (unit : String) (seconds : Int) :
    bucket unit seconds =
      (let date := civilFromDays (seconds / 86400)
      if unit = "day" then
        padded 4 date.1 ++ "-" ++ padded 2 date.2.1 ++ "-" ++ padded 2 date.2.2
      else if unit = "week" then
        let thursday := seconds / 86400 - (seconds / 86400 + 3) % 7 + 3
        let year := (civilFromDays thursday).1
        padded 4 year ++ "-W" ++ padded 2 ((thursday - daysFromCivil year 1 1).tdiv 7 + 1)
      else if unit = "month" then padded 4 date.1 ++ "-" ++ padded 2 date.2.1
      else if unit = "quarter" then
        padded 4 date.1 ++ "-Q" ++ toString ((date.2.1 - 1) / 3 + 1)
      else padded 4 date.1) := rfl

/-- **A time's bucket is written as no other is.** -/
theorem bucket_eq_iff (unit : String) (s t : Int) :
    bucket unit s = bucket unit t ↔
      bucketNumber unit (s / 86400) = bucketNumber unit (t / 86400) := by
  generalize hs : s / 86400 = a
  generalize ht : t / 86400 = b
  have hma := civil_month a
  have hmb := civil_month b
  rw [bucket_text, bucket_text]
  unfold bucketNumber
  dsimp only
  rw [hs, ht]
  by_cases hday : unit = "day"
  · simp only [if_pos hday]
    exact ⟨dayText_inj, fun h => by rw [h]⟩
  simp only [if_neg hday]
  by_cases hweek : unit = "week"
  · simp only [if_pos hweek]
    have hthursday : ∀ z : Int, z - (z + 3) % 7 + 3 = 7 * ((z + 3) / 7) := by
      intro z
      omega
    simp only [hthursday]
    constructor
    · intro htext
      have hwa := thursday_spec (7 * ((a + 3) / 7))
      have hwb := thursday_spec (7 * ((b + 3) / 7))
      have hta := Int.tdiv_eq_ediv_of_nonneg (b := 7) (Int.sub_nonneg.mpr hwa.1)
      have htb := Int.tdiv_eq_ediv_of_nonneg (b := 7) (Int.sub_nonneg.mpr hwb.1)
      rw [hta, htb] at htext
      obtain ⟨hyear, hnumber⟩ := padded_append_inj htext (by
        rw [padded_two_length (by omega) (by omega), padded_two_length (by omega) (by omega)])
      have hnumber := padded_inj (congrArg String.toList hnumber)
      rw [hyear] at hnumber hwa
      omega
    · intro h
      rw [h]
  simp only [if_neg hweek]
  by_cases hmonth : unit = "month"
  · simp only [if_pos hmonth]
    constructor
    · intro htext
      obtain ⟨hyear, hnumber⟩ := padded_append_inj htext (by
        rw [padded_two_length (by omega) (by omega), padded_two_length (by omega) (by omega)])
      have hnumber := padded_inj (congrArg String.toList hnumber)
      unfold monthOf
      omega
    · intro h
      unfold monthOf at h
      have hyear : (civilFromDays a).1 = (civilFromDays b).1 := by omega
      have hnumber : (civilFromDays a).2.1 = (civilFromDays b).2.1 := by omega
      rw [hyear, hnumber]
  simp only [if_neg hmonth]
  by_cases hquarter : unit = "quarter"
  · simp only [if_pos hquarter]
    have hfirst : ∀ m : Nat, 1 ≤ m → m ≤ 12 →
        (toString ((m - 1) / 3 + 1)).toList.length = 1 := by
      intro m hm hm'
      interval_cases m <;> rfl
    constructor
    · intro htext
      obtain ⟨hyear, hnumber⟩ := padded_append_inj htext (by
        rw [hfirst _ hma.1 hma.2, hfirst _ hmb.1 hmb.2])
      rw [Nat.toString_eq_repr, Nat.toString_eq_repr] at hnumber
      have hnumber := Nat.repr_injective hnumber
      unfold monthOf
      omega
    · intro h
      unfold monthOf at h
      have hyear : (civilFromDays a).1 = (civilFromDays b).1 := by omega
      have hnumber : ((civilFromDays a).2.1 - 1) / 3 = ((civilFromDays b).2.1 - 1) / 3 := by omega
      rw [hyear, hnumber]
  · simp only [if_neg hquarter]
    constructor
    · intro htext
      have hyear := padded_inj (congrArg String.toList htext)
      unfold monthOf
      omega
    · intro h
      unfold monthOf at h
      have hyear : (civilFromDays a).1 = (civilFromDays b).1 := by omega
      rw [hyear]

end ObjectFlow
