import Mathlib

/-!
# Dates

A DATE is a number of days from 2000-01-01. `days_from_civil` and `civil_from_days` go from a date
of the proleptic Gregorian calendar to its number and back. They count years from 1 March, so that
the leap day is the last day of a year, in eras of 400 years or 146097 days.

Both take the era by a division that rounds down, and for negative numbers they still subtract first
what a division that rounds towards zero would need. So the era is one too early for most days
before 0000-03-01: two numbers have the date 0000-02-29 (`leap_day_twice`). Both functions are then
one day off, `days_from_civil` in all years but the last one of an era and `civil_from_days` on all
days but the last one of an era, and what they do fits together where both are off.

**Theorem (`civil_days_bijection`).** A number goes to a valid date and back, and the next number to
the next date, exactly if it is that of 0000-02-29 or later, or of a day before the last two days of
its year, which begins in March and is not the last one of its era. A date goes to its number and
back exactly if it is 0000-03-01 or later, the last day of an era, or a day of another year than the
last one of its era and not the first day of that year.
-/

namespace UltraSql.Calendar

/-- `i32::try_from` -/
def i32 (n : ℤ) : Option ℤ := if -2 ^ 31 ≤ n ∧ n < 2 ^ 31 then some n else none

/-- `u32::try_from` -/
def u32 (n : ℤ) : Option ℕ := if 0 ≤ n ∧ n < 2 ^ 32 then some n.toNat else none

def isLeapYear (year : ℤ) : Bool := year % 4 = 0 && (year % 100 ≠ 0 || year % 400 = 0)

def daysInMonth (year : ℤ) (month : ℕ) : Option ℕ :=
  if month ∈ [1, 3, 5, 7, 8, 10, 12] then some 31
  else if month ∈ [4, 6, 9, 11] then some 30
  else if month = 2 then some (if isLeapYear year then 29 else 28)
  else none

/-- The number of a date, in 64-bit arithmetic, which the years of 32 bits do not overflow. -/
def dayNumber (year : ℤ) (month day : ℕ) : ℤ :=
  let y := year - if month ≤ 2 then 1 else 0
  let era := if 0 ≤ y then y / 400 else (y - 399) / 400
  let yoe := y - era * 400
  let mp : ℤ := if 2 < month then month - 3 else month + 9
  let doy := (153 * mp + 2) / 5 + day - 1
  let doe := yoe * 365 + (yoe / 4 - yoe / 100) + doy
  era * 146097 + doe - 719468 - 10957

/-- `days_from_civil` -/
def daysFromCivil (year : ℤ) (month day : ℕ) : Option ℤ := do
  let last ← daysInMonth year month
  if day = 0 ∨ last < day then none else i32 (dayNumber year month day)

/-- `civil_from_days` -/
def civilFromDays (days : ℤ) : Option (ℤ × ℕ × ℕ) := do
  let z := days + 10957 + 719468
  let era := if 0 ≤ z then z / 146097 else (z - 146096) / 146097
  let doe := z - era * 146097
  let yoe := (doe - doe / 1460 + doe / 36524 - doe / 146096) / 365
  let y := yoe + era * 400
  let doy := doe - (365 * yoe + yoe / 4 - yoe / 100)
  let mp := (5 * doy + 2) / 153
  let day := doy - (153 * mp + 2) / 5 + 1
  let month := if mp < 10 then mp + 3 else mp - 9
  let year := if month ≤ 2 then y + 1 else y
  return (← i32 year, ← u32 month, ← u32 day)

/-! ## The calendar -/

def Valid (year : ℤ) (month day : ℕ) : Prop := ∃ last ∈ daysInMonth year month, 1 ≤ day ∧ day ≤ last

/-- The day after a date. -/
def nextDay (year : ℤ) (month day : ℕ) : ℤ × ℕ × ℕ :=
  if (daysInMonth year month).any (day < ·) then (year, month, day + 1)
  else if month < 12 then (year, month + 1, 1)
  else (year + 1, 1, 1)

/-- The month, counted from March. -/
def fromMarch (month : ℕ) : ℤ := if 2 < month then month - 3 else month + 9

/-- The year that begins in March. -/
def marchYear (year : ℤ) (month : ℕ) : ℤ := year - if month ≤ 2 then 1 else 0

/-- The year of an era in which its day `doe` is. -/
def yearOfEra (doe : ℤ) : ℤ := (doe - doe / 1460 + doe / 36524 - doe / 146096) / 365

/-- The number is that of 0000-02-29 or later, or of a day before the last two days of its year,
which is not the last one of its era. -/
def RegularDay (d : ℤ) : Prop :=
  -730426 ≤ d ∨ (d + 730425) % 146097 < 145731 ∧
    yearOfEra ((d + 730425) % 146097 + 2) = yearOfEra ((d + 730425) % 146097)

/-- The date is 0000-03-01 or later, the last day of an era, or a day of another year than the last
one of its era and not the first day of that year. -/
def RegularDate (year : ℤ) (month day : ℕ) : Prop :=
  0 ≤ marchYear year month ∨
    if marchYear year month % 400 = 399 then month = 2 ∧ day = 29 else ¬ (month = 3 ∧ day = 1)

/-! ## The days of an era -/

/-- The day `doe` of an era is the day `r` of the year `t` of the four years `q` of the century
`c`. -/
structure Parts (doe c q t r : ℤ) : Prop where
  century : 0 ≤ c ∧ c ≤ 3
  four : 0 ≤ q ∧ q ≤ 24
  year : 0 ≤ t ∧ t ≤ 3
  day : 0 ≤ r ∧ (r ≤ 364 ∨ r = 365 ∧ t = 3 ∧ (q < 24 ∨ c = 3))
  sum : doe = 36524 * c + 1461 * q + 365 * t + r

variable {doe c q t r era d : ℤ}

theorem exists_parts (doe : ℤ) (h₀ : 0 ≤ doe) (h₁ : doe < 146097) :
    ∃ c q t r, Parts doe c q t r := by
  let c := min (doe / 36524) 3
  let q := min ((doe - 36524 * c) / 1461) 24
  let t := min ((doe - 36524 * c - 1461 * q) / 365) 3
  exact ⟨c, q, t, doe - 36524 * c - 1461 * q - 365 * t, by omega, by omega, by omega, by omega,
    by omega⟩

namespace Parts

variable (h : Parts doe c q t r)

include h

/-- The divisions count the leap years that have passed. -/
theorem yoe_eq : yearOfEra doe = 100 * c + 4 * q + t := by
  obtain ⟨hc, hq, ht, hr, hd⟩ := h
  have h₁ : doe / 1460 = 25 * c + q ∧ 24 * c + q + 365 * t + r < 1460 ∨
      doe / 1460 = 25 * c + q + 1 ∧ 1460 ≤ 24 * c + q + 365 * t + r := by omega
  have h₂ : doe / 36524 = c ∧ doe / 146096 = 0 ∨
      doe / 36524 = 4 ∧ doe / 146096 = 1 ∧ doe = 146096 := by omega
  unfold yearOfEra
  rcases h₁ with ⟨h₁, _⟩ | ⟨h₁, _⟩ <;> rcases h₂ with ⟨h₂, h₃⟩ | ⟨h₂, h₃, _⟩ <;>
    rw [h₁, h₂, h₃] <;> omega

/-- With an era too early the year is still right. -/
theorem yoe_shift (hlt : doe < 146096) :
    yearOfEra (doe + 146097) = 400 + (100 * c + 4 * q + t) := by
  obtain ⟨hc, hq, ht, hr, hd⟩ := h
  have h₁ : (doe + 146097) / 1460 = 100 + 25 * c + q ∧ 24 * c + q + 365 * t + r < 1363 ∨
      (doe + 146097) / 1460 = 101 + 25 * c + q ∧ 1363 ≤ 24 * c + q + 365 * t + r := by omega
  have h₂ : (doe + 146097) / 36524 = 4 + c ∧ (doe + 146097) / 146096 = 1 ∨
      (doe + 146097) / 36524 = 5 + c ∧ (doe + 146097) / 146096 = 1 ∧
        1461 * q + 365 * t + r = 36523 ∨
      (doe + 146097) / 36524 = 8 ∧ (doe + 146097) / 146096 = 2 ∧ doe = 146095 := by omega
  unfold yearOfEra
  rcases h₁ with ⟨h₁, _⟩ | ⟨h₁, _⟩ <;> rcases h₂ with ⟨h₂, h₃⟩ | ⟨h₂, h₃, _⟩ | ⟨h₂, h₃, _⟩ <;>
    rw [h₁, h₂, h₃] <;> omega

theorem lt_era : 0 ≤ doe ∧ doe < 146097 := by
  obtain ⟨hc, hq, ht, hr, hd⟩ := h
  omega

/-- The day of the year. -/
theorem doy_eq : doe - (365 * (100 * c + 4 * q + t) + (100 * c + 4 * q + t) / 4 -
    (100 * c + 4 * q + t) / 100) = r := by
  obtain ⟨hc, hq, ht, hr, hd⟩ := h
  omega

theorem unique {c' q' t' r' : ℤ} (h' : Parts doe c' q' t' r') :
    c = c' ∧ q = q' ∧ t = t' ∧ r = r' := by
  have hyoe := h.yoe_eq.symm.trans h'.yoe_eq
  obtain ⟨hc, hq, ht, -, hd⟩ := h
  obtain ⟨hc', hq', ht', -, hd'⟩ := h'
  omega

/-- Another day of the same year. -/
theorem move {k : ℤ} (hk : 0 ≤ r + k ∧ (r + k ≤ 364 ∨ r + k = 365 ∧ t = 3 ∧ (q < 24 ∨ c = 3))) :
    Parts (doe + k) c q t (r + k) :=
  ⟨h.century, h.four, h.year, hk, by rw [h.sum]; ring⟩

theorem start : Parts (doe - r) c q t 0 :=
  ⟨h.century, h.four, h.year, ⟨le_rfl, .inl (by norm_num)⟩, by rw [h.sum]; ring⟩

/-- The last year of an era has 366 days. -/
theorem lt_last_iff : doe < 145731 ↔ 100 * c + 4 * q + t ≠ 399 := by
  obtain ⟨hc, hq, ht, hr, hd⟩ := h
  omega

/-- The second day after it is in the same year. -/
theorem regular_iff : (doe < 145731 ∧ yearOfEra (doe + 2) = yearOfEra doe) ↔
    100 * c + 4 * q + t ≠ 399 ∧ (r + 2 ≤ 364 ∨ r + 2 = 365 ∧ t = 3 ∧ (q < 24 ∨ c = 3)) := by
  rw [h.lt_last_iff]
  refine and_congr_right fun hne => ⟨fun hsame => ?_, fun hr => ?_⟩
  · obtain ⟨c', q', t', r', h'⟩ :=
      exists_parts (doe + 2) (by have := h.lt_era; omega) (by have := h.lt_last_iff.2 hne; omega)
    rw [h.yoe_eq, h'.yoe_eq] at hsame
    obtain ⟨hc, hq, ht, -, hd⟩ := h
    obtain ⟨hc', hq', ht', hr', hd'⟩ := h'
    omega
  · rw [h.yoe_eq, (h.move ⟨by have := h.day.1; omega, hr⟩).yoe_eq]

end Parts

/-! ## The months of a year -/

/-- The length of a month in a leap year. -/
def longest (month : ℕ) : ℕ :=
  if month ∈ [1, 3, 5, 7, 8, 10, 12] then 31 else if month ∈ [4, 6, 9, 11] then 30 else 29

theorem valid_iff {year : ℤ} {month day : ℕ} : Valid year month day ↔
    (1 ≤ month ∧ month ≤ 12) ∧ (1 ≤ day ∧ day ≤ longest month) ∧
      (month = 2 → day = 29 → isLeapYear year = true) := by
  by_cases hm : 1 ≤ month ∧ month ≤ 12
  · obtain ⟨h₁, h₂⟩ := hm
    interval_cases month <;> simp [Valid, daysInMonth, longest]
    split_ifs with hleap
    · simp [hleap]
    · constructor
      · rintro ⟨h, hle⟩
        exact ⟨⟨h, by omega⟩, fun h29 => by omega⟩
      · rintro ⟨⟨h, hle⟩, h29⟩
        exact ⟨h, not_lt.1 fun hlt => hleap (h29 (by omega))⟩
  · have hnone : daysInMonth year month = none := by
      simp only [daysInMonth, List.mem_cons, List.not_mem_nil, or_false]
      rw [if_neg (by omega), if_neg (by omega), if_neg (by omega)]
    simp [Valid, hnone, hm]

variable {year : ℤ} {month day : ℕ}

/-- The day of the month, which may be 30 February, is the day `r` of a year that begins in
March. -/
structure DayOf (r : ℤ) (month day : ℕ) : Prop where
  months : 1 ≤ month ∧ month ≤ 12
  days : 1 ≤ day ∧ day ≤ 31
  mp : (5 * r + 2) / 153 = fromMarch month
  doy : r = (153 * fromMarch month + 2) / 5 + day - 1

theorem exists_dayOf (h₀ : 0 ≤ r) (h₁ : r ≤ 366) : ∃ month day, DayOf r month day := by
  have hmp : 0 ≤ (5 * r + 2) / 153 ∧ (5 * r + 2) / 153 ≤ 11 := by omega
  obtain ⟨mp, hmp'⟩ : ∃ mp, mp = (5 * r + 2) / 153 := ⟨_, rfl⟩
  rw [← hmp'] at hmp
  refine ⟨(if mp < 10 then mp + 3 else mp - 9).toNat, (r - (153 * mp + 2) / 5 + 1).toNat, ?_⟩
  obtain ⟨hl, hu⟩ := hmp
  interval_cases mp <;> constructor <;> simp [fromMarch] <;> omega

theorem dayOf_of_longest (hm : 1 ≤ month ∧ month ≤ 12) (hd : 1 ≤ day ∧ day ≤ longest month) :
    DayOf ((153 * fromMarch month + 2) / 5 + day - 1) month day := by
  have hle : longest month ≤ 31 := by
    unfold longest
    split_ifs <;> omega
  refine ⟨hm, ⟨hd.1, hd.2.trans hle⟩, ?_, rfl⟩
  obtain ⟨h₁, h₂⟩ := hm
  interval_cases month <;> simp [longest, fromMarch] at hd ⊢ <;> omega

namespace DayOf

variable (h : DayOf r month day)

include h

theorem cases : (day ≤ longest month ∧ 0 ≤ r ∧ r ≤ 365 ∨ r = 366) ∧
    (r = 365 ↔ month = 2 ∧ day = 29) ∧ (r = 0 ↔ month = 3 ∧ day = 1) := by
  obtain ⟨⟨h₁, h₂⟩, hd, hm, hr⟩ := h
  interval_cases month <;> simp [longest, fromMarch] at hm hr ⊢ <;> omega

theorem march : (if fromMarch month < 10 then fromMarch month + 3 else fromMarch month - 9) =
    (month : ℤ) := by
  have := h.months
  unfold fromMarch
  split_ifs <;> omega

end DayOf

/-! ## Dates and their numbers -/

/-- The number of the day `r` of the year `yoe` of an era. -/
def number (era yoe r : ℤ) : ℤ :=
  era * 146097 + (365 * yoe + yoe / 4 - yoe / 100) + r - 730425

variable (era) in
theorem Parts.number_eq (h : Parts doe c q t r) :
    number era (100 * c + 4 * q + t) r = era * 146097 + doe - 730425 := by
  have := h.doy_eq
  unfold number
  omega

/-- The date is the day `r` of the year that has the parts. -/
structure IsDate (era c q t r year : ℤ) (month day : ℕ) : Prop where
  index : DayOf r month day
  years : year = era * 400 + (100 * c + 4 * q + t) + if month ≤ 2 then 1 else 0

namespace IsDate

variable (h : IsDate era c q t r year month day)

include h

theorem marchYear_eq : marchYear year month = era * 400 + (100 * c + 4 * q + t) := by
  rw [marchYear, h.years, add_sub_cancel_right]

theorem valid_iff (hp : Parts doe c q t 0) :
    Valid year month day ↔ r ≤ 364 ∨ r = 365 ∧ t = 3 ∧ (q < 24 ∨ c = 3) := by
  obtain ⟨hlong, hleap, -⟩ := h.index.cases
  have hyear := h.years
  obtain ⟨hc, hq, ht, -, -⟩ := hp
  rw [Calendar.valid_iff, and_iff_right h.index.months]
  constructor
  · rintro ⟨hday, hfeb⟩
    rcases hlong with ⟨-, -, hle⟩ | rfl
    · rcases hle.lt_or_eq with hlt | rfl
      · exact .inl (by omega)
      · obtain ⟨rfl, rfl⟩ := hleap.1 rfl
        have := hfeb rfl rfl
        simp only [isLeapYear, Bool.and_eq_true, Bool.or_eq_true, decide_eq_true_eq] at this
        rw [if_pos le_rfl] at hyear
        exact .inr ⟨rfl, by omega, by omega⟩
    · obtain ⟨⟨h₁, h₂⟩, hd, hm, hr⟩ := h.index
      interval_cases month <;> simp [longest, fromMarch] at hm hr hday
      omega
  · intro hr
    refine ⟨⟨h.index.days.1, ?_⟩, ?_⟩
    · rcases hlong with hlong | rfl
      · exact hlong.1
      · omega
    · rintro rfl rfl
      have := hleap.2 ⟨rfl, rfl⟩
      rw [if_pos le_rfl] at hyear
      simp only [isLeapYear, Bool.and_eq_true, Bool.or_eq_true, decide_eq_true_eq]
      omega

/-- **`days_from_civil`** is right from 0000-03-01 on and in the last year of an era, and a day too
early in the other years. -/
theorem dayNumber_eq (hp : Parts doe c q t 0) : dayNumber year month day =
    number era (100 * c + 4 * q + t) r -
      if 0 ≤ era ∨ 100 * c + 4 * q + t = 399 then 0 else 1 := by
  have hindex := h.index.doy
  have hy : year - (if month ≤ 2 then 1 else 0) = era * 400 + (100 * c + 4 * q + t) :=
    h.marchYear_eq
  obtain ⟨hc, hq, ht, -, -⟩ := hp
  obtain ⟨yoe, hyoe⟩ : ∃ yoe, yoe = 100 * c + 4 * q + t := ⟨_, rfl⟩
  rw [← hyoe] at hy ⊢
  unfold fromMarch at hindex
  simp only [dayNumber, number, hy]
  split_ifs at hindex ⊢ <;> omega

end IsDate

/-- Every valid date is a day of a year. -/
theorem exists_isDate (hv : Valid year month day) :
    ∃ era doe c q t r, Parts doe c q t r ∧ IsDate era c q t r year month day := by
  obtain ⟨hm, hd, hleap⟩ := valid_iff.1 hv
  obtain ⟨y, hy⟩ : ∃ y, y = year - if month ≤ 2 then 1 else 0 := ⟨_, rfl⟩
  obtain ⟨r, hr⟩ : ∃ r, r = (153 * fromMarch month + 2) / 5 + day - 1 := ⟨_, rfl⟩
  have hday : DayOf r month day := hr ▸ dayOf_of_longest hm hd
  obtain ⟨hlong, h365, -⟩ := hday.cases
  refine ⟨y / 400, 365 * (y % 400) + (y % 400 / 4 - y % 400 / 100) + r, y % 400 / 100,
    y % 100 / 4, y % 4, r, ⟨by omega, by omega, by omega, ?_, by omega⟩, hday, by omega⟩
  rcases hlong with ⟨-, h₀, hle⟩ | rfl
  · refine ⟨h₀, ?_⟩
    rcases hle.lt_or_eq with hlt | heq
    · exact .inl (by omega)
    · obtain ⟨hfeb, h29⟩ := h365.1 heq
      have := hleap hfeb h29
      simp only [isLeapYear, Bool.and_eq_true, Bool.or_eq_true, decide_eq_true_eq] at this
      rw [hfeb, if_pos le_rfl] at hy
      exact .inr ⟨heq, by omega, by omega⟩
  · obtain ⟨h₁, h₂⟩ := hm
    interval_cases month <;> simp [longest, fromMarch] at hd hr <;> omega

/-! ## The date of a number -/

variable (era) in
/-- The date from the era that `civil_from_days` takes. -/
theorem civilFromDays_of_era {yoe : ℤ} (hera : (if 0 ≤ d + 730425 then (d + 730425) / 146097
      else (d + 730425 - 146096) / 146097) = era) (hdoe : d + 730425 - era * 146097 = doe)
    (hyoe : yearOfEra doe = yoe) (hdoy : doe - (365 * yoe + yoe / 4 - yoe / 100) = r)
    (h : DayOf r month day) (hyear : year = yoe + era * 400 + if month ≤ 2 then 1 else 0)
    (hfits : -2 ^ 31 ≤ year ∧ year < 2 ^ 31) : civilFromDays d = some (year, month, day) := by
  have hz : d + 10957 + 719468 = d + 730425 := by ring
  have hday : r - (153 * fromMarch month + 2) / 5 + 1 = day := by
    have := h.doy
    omega
  have hyears : (if (month : ℤ) ≤ 2 then yoe + era * 400 + 1 else yoe + era * 400) = year := by
    split_ifs at hyear ⊢ <;> omega
  have hy32 : i32 year = some year := if_pos hfits
  have hm32 : u32 month = some month := if_pos (by have := h.months; omega)
  have hd32 : u32 day = some day := if_pos (by have := h.days; omega)
  unfold yearOfEra at hyoe
  unfold civilFromDays
  simp only [hz, hera, hdoe, hyoe, hdoy, h.mp, h.march, hday, hyears, hy32, hm32, hd32]
  rfl

section

variable (hd : -2 ^ 31 ≤ d ∧ d < 2 ^ 31) (hp : Parts doe c q t r)
  (hz : d = era * 146097 + doe - 730425)
include hd hp hz

/-- **`civil_from_days`** is right from 0000-03-01 on and on the last day of an era. -/
theorem civilFromDays_right (hright : 0 ≤ era ∨ doe = 146096)
    (h : IsDate era c q t r year month day) : civilFromDays d = some (year, month, day) := by
  have hlt := hp.lt_era
  have hyear := h.years
  refine civilFromDays_of_era era ?_ (by omega) hp.yoe_eq hp.doy_eq h.index (by omega) ?_
  · split_ifs <;> omega
  · obtain ⟨hc, hq, ht, -, -⟩ := hp
    split_ifs at hyear <;> omega

/-- On the other days the date is that of the next day of the year. -/
theorem civilFromDays_wrong (hneg : era < 0) (hlt : doe < 146096)
    (h : IsDate era c q t (r + 1) year month day) : civilFromDays d = some (year, month, day) := by
  have h₀ := hp.lt_era
  have hyear := h.years
  have hdoy := hp.doy_eq
  refine civilFromDays_of_era (era - 1) ?_ (by omega) (hp.yoe_shift hlt) (by omega) h.index
    (by omega) ?_
  · split_ifs <;> omega
  · obtain ⟨hc, hq, ht, -, -⟩ := hp
    split_ifs at hyear <;> omega

end

/-! ## The next day -/

theorem nextDay_cases (hv : Valid year month day) :
    ∃ year' month' day', nextDay year month day = (year', month', day') ∧
      Valid year' month' day' ∧
      (marchYear year' month' = marchYear year month ∧
        (153 * fromMarch month' + 2) / 5 + (day' : ℤ) = (153 * fromMarch month + 2) / 5 + day + 1 ∨
      (year', month', day') = (year, 3, 1) ∧ month = 2 ∧
        day = if isLeapYear year then 29 else 28) := by
  obtain ⟨hm, -, -⟩ := valid_iff.1 hv
  obtain ⟨last, hlast, hday, hle⟩ := hv
  have hlast : daysInMonth year month = some last := hlast
  have hfirst : ∀ {year' : ℤ} {month' : ℕ}, 1 ≤ month' ∧ month' ≤ 12 → Valid year' month' 1 := by
    intro year' month' hm'
    refine valid_iff.2 ⟨hm', ⟨le_rfl, ?_⟩, fun _ h => by cases h⟩
    unfold longest
    split_ifs <;> omega
  unfold nextDay
  rw [hlast]
  by_cases hlt : day < last
  · rw [if_pos (by simpa using hlt)]
    refine ⟨year, month, day + 1, rfl, ⟨last, hlast, by omega, hlt⟩, .inl ⟨rfl, ?_⟩⟩
    push_cast
    ring
  · obtain rfl : day = last := by omega
    rw [if_neg (by simp)]
    by_cases hfeb : month = 2
    · subst hfeb
      exact ⟨year, 3, 1, rfl, hfirst (by omega), .inr ⟨rfl, rfl, (Option.some.inj hlast).symm⟩⟩
    · obtain ⟨h₁, h₂⟩ := hm
      by_cases h12 : month < 12
      · rw [if_pos h12]
        refine ⟨year, month + 1, 1, rfl, hfirst (by omega), .inl ?_⟩
        interval_cases month <;> simp [daysInMonth, marchYear, fromMarch] at hlast hfeb ⊢ <;> omega
      · obtain rfl : month = 12 := by omega
        rw [if_neg h12]
        refine ⟨year + 1, 1, 1, rfl, hfirst (by omega), .inl ?_⟩
        simp [daysInMonth, marchYear, fromMarch] at hlast ⊢
        omega

/-- **The next day has the next number.** -/
theorem nextDay_isDate (hp : Parts doe c q t 0) (h : IsDate era c q t r year month day)
    (hv : Valid year month day) : ∃ year' month' day' era' doe' c' q' t' r',
      nextDay year month day = (year', month', day') ∧ Valid year' month' day' ∧
      Parts doe' c' q' t' r' ∧ IsDate era' c' q' t' r' year' month' day' ∧
      era' * 146097 + doe' = era * 146097 + doe + r + 1 := by
  obtain ⟨year', month', day', hnext, hv', hcases⟩ := nextDay_cases hv
  obtain ⟨era', doe', c', q', t', r', hp', h'⟩ := exists_isDate hv'
  refine ⟨year', month', day', era', doe', c', q', t', r', hnext, hv', hp', h', ?_⟩
  have hyear := h.marchYear_eq
  have hyear' := h'.marchYear_eq
  have hr := h.index.doy
  have hr' := h'.index.doy
  have hlast := (h.valid_iff hp).1 hv
  obtain ⟨hc, hq, ht, -, hsum⟩ := hp
  obtain ⟨hc', hq', ht', -, hsum'⟩ := hp'
  rcases hcases with ⟨hsame, hindex⟩ | ⟨heq, rfl, hday⟩
  · rw [hyear, hyear'] at hsame
    omega
  · cases heq
    have hleap : isLeapYear year = true ↔ t = 3 ∧ (q < 24 ∨ c = 3) := by
      simp only [isLeapYear, Bool.and_eq_true, Bool.or_eq_true, decide_eq_true_eq]
      simp only [marchYear] at hyear
      norm_num at hyear
      omega
    simp only [marchYear] at hyear hyear'
    norm_num [fromMarch] at hyear hyear' hr hr'
    split_ifs at hday with hl
    · have := hleap.1 hl
      omega
    · have := hleap.not.1 hl
      omega

theorem daysFromCivil_eq (hv : Valid year month day) :
    daysFromCivil year month day = i32 (dayNumber year month day) := by
  obtain ⟨last, hlast, hday, hle⟩ := hv
  have hlast : daysInMonth year month = some last := hlast
  unfold daysFromCivil
  rw [hlast]
  exact if_neg (by omega)

theorem daysFromCivil_eq_some_iff (hv : Valid year month day) (hd : -2 ^ 31 ≤ d ∧ d < 2 ^ 31) :
    daysFromCivil year month day = some d ↔ dayNumber year month day = d := by
  rw [daysFromCivil_eq hv, i32]
  constructor
  · intro h
    split_ifs at h
    exact Option.some.inj h
  · rintro rfl
    exact if_pos hd

/-! ## Round trips -/

/-- The number goes to a valid date and back, and the next number to the next date. -/
def RoundTrips (d year : ℤ) (month day : ℕ) : Prop :=
  Valid year month day ∧ daysFromCivil year month day = some d ∧
    (d + 1 < 2 ^ 31 → civilFromDays (d + 1) = some (nextDay year month day))

section

variable (hd : -2 ^ 31 ≤ d ∧ d < 2 ^ 31) (hp : Parts doe c q t r)
  (hz : d = era * 146097 + doe - 730425)
include hd hp hz

theorem roundTrips_right (hright : 0 ≤ era ∨ doe = 146096)
    (h : IsDate era c q t r year month day) : RoundTrips d year month day ↔ RegularDay d := by
  have hlt := hp.lt_era
  have hv : Valid year month day := (h.valid_iff hp.start).2 hp.day.2
  have hback : daysFromCivil year month day = some d := by
    have hlast : 0 ≤ era ∨ 100 * c + 4 * q + t = 399 := by
      obtain ⟨hc, hq, ht, hr, hsum⟩ := hp
      omega
    rw [daysFromCivil_eq_some_iff hv hd, h.dayNumber_eq hp.start, if_pos hlast, hp.number_eq]
    omega
  obtain ⟨y', m', n', era', doe', c', q', t', r', hnext, hv', hp', h', hsum⟩ :=
    nextDay_isDate hp.start h hv
  have hlt' := hp'.lt_era
  rw [RoundTrips, and_iff_right hv, and_iff_right hback, hnext]
  by_cases hge : -730426 ≤ d
  · refine iff_of_true (fun hnext => ?_) (.inl hge)
    exact civilFromDays_right ⟨by omega, hnext⟩ hp' (by omega) (.inl (by omega)) h'
  · refine iff_of_false (fun hciv => ?_) fun hreg => ?_
    · -- an era begins, a day too late
      obtain rfl : doe' = 0 := by omega
      have hzero : Parts 0 0 0 0 0 := by constructor <;> norm_num
      obtain ⟨-, -, -, rfl⟩ := hp'.unique hzero
      obtain ⟨m₂, n₂, h₂⟩ := exists_dayOf (r := 0 + 1) (by norm_num) (by norm_num)
      have hwrong := civilFromDays_wrong (d := d + 1) (by omega) hp' (by omega)
        (show era' < 0 by omega) (by norm_num) ⟨h₂, rfl⟩
      rw [hciv (by omega)] at hwrong
      cases hwrong
      have hr := h₂.doy
      have hr' := h'.index.doy
      omega
    · rcases hreg with hreg | ⟨hreg, -⟩ <;> omega

theorem roundTrips_wrong (hneg : era < 0) (hlt : doe < 146096)
    (h : IsDate era c q t (r + 1) year month day) :
    RoundTrips d year month day ↔ RegularDay d := by
  have h₀ := hp.lt_era
  have hmod : (d + 730425) % 146097 = doe := by omega
  have hnum : dayNumber year month day = d + 1 - if 100 * c + 4 * q + t = 399 then 0 else 1 := by
    have hnumber := hp.number_eq era
    rw [h.dayNumber_eq hp.start]
    unfold number at hnumber ⊢
    split_ifs <;> omega
  have hback : Valid year month day →
      (daysFromCivil year month day = some d ↔ dayNumber year month day = d) :=
    fun hv => daysFromCivil_eq_some_iff hv hd
  rw [RegularDay, or_iff_right (by omega), hmod, hp.regular_iff]
  constructor
  · rintro ⟨hv, hd', hnext⟩
    rw [hback hv, hnum] at hd'
    have hne : 100 * c + 4 * q + t ≠ 399 := fun heq => by
      rw [if_pos heq] at hd'
      omega
    have hr := (h.valid_iff hp.start).1 hv
    have hday := hp.day
    obtain ⟨m₂, n₂, h₂⟩ := exists_dayOf (r := r + 1 + 1) (by omega) (by omega)
    have hdate : IsDate era c q t (r + 1 + 1) _ m₂ n₂ := ⟨h₂, rfl⟩
    have hp₁ := hp.move (k := 1) ⟨by omega, hr⟩
    have hlast := hp.lt_last_iff.2 hne
    have hciv := civilFromDays_wrong (d := d + 1) (by omega) hp₁ (by omega) hneg (by omega) hdate
    obtain ⟨y', m', n', -, -, -, -, -, -, hnext', hv', -⟩ := nextDay_isDate hp.start h hv
    rw [hciv, hnext'] at hnext
    cases hnext (by omega)
    have := (hdate.valid_iff hp.start).1 hv'
    exact ⟨hne, by omega⟩
  · rintro ⟨hne, hr⟩
    have hday := hp.day
    have hv : Valid year month day := (h.valid_iff hp.start).2 (by omega)
    refine ⟨hv, (hback hv).2 (by rw [hnum, if_neg hne]; omega), fun _ => ?_⟩
    obtain ⟨y', m', n', era', doe', c', q', t', r', hnext, hv', hp', h', hsum⟩ :=
      nextDay_isDate hp.start h hv
    have hp₂ := hp.move (k := 2) ⟨by omega, hr⟩
    have hlt' := hp'.lt_era
    have hlt₂ := hp₂.lt_era
    obtain ⟨rfl, rfl⟩ : era' = era ∧ doe' = doe + 2 := by omega
    obtain ⟨rfl, rfl, rfl, rfl⟩ := hp'.unique hp₂
    have hp₁ := hp.move (k := 1) ⟨by omega, by omega⟩
    rw [hnext]
    rw [show r + 2 = r + 1 + 1 by ring] at h'
    exact civilFromDays_wrong (by omega) hp₁ (by omega) hneg (by omega) h'

end

/-- **When a number goes to a date and back.** -/
theorem exists_civil (hd : -2 ^ 31 ≤ d ∧ d < 2 ^ 31) : ∃ year month day,
    civilFromDays d = some (year, month, day) ∧
      (RoundTrips d year month day ↔ RegularDay d) := by
  obtain ⟨c, q, t, r, hp⟩ := exists_parts ((d + 730425) % 146097) (by omega) (by omega)
  have hz : d = (d + 730425) / 146097 * 146097 + (d + 730425) % 146097 - 730425 := by omega
  have hday := hp.day
  by_cases hright : 0 ≤ (d + 730425) / 146097 ∨ (d + 730425) % 146097 = 146096
  · obtain ⟨month, day, h⟩ := exists_dayOf (r := r) (by omega) (by omega)
    exact ⟨_, month, day, civilFromDays_right hd hp hz hright ⟨h, rfl⟩,
      roundTrips_right hd hp hz hright ⟨h, rfl⟩⟩
  · obtain ⟨month, day, h⟩ := exists_dayOf (r := r + 1) (by omega) (by omega)
    obtain ⟨hneg, hne⟩ := not_or.1 hright
    exact ⟨_, month, day, civilFromDays_wrong hd hp hz (by omega) (by omega) ⟨h, rfl⟩,
      roundTrips_wrong hd hp hz (by omega) (by omega) ⟨h, rfl⟩⟩

/-- **When a date goes to its number and back.** -/
theorem civilFromDays_iff (hv : Valid year month day)
    (hd : daysFromCivil year month day = some d) :
    civilFromDays d = some (year, month, day) ↔ RegularDate year month day := by
  obtain ⟨era, doe, c, q, t, r, hp, h⟩ := exists_isDate hv
  have hfits : -2 ^ 31 ≤ d ∧ d < 2 ^ 31 := by
    rw [daysFromCivil_eq hv, i32] at hd
    split_ifs at hd with hfits
    exact Option.some.inj hd ▸ hfits
  rw [daysFromCivil_eq_some_iff hv hfits, h.dayNumber_eq hp.start, hp.number_eq] at hd
  obtain ⟨-, h365, hfirst⟩ := h.index.cases
  have hlt := hp.lt_era
  have hday := hp.day
  have hyoe : 0 ≤ 100 * c + 4 * q + t ∧ 100 * c + 4 * q + t ≤ 399 := by
    obtain ⟨hc, hq, ht, -, -⟩ := hp
    omega
  -- the day of the year that `civil_from_days` finds is not that of the date
  have hother : ∀ {r' y' : ℤ} {m' n' : ℕ}, DayOf r' m' n' → r' ≠ r →
      some (y', m', n') ≠ some (year, month, day) := by
    intro r' y' m' n' h' hne heq
    cases heq
    have := h.index.doy
    have := h'.doy
    omega
  rw [RegularDate, h.marchYear_eq]
  by_cases hera : 0 ≤ era
  · rw [if_pos (.inl hera)] at hd
    exact iff_of_true (civilFromDays_right hfits hp (by omega) (.inl hera) h) (.inl (by omega))
  rw [or_iff_right (by omega)]
  by_cases hlast : 100 * c + 4 * q + t = 399
  · rw [if_pos (.inr hlast)] at hd
    rw [if_pos (by omega), ← h365]
    by_cases hr : r = 365
    · refine iff_of_true (civilFromDays_right hfits hp (by omega) (.inr ?_) h) hr
      obtain ⟨hc, hq, ht, -, hsum⟩ := hp
      omega
    · refine iff_of_false ?_ hr
      obtain ⟨m', n', h'⟩ := exists_dayOf (r := r + 1) (by omega) (by omega)
      rw [civilFromDays_wrong hfits hp (by omega) (show era < 0 by omega)
        (by obtain ⟨hc, hq, ht, -, hsum⟩ := hp; omega) ⟨h', rfl⟩]
      exact hother h' (by omega)
  · rw [if_neg (by omega)] at hd
    rw [if_neg (by omega), ← hfirst]
    by_cases hr : r = 0
    · refine iff_of_false ?_ (not_not.2 hr)
      obtain ⟨c', q', t', r', hp'⟩ := exists_parts ((d + 730425) % 146097) (by omega) (by omega)
      have hz : d = (d + 730425) / 146097 * 146097 + (d + 730425) % 146097 - 730425 := by omega
      have hday' := hp'.day
      by_cases hend : (d + 730425) % 146097 = 146096
      · obtain ⟨m', n', h'⟩ := exists_dayOf (r := r') (by omega) (by omega)
        rw [civilFromDays_right hfits hp' hz (.inr hend) ⟨h', rfl⟩]
        refine hother h' ?_
        obtain ⟨hc, hq, ht, -, hsum⟩ := hp'
        omega
      · obtain ⟨m', n', h'⟩ := exists_dayOf (r := r' + 1) (by omega) (by omega)
        rw [civilFromDays_wrong hfits hp' hz (by omega) (by omega) ⟨h', rfl⟩]
        exact hother h' (by omega)
    · refine iff_of_true ?_ hr
      have hp₁ := hp.move (k := -1) ⟨by omega, by omega⟩
      rw [show r = r + -1 + 1 by ring] at h
      have hlt' := hp.lt_last_iff.2 hlast
      exact civilFromDays_wrong hfits hp₁ (by omega) (by omega) (by omega) h

/-- **Day numbers and dates are in bijection**, but for those that are not regular. -/
theorem civil_days_bijection (d year : ℤ) (month day : ℕ) :
    (-2 ^ 31 ≤ d ∧ d < 2 ^ 31 → ∃ y m n, civilFromDays d = some (y, m, n) ∧
      (RoundTrips d y m n ↔ RegularDay d)) ∧
    (Valid year month day → daysFromCivil year month day = some d →
      (civilFromDays d = some (year, month, day) ↔ RegularDate year month day)) ∧
    daysFromCivil 2000 1 1 = some 0 :=
  ⟨exists_civil, civilFromDays_iff, by decide⟩

/-- The leap day of 2024. -/
theorem leap_day_of_2024 : ∃ d, daysFromCivil 2024 2 29 = some d ∧
    civilFromDays d = some (2024, 2, 29) ∧ RoundTrips d 2024 2 29 := by
  have hv : Valid 2024 2 29 := ⟨29, by decide, by decide, by decide⟩
  have hd : daysFromCivil 2024 2 29 = some 8825 := by decide
  have hciv := ((civil_days_bijection 8825 2024 2 29).2.1 hv hd).2 (.inl (by decide))
  obtain ⟨y, m, n, hymn, hiff⟩ := (civil_days_bijection 8825 2024 2 29).1 (by decide)
  cases hciv.symm.trans hymn
  exact ⟨8825, hd, hciv, hiff.2 (.inl (by decide))⟩

/-- **Two numbers have the date 0000-02-29**, of which the date gives back the other one. -/
theorem leap_day_twice : civilFromDays (-730427) = some (0, 2, 29) ∧
    civilFromDays (-730426) = some (0, 2, 29) ∧ daysFromCivil 0 2 29 = some (-730426) := by
  decide

end UltraSql.Calendar
