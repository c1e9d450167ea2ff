import Mathlib.Data.Int.Order.Basic
import Mathlib.Order.Lattice
import Mathlib.Tactic.NormNum

/-! The proleptic Gregorian calendar: its days in order, and their numbers counted from
1970-01-01. A year of the count begins in March, so that a leap day is its last. -/

namespace Calendar

def IsLeap (year : ℤ) : Prop := year % 4 = 0 ∧ (year % 100 ≠ 0 ∨ year % 400 = 0)

instance (year : ℤ) : Decidable (IsLeap year) := inferInstanceAs (Decidable (_ ∧ _))

def monthLength (year month : ℤ) : ℤ :=
  if month = 2 then if IsLeap year then 29 else 28
  else if month = 4 ∨ month = 6 ∨ month = 9 ∨ month = 11 then 30
  else 31

@[ext] structure Date where
  year : ℤ
  month : ℤ
  day : ℤ
  month_mem : 1 ≤ month ∧ month ≤ 12
  day_mem : 1 ≤ day ∧ day ≤ monthLength year month

theorem one_le_monthLength (year month : ℤ) : 1 ≤ monthLength year month := by
  unfold monthLength
  split_ifs <;> decide

theorem monthLength_le (year month : ℤ) : monthLength year month ≤ 31 := by
  unfold monthLength
  split_ifs <;> decide

/-- The year that begins in the March before. -/
def startYear (year month : ℤ) : ℤ := if month ≤ 2 then year - 1 else year

/-- The number of a day, by the years and the days behind it since March of the year 0. -/
def number (year month day : ℤ) : ℤ :=
  365 * startYear year month + startYear year month / 4 - startYear year month / 100 +
    startYear year month / 400 + (153 * ((month + 9) % 12) + 2) / 5 + day - 719469

/-! ### The day of a number -/

/-- The year in an era of 400 years, by the day in it. -/
def yearOfEra (dayOfEra : ℤ) : ℤ :=
  (dayOfEra - dayOfEra / 1460 + dayOfEra / 36524 - dayOfEra / 146096) / 365

def dayOfYear (dayOfEra : ℤ) : ℤ :=
  dayOfEra - (365 * yearOfEra dayOfEra + yearOfEra dayOfEra / 4 - yearOfEra dayOfEra / 100)

def monthIndex (dayOfYear : ℤ) : ℤ := (5 * dayOfYear + 2) / 153

def dayOfMonth (dayOfYear : ℤ) : ℤ := dayOfYear - (153 * monthIndex dayOfYear + 2) / 5 + 1

def monthOf (dayOfYear : ℤ) : ℤ :=
  if monthIndex dayOfYear < 10 then monthIndex dayOfYear + 3 else monthIndex dayOfYear - 9

/-- The days of an era, by the century, the four years, the year in these and its days. -/
theorem yearOfEra_parts {c k s d : ℤ} (hc : 0 ≤ c ∧ c ≤ 3) (hk : 0 ≤ k ∧ k ≤ 24) (hs : 0 ≤ s ∧ s ≤ 3)
    (hd : 0 ≤ d ∧ d ≤ 365) (hleap : d = 365 → s = 3 ∧ (k = 24 → c = 3)) :
    yearOfEra (36524 * c + 1461 * k + 365 * s + d) = 100 * c + 4 * k + s := by
  have hcentury : (36524 * c + 1461 * k + 365 * s + d) / 36524 -
      (36524 * c + 1461 * k + 365 * s + d) / 146096 = c := by
    by_cases hlast : 1461 * k + 365 * s + d = 36524
    · obtain rfl : c = 3 := (hleap (by omega)).2 (by omega)
      omega
    · have hlt : 0 ≤ 1461 * k + 365 * s + d ∧ 1461 * k + 365 * s + d < 36524 := by omega
      omega
  -- one day in 1460 is one too many, but for the days that end a leap year
  have hfour : (36524 * c + 1461 * k + 365 * s + d) / 1460 =
      25 * c + k + (24 * c + k + 365 * s + d) / 1460 := by omega
  have hextra : 0 ≤ d - (24 * c + k + 365 * s + d) / 1460 ∧
      d - (24 * c + k + 365 * s + d) / 1460 ≤ 364 := by omega
  unfold yearOfEra
  omega

theorem yearOfEra_eq {yoe doy : ℤ} (hyear : 0 ≤ yoe ∧ yoe ≤ 399) (hday : 0 ≤ doy ∧ doy ≤ 365)
    (hleap : doy = 365 → IsLeap (yoe + 1)) :
    yearOfEra (365 * yoe + yoe / 4 - yoe / 100 + doy) = yoe := by
  have h := @yearOfEra_parts (yoe / 100) (yoe % 100 / 4) (yoe % 4) doy (by omega) (by omega)
    (by omega) hday (by unfold IsLeap at hleap; omega)
  have hsum : 36524 * (yoe / 100) + 1461 * (yoe % 100 / 4) + 365 * (yoe % 4) + doy =
      365 * yoe + yoe / 4 - yoe / 100 + doy := by omega
  rw [hsum] at h
  omega

theorem exists_yearOfEra {doe : ℤ} (h : 0 ≤ doe ∧ doe ≤ 146096) : ∃ yoe doy, (0 ≤ yoe ∧ yoe ≤ 399) ∧
    (0 ≤ doy ∧ doy ≤ 365) ∧ (doy = 365 → IsLeap (yoe + 1)) ∧
      doe = 365 * yoe + yoe / 4 - yoe / 100 + doy := by
  obtain ⟨c, hc⟩ : ∃ c, c = min 3 (doe / 36524) := ⟨_, rfl⟩
  obtain ⟨k, hk⟩ : ∃ k, k = min 24 ((doe - 36524 * c) / 1461) := ⟨_, rfl⟩
  obtain ⟨s, hs⟩ : ∃ s, s = min 3 ((doe - 36524 * c - 1461 * k) / 365) := ⟨_, rfl⟩
  have hcentury : 0 ≤ doe - 36524 * c ∧ doe - 36524 * c ≤ 36524 ∧
      (doe - 36524 * c = 36524 → c = 3) := by omega
  have hfour : 0 ≤ doe - 36524 * c - 1461 * k ∧ doe - 36524 * c - 1461 * k ≤ 1460 ∧
      (k = 24 → doe - 36524 * c - 1461 * k = 1460 → c = 3) := by omega
  have hyear : (100 * c + 4 * k + s) / 4 = 25 * c + k ∧ (100 * c + 4 * k + s) / 100 = c := by omega
  refine ⟨100 * c + 4 * k + s, doe - 36524 * c - 1461 * k - 365 * s, by omega, by omega, ?_, ?_⟩
  · intro hday
    unfold IsLeap
    omega
  · rw [hyear.1, hyear.2]
    omega

theorem yearOfEra_bounds {doe : ℤ} (h : 0 ≤ doe ∧ doe < 146097) :
    (0 ≤ yearOfEra doe ∧ yearOfEra doe ≤ 399) ∧ (0 ≤ dayOfYear doe ∧ dayOfYear doe ≤ 365) := by
  obtain ⟨yoe, doy, hyear, hday, hleap, hdoe⟩ := @exists_yearOfEra doe (by omega)
  have hyearOf := yearOfEra_eq hyear hday hleap
  rw [← hdoe] at hyearOf
  unfold dayOfYear
  rw [hyearOf]
  omega

/-- The parts of a day of the year, by its month. -/
theorem dayOfYear_parts {year month day : ℤ} (hmonth : 1 ≤ month ∧ month ≤ 12)
    (hday : 1 ≤ day ∧ day ≤ monthLength year month) {doy : ℤ}
    (hdoy : doy = (153 * ((month + 9) % 12) + 2) / 5 + day - 1) :
    (0 ≤ doy ∧ doy ≤ 365) ∧ (doy = 365 → month = 2 ∧ IsLeap year) ∧
      monthOf doy = month ∧ dayOfMonth doy = day := by
  have hcases : month = 1 ∨ month = 2 ∨ month = 3 ∨ month = 4 ∨ month = 5 ∨ month = 6 ∨ month = 7 ∨
      month = 8 ∨ month = 9 ∨ month = 10 ∨ month = 11 ∨ month = 12 := by omega
  have hparts : (0 ≤ doy ∧ doy ≤ 365) ∧ (doy = 365 → month = 2 ∧ day = 29) ∧
      monthOf doy = month ∧ dayOfMonth doy = day := by
    unfold monthLength at hday
    unfold monthOf dayOfMonth monthIndex
    rcases hcases with rfl | rfl | rfl | rfl | rfl | rfl | rfl | rfl | rfl | rfl | rfl | rfl <;>
      norm_num at hday hdoy ⊢ <;> omega
  refine ⟨hparts.1, fun h => ?_, hparts.2.2⟩
  obtain ⟨htwo, hlast⟩ := hparts.2.1 h
  refine ⟨htwo, ?_⟩
  by_contra hleap
  have hshort : monthLength year month = 28 := by
    unfold monthLength
    rw [if_pos htwo, if_neg hleap]
  omega

/-- A day of the year is one of its month. -/
theorem monthOf_bounds {doy year : ℤ} (h : 0 ≤ doy ∧ doy ≤ 365) (hleap : doy = 365 → IsLeap year) :
    (1 ≤ monthOf doy ∧ monthOf doy ≤ 12) ∧
      (1 ≤ dayOfMonth doy ∧ dayOfMonth doy ≤ monthLength year (monthOf doy)) ∧
        doy = (153 * ((monthOf doy + 9) % 12) + 2) / 5 + dayOfMonth doy - 1 := by
  obtain ⟨i, hi⟩ : ∃ i, monthIndex doy = i := ⟨_, rfl⟩
  have hindex : 0 ≤ i ∧ i ≤ 11 := by
    unfold monthIndex at hi
    omega
  have hcases : i = 0 ∨ i = 1 ∨ i = 2 ∨ i = 3 ∨ i = 4 ∨ i = 5 ∨ i = 6 ∨ i = 7 ∨ i = 8 ∨ i = 9 ∨
      i = 10 ∨ i = 11 := by omega
  have hend : doy ≤ 336 + if IsLeap year then 29 else 28 := by
    split_ifs with hnot
    · omega
    · have hne : doy ≠ 365 := fun h => hnot (hleap h)
      omega
  unfold monthOf dayOfMonth monthLength
  rw [hi]
  unfold monthIndex at hi
  rcases hcases with rfl | rfl | rfl | rfl | rfl | rfl | rfl | rfl | rfl | rfl | rfl | rfl <;>
    norm_num <;> omega

def Date.number (d : Date) : ℤ := Calendar.number d.year d.month d.day

theorem number_eq_era (year month day : ℤ) : number year month day + 719468 =
    startYear year month / 400 * 146097 + (365 * (startYear year month % 400) +
      startYear year month % 400 / 4 - startYear year month % 400 / 100 +
        ((153 * ((month + 9) % 12) + 2) / 5 + day - 1)) := by
  unfold number
  omega

theorem startYear_of_leap {year month : ℤ} (h : month = 2) : startYear year month + 1 = year := by
  unfold startYear
  rw [h, if_pos (le_refl 2)]
  exact Int.sub_add_cancel year 1

/-- Where a date lies in its era. -/
theorem Date.era_parts (d : Date) :
    (d.number + 719468) / 146097 = startYear d.year d.month / 400 ∧
      yearOfEra ((d.number + 719468) % 146097) = startYear d.year d.month % 400 ∧
        monthOf (dayOfYear ((d.number + 719468) % 146097)) = d.month ∧
          dayOfMonth (dayOfYear ((d.number + 719468) % 146097)) = d.day := by
  obtain ⟨hdoy, hleap, hmonth, hday⟩ := dayOfYear_parts d.month_mem d.day_mem rfl
  have hnumber : d.number + 719468 = _ := number_eq_era d.year d.month d.day
  generalize (153 * ((d.month + 9) % 12) + 2) / 5 + d.day - 1 = doy at *
  obtain ⟨yoe, hyoe⟩ : ∃ yoe, yoe = startYear d.year d.month % 400 := ⟨_, rfl⟩
  rw [← hyoe] at hnumber
  have hyear : 0 ≤ yoe ∧ yoe ≤ 399 := by omega
  have hend : doy = 365 → IsLeap (yoe + 1) := by
    intro h
    obtain ⟨htwo, hleap⟩ := hleap h
    have hstart := @startYear_of_leap d.year d.month htwo
    unfold IsLeap at hleap ⊢
    omega
  have hlast : doy = 365 → yoe % 4 = 3 ∧ (yoe % 100 = 99 → yoe = 399) := by
    intro h
    have hleap := hend h
    unfold IsLeap at hleap
    omega
  have hdoe : 0 ≤ 365 * yoe + yoe / 4 - yoe / 100 + doy ∧
      365 * yoe + yoe / 4 - yoe / 100 + doy < 146097 := by omega
  have hmod : (d.number + 719468) % 146097 = 365 * yoe + yoe / 4 - yoe / 100 + doy := by omega
  have hyearOf := yearOfEra_eq hyear hdoy hend
  have hdayOf : dayOfYear (365 * yoe + yoe / 4 - yoe / 100 + doy) = doy := by
    unfold dayOfYear
    rw [hyearOf]
    omega
  rw [hmod, hdayOf, hyearOf]
  exact ⟨by omega, hyoe, hmonth, hday⟩

/-! ### Dates by their numbers -/

def civilMonth (n : ℤ) : ℤ := monthOf (dayOfYear ((n + 719468) % 146097))

def civilDay (n : ℤ) : ℤ := dayOfMonth (dayOfYear ((n + 719468) % 146097))

def civilYear (n : ℤ) : ℤ :=
  yearOfEra ((n + 719468) % 146097) + (n + 719468) / 146097 * 400 + if civilMonth n ≤ 2 then 1 else 0

theorem civil_bounds (n : ℤ) : (1 ≤ civilMonth n ∧ civilMonth n ≤ 12) ∧
    (1 ≤ civilDay n ∧ civilDay n ≤ monthLength (civilYear n) (civilMonth n)) ∧
      number (civilYear n) (civilMonth n) (civilDay n) = n := by
  obtain ⟨yoe, doy, hyear, hday, hleap, hdoe⟩ :=
    @exists_yearOfEra ((n + 719468) % 146097) (by omega)
  have hyearOf := yearOfEra_eq hyear hday hleap
  have hdayOf : dayOfYear ((n + 719468) % 146097) = doy := by
    unfold dayOfYear
    rw [hdoe, hyearOf]
    omega
  obtain ⟨era, hera⟩ : ∃ era, era = (n + 719468) / 146097 := ⟨_, rfl⟩
  have hmonthOf : civilMonth n = monthOf doy := by
    unfold civilMonth
    rw [hdayOf]
  have hdayOfMonth : civilDay n = dayOfMonth doy := by
    unfold civilDay
    rw [hdayOf]
  have hyearIs : civilYear n = yoe + era * 400 + if monthOf doy ≤ 2 then 1 else 0 := by
    unfold civilYear
    rw [hmonthOf, hera, hdoe, hyearOf]
  have hends : doy = 365 → IsLeap (civilYear n) := by
    intro h
    have htwo : monthOf doy ≤ 2 := by
      rw [h]
      decide
    have hleap := hleap h
    rw [hyearIs, if_pos htwo]
    unfold IsLeap at hleap ⊢
    omega
  obtain ⟨hmonth, hdays, hdoy⟩ := monthOf_bounds hday hends
  rw [hmonthOf, hdayOfMonth]
  refine ⟨hmonth, hdays, ?_⟩
  have hstart : startYear (civilYear n) (monthOf doy) = yoe + era * 400 := by
    unfold startYear
    rw [hyearIs]
    split_ifs <;> omega
  have hnumber := number_eq_era (civilYear n) (monthOf doy) (dayOfMonth doy)
  have hera' : (yoe + era * 400) / 400 = era ∧ (yoe + era * 400) % 400 = yoe := by omega
  rw [hstart, ← hdoy, hera'.1, hera'.2] at hnumber
  omega

def ofNumber (n : ℤ) : Date :=
  ⟨civilYear n, civilMonth n, civilDay n, (civil_bounds n).1, (civil_bounds n).2.1⟩

theorem number_ofNumber (n : ℤ) : (ofNumber n).number = n := (civil_bounds n).2.2

theorem ofNumber_number (d : Date) : ofNumber d.number = d := by
  obtain ⟨hera, hyear, hmonth, hday⟩ := d.era_parts
  have hcivilMonth : civilMonth d.number = d.month := hmonth
  have hcivilYear : civilYear d.number = d.year := by
    unfold civilYear
    rw [hera, hyear, hcivilMonth]
    unfold startYear
    split_ifs <;> omega
  exact Date.ext hcivilYear hcivilMonth hday

theorem number_injective : Function.Injective Date.number := by
  intro a b h
  rw [← ofNumber_number a, h, ofNumber_number]

/-! ### One day after another -/

theorem day_mem_succ {d : Date} (h : d.day < monthLength d.year d.month) :
    1 ≤ d.day + 1 ∧ d.day + 1 ≤ monthLength d.year d.month :=
  ⟨by have := d.day_mem.1; omega, h⟩

theorem month_mem_succ {d : Date} (h : d.month < 12) : 1 ≤ d.month + 1 ∧ d.month + 1 ≤ 12 :=
  ⟨by have := d.month_mem.1; omega, h⟩

theorem first_mem (year month : ℤ) : 1 ≤ (1 : ℤ) ∧ 1 ≤ monthLength year month :=
  ⟨le_refl 1, one_le_monthLength year month⟩

theorem january_mem : 1 ≤ (1 : ℤ) ∧ (1 : ℤ) ≤ 12 := by decide

/-- The day after: in the same month, in the next one or in the next year. -/
def Date.next (d : Date) : Date :=
  if h : d.day < monthLength d.year d.month then
    ⟨d.year, d.month, d.day + 1, d.month_mem, day_mem_succ h⟩
  else if h : d.month < 12 then ⟨d.year, d.month + 1, 1, month_mem_succ h, first_mem _ _⟩
  else ⟨d.year + 1, 1, 1, january_mem, first_mem _ _⟩

def epoch : Date := ⟨1970, 1, 1, january_mem, first_mem _ _⟩

theorem number_epoch : epoch.number = 0 := by decide

theorem number_day_succ (year month day : ℤ) : number year month (day + 1) = number year month day + 1 := by
  unfold number
  omega

/-- A month begins on the day after the last one of the month before. -/
theorem number_month_succ {year month : ℤ} (h : 1 ≤ month ∧ month < 12) :
    number year (month + 1) 1 = number year month (monthLength year month) + 1 := by
  have hcases : month = 1 ∨ month = 2 ∨ month = 3 ∨ month = 4 ∨ month = 5 ∨ month = 6 ∨
      month = 7 ∨ month = 8 ∨ month = 9 ∨ month = 10 ∨ month = 11 := by omega
  unfold number startYear monthLength IsLeap
  rcases hcases with rfl | rfl | rfl | rfl | rfl | rfl | rfl | rfl | rfl | rfl | rfl <;>
    norm_num <;> omega

theorem number_year_succ (year : ℤ) : number (year + 1) 1 1 = number year 12 31 + 1 := by
  unfold number startYear
  norm_num
  omega

theorem number_next (d : Date) : d.next.number = d.number + 1 := by
  have hmonth := d.month_mem
  have hday := d.day_mem
  unfold Date.next
  split_ifs with hlt hlt'
  · exact number_day_succ d.year d.month d.day
  · have hend : d.day = monthLength d.year d.month := by omega
    have hsucc := @number_month_succ d.year d.month ⟨hmonth.1, hlt'⟩
    rw [← hend] at hsucc
    exact hsucc
  · have hlast : d.month = 12 := by omega
    have hlength : monthLength d.year d.month = 31 := by
      rw [hlast]
      rfl
    have hend : d.day = 31 := by omega
    have hsucc := number_year_succ d.year
    rw [← hlast, ← hend] at hsucc
    exact hsucc

/-- Counts the days since the epoch: none there, and one more from each day to the next. -/
structure Counts (f : Date → ℤ) : Prop where
  epoch : f epoch = 0
  next : ∀ d, f d.next = f d + 1

theorem counts_number : Counts Date.number := ⟨number_epoch, number_next⟩

theorem next_ofNumber (n : ℤ) : (ofNumber n).next = ofNumber (n + 1) := by
  apply number_injective
  rw [number_next, number_ofNumber, number_ofNumber]

/-- There is one way to count the days. -/
theorem Counts.eq_number {f : Date → ℤ} (h : Counts f) : f = Date.number := by
  have hall : ∀ n : ℤ, f (ofNumber n) = n := by
    intro n
    induction n using Int.induction_on with
    | zero =>
      rw [← number_epoch, ofNumber_number]
      exact h.epoch
    | succ n ih =>
      rw [← next_ofNumber, h.next, ih]
    | pred n ih =>
      have hnext := h.next (ofNumber (-n - 1))
      rw [next_ofNumber, Int.sub_add_cancel, ih] at hnext
      omega
  funext d
  have hd := hall d.number
  rwa [ofNumber_number] at hd

end Calendar
