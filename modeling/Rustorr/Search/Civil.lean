import Rustorr.Lib.Calendar
import Rustorr.Search.Dates
import Rustorr.Search.Rutor

/-! The day numbers and the dates as the search computes them are those of the calendar, wherever
their arithmetic fits 64 bits. -/

namespace Rustorr

open Calendar

theorem startYear_of_sub {year month start : ℤ}
    (h : (if month ≤ 2 then I64.sub year 1 else some year) = some start) :
    start = startYear year month := by
  unfold startYear
  split_ifs at h ⊢
  · exact (I64.sub_eq_some.mp h).2.symm
  · exact (Option.some.inj h).symm

theorem startYear_of_fits {year month : ℤ} (h : -2 ^ 63 < year) (h' : year < 2 ^ 63) :
    (if month ≤ 2 then I64.sub year 1 else some year) = some (startYear year month) := by
  unfold startYear
  split_ifs
  · exact I64.sub_of_mem (by omega)
  · rfl

theorem startYear_bounds {year : ℤ} (month : ℤ) (h : -10 ^ 16 ≤ year ∧ year ≤ 10 ^ 16) :
    -10 ^ 16 - 1 ≤ startYear year month ∧ startYear year month ≤ 10 ^ 16 := by
  unfold startYear
  split_ifs <;> omega

namespace Rutor

theorem number_of_daysFromCivil {year month day n : ℤ} (hmonth : 1 ≤ month)
    (h : daysFromCivil year month day = some n) : n = number year month day := by
  unfold daysFromCivil at h
  obtain ⟨start, hstart, h⟩ := Option.bind_eq_some_iff.mp h
  have hnumber := number_eq_era year month day
  rw [← startYear_of_sub hstart] at hnumber
  simp only [Option.bind_eq_bind, Option.bind_eq_some_iff, I64.add_eq_some, I64.sub_eq_some,
    I64.mul_eq_some] at h
  obtain ⟨_, ⟨-, rfl⟩, _, ⟨-, rfl⟩, _, ⟨-, rfl⟩, _, ⟨-, rfl⟩, _, ⟨-, rfl⟩, _, ⟨-, rfl⟩, _, ⟨-, rfl⟩, h⟩ := h
  rw [Int.tmod_eq_emod_of_nonneg (by omega), Int.tdiv_eq_ediv_of_nonneg (by omega)] at h
  obtain ⟨_, ⟨-, rfl⟩, _, ⟨-, rfl⟩, _, ⟨-, rfl⟩, _, ⟨-, rfl⟩, _, ⟨-, rfl⟩, _, ⟨-, rfl⟩, -, h⟩ := h
  rw [Int.tdiv_eq_ediv_of_nonneg (by omega), Int.tdiv_eq_ediv_of_nonneg (by omega)] at h
  omega

theorem daysFromCivil_of_fits {year month day : ℤ} (hyear : -10 ^ 16 ≤ year ∧ year ≤ 10 ^ 16)
    (hmonth : -9 ≤ month ∧ month ≤ 100) (hday : -100 ≤ day ∧ day ≤ 100) :
    daysFromCivil year month day = some (number year month day) := by
  have hnumber := number_eq_era year month day
  unfold daysFromCivil
  rw [startYear_of_fits (by omega) (by omega)]
  have hbounds := startYear_bounds month hyear
  generalize startYear year month = start at *
  simp only [Option.bind_eq_bind, Option.bind_some]
  rw [I64.mul_of_mem (by omega), Option.bind_some, I64.sub_of_mem (by omega), Option.bind_some,
    I64.add_of_mem (by omega), Option.bind_some, Int.tmod_eq_emod_of_nonneg (by omega),
    I64.mul_of_mem (by omega), Option.bind_some, I64.add_of_mem (by omega), Option.bind_some,
    Int.tdiv_eq_ediv_of_nonneg (by omega), I64.add_of_mem (by omega), Option.bind_some,
    I64.sub_of_mem (by omega), Option.bind_some, I64.mul_of_mem (by omega), Option.bind_some,
    Int.tdiv_eq_ediv_of_nonneg (by omega), I64.add_of_mem (by omega), Option.bind_some,
    Int.tdiv_eq_ediv_of_nonneg (by omega), I64.sub_of_mem (by omega), Option.bind_some,
    I64.add_of_mem (by omega), Option.bind_some, I64.mul_of_mem (by omega), Option.bind_some,
    I64.add_of_mem (by omega), Option.bind_some, I64.sub_of_mem (by omega), Option.some_inj]
  omega

end Rutor

namespace Torznab

/-- What else fits when the number of a day does. -/
theorem number_of_days {year month day n : ℤ} (hmonth : 1 ≤ month)
    (h : days year month day = some n) : n = number year month day ∧
      (-2 ^ 63 ≤ n + 719468 ∧ n + 719468 < 2 ^ 63) ∧
        -2 ^ 63 ≤ startYear year month / 400 * 146097 := by
  unfold days at h
  obtain ⟨start, hstart, h⟩ := Option.bind_eq_some_iff.mp h
  have hnumber := number_eq_era year month day
  rw [← startYear_of_sub hstart] at hnumber ⊢
  simp only [Option.bind_eq_bind, Option.bind_eq_some_iff, I64.add_eq_some, I64.sub_eq_some,
    I64.mul_eq_some] at h
  obtain ⟨_, ⟨-, rfl⟩, _, ⟨-, rfl⟩, _, ⟨-, rfl⟩, _, ⟨-, rfl⟩, _, ⟨-, rfl⟩, _, ⟨-, rfl⟩, _, ⟨-, rfl⟩, h⟩ := h
  rw [Int.tmod_eq_emod_of_nonneg (by omega), Int.tdiv_eq_ediv_of_nonneg (by omega)] at h
  obtain ⟨_, ⟨hera, rfl⟩, _, ⟨-, rfl⟩, _, ⟨-, rfl⟩, _, ⟨-, rfl⟩, _, ⟨-, rfl⟩, _, ⟨hsum, rfl⟩, -, h⟩ := h
  rw [Int.tdiv_eq_ediv_of_nonneg (by omega), Int.tdiv_eq_ediv_of_nonneg (by omega)] at h hsum
  refine ⟨by omega, by omega, hera.1⟩

theorem days_of_fits {year month day : ℤ} (hyear : -10 ^ 16 ≤ year ∧ year ≤ 10 ^ 16)
    (hmonth : 1 ≤ month ∧ month ≤ 12) (hday : -100 ≤ day ∧ day ≤ 100) :
    days year month day = some (number year month day) := by
  have hnumber := number_eq_era year month day
  unfold days
  rw [startYear_of_fits (by omega) (by omega)]
  have hbounds := startYear_bounds month hyear
  generalize startYear year month = start at *
  simp only [Option.bind_eq_bind, Option.bind_some]
  rw [I64.mul_of_mem (by omega), Option.bind_some, I64.sub_of_mem (by omega), Option.bind_some,
    I64.add_of_mem (by omega), Option.bind_some, Int.tmod_eq_emod_of_nonneg (by omega),
    I64.mul_of_mem (by omega), Option.bind_some, I64.add_of_mem (by omega), Option.bind_some,
    Int.tdiv_eq_ediv_of_nonneg (by omega), I64.add_of_mem (by omega), Option.bind_some,
    I64.sub_of_mem (by omega), Option.bind_some, I64.mul_of_mem (by omega), Option.bind_some,
    I64.mul_of_mem (by omega), Option.bind_some, I64.add_of_mem (by omega), Option.bind_some,
    Int.tdiv_eq_ediv_of_nonneg (by omega), I64.add_of_mem (by omega), Option.bind_some,
    Int.tdiv_eq_ediv_of_nonneg (by omega), I64.sub_of_mem (by omega), Option.bind_some,
    I64.add_of_mem (by omega), Option.bind_some, I64.sub_of_mem (by omega), Option.some_inj]
  omega

theorem civil_of_fits {n : ℤ} (h : -2 ^ 63 ≤ n + 719468 ∧ n + 719468 < 2 ^ 63)
    (hera : -2 ^ 63 ≤ (n + 719468) / 146097 * 146097) :
    civil n = some (civilYear n, civilMonth n, civilDay n) := by
  have hdoe : n + 719468 - (n + 719468) / 146097 * 146097 = (n + 719468) % 146097 := by omega
  have hbounds : 0 ≤ n + 719468 - (n + 719468) / 146097 * 146097 ∧
      n + 719468 - (n + 719468) / 146097 * 146097 < 146097 := by omega
  have heras : -2 ^ 50 < (n + 719468) / 146097 ∧ (n + 719468) / 146097 < 2 ^ 50 := by omega
  unfold civil civilYear civilMonth civilDay
  rw [← hdoe]
  refine Option.bind_eq_some_iff.mpr ⟨_, I64.add_of_mem h, ?_⟩
  refine Option.bind_eq_some_iff.mpr ⟨_, I64.mul_of_mem (by omega), ?_⟩
  refine Option.bind_eq_some_iff.mpr ⟨_, I64.sub_of_mem (by omega), ?_⟩
  generalize n + 719468 - (n + 719468) / 146097 * 146097 = doe at hbounds ⊢
  generalize (n + 719468) / 146097 = era at heras ⊢
  obtain ⟨hyear, hday⟩ := yearOfEra_bounds hbounds
  have hyearOf : (doe - doe / 1460 + doe / 36524 - doe / 146096).tdiv 365 = yearOfEra doe :=
    Int.tdiv_eq_ediv_of_nonneg (by omega)
  rw [Int.tdiv_eq_ediv_of_nonneg hbounds.1, Int.tdiv_eq_ediv_of_nonneg hbounds.1,
    Int.tdiv_eq_ediv_of_nonneg hbounds.1]
  refine Option.bind_eq_some_iff.mpr ⟨_, I64.sub_of_mem (by omega), ?_⟩
  refine Option.bind_eq_some_iff.mpr ⟨_, I64.add_of_mem (by omega), ?_⟩
  refine Option.bind_eq_some_iff.mpr ⟨_, I64.sub_of_mem (by omega), ?_⟩
  rw [hyearOf]
  have hdayOf : doe - (365 * yearOfEra doe + yearOfEra doe / 4 - yearOfEra doe / 100) = dayOfYear doe := rfl
  generalize yearOfEra doe = yoe at *
  refine Option.bind_eq_some_iff.mpr ⟨_, I64.mul_of_mem (by omega), ?_⟩
  rw [Int.tdiv_eq_ediv_of_nonneg hyear.1, Int.tdiv_eq_ediv_of_nonneg hyear.1]
  refine Option.bind_eq_some_iff.mpr ⟨_, I64.add_of_mem (by omega), ?_⟩
  refine Option.bind_eq_some_iff.mpr ⟨_, I64.sub_of_mem (by omega), ?_⟩
  refine Option.bind_eq_some_iff.mpr ⟨_, I64.sub_of_mem (by omega), ?_⟩
  rw [hdayOf]
  generalize dayOfYear doe = doy at *
  have hindexOf : (5 * doy + 2).tdiv 153 = monthIndex doy := Int.tdiv_eq_ediv_of_nonneg (by omega)
  have hindex : 0 ≤ monthIndex doy ∧ monthIndex doy ≤ 11 := by
    unfold monthIndex
    omega
  refine Option.bind_eq_some_iff.mpr ⟨_, I64.mul_of_mem (by omega), ?_⟩
  refine Option.bind_eq_some_iff.mpr ⟨_, I64.add_of_mem (by omega), ?_⟩
  rw [hindexOf]
  have hmonth : monthOf doy = if monthIndex doy < 10 then monthIndex doy + 3 else monthIndex doy - 9 := rfl
  have hdayOfMonth : dayOfMonth doy = doy - (153 * monthIndex doy + 2) / 5 + 1 := rfl
  rw [hmonth, hdayOfMonth]
  generalize monthIndex doy = index at *
  refine Option.bind_eq_some_iff.mpr ⟨_, I64.mul_of_mem (by omega), ?_⟩
  refine Option.bind_eq_some_iff.mpr ⟨_, I64.add_of_mem (by omega), ?_⟩
  rw [Int.tdiv_eq_ediv_of_nonneg (by omega)]
  refine Option.bind_eq_some_iff.mpr ⟨_, I64.sub_of_mem (by omega), ?_⟩
  refine Option.bind_eq_some_iff.mpr ⟨_, I64.add_of_mem (by omega), ?_⟩
  have hmonthOf : (if index < 10 then I64.add index 3 else I64.sub index 9) =
      some (if index < 10 then index + 3 else index - 9) := by
    split_ifs
    · exact I64.add_of_mem (by omega)
    · exact I64.sub_of_mem (by omega)
  rw [hmonthOf, Option.bind_some]
  generalize (if index < 10 then index + 3 else index - 9) = month at *
  have hend : 0 ≤ (if month ≤ 2 then 1 else 0 : ℤ) ∧ (if month ≤ 2 then 1 else 0 : ℤ) ≤ 1 := by
    split_ifs <;> decide
  refine Option.bind_eq_some_iff.mpr ⟨_, I64.mul_of_mem (by omega), ?_⟩
  refine Option.bind_eq_some_iff.mpr ⟨_, I64.add_of_mem (by omega), ?_⟩
  refine Option.bind_eq_some_iff.mpr ⟨_, I64.add_of_mem (by omega), ?_⟩
  rfl
end Torznab

end Rustorr
