import Rustorr.Http.AccessLog
import Rustorr.Http.Dlna
import Rustorr.Search.Civil

/-! The feed, the record database, the media server and the access log each compute with dates on
their own. They compute the same. -/

namespace Rustorr.Torznab

open Calendar (Date Counts)

/-- The day of a timestamp, as `Dlna.date` and `AccessLog.timestamp` compute it. -/
theorem civil_eq {n : ℤ} (h : -2 ^ 48 < n ∧ n < 2 ^ 48) : civil n =
    some (Calendar.civilYear n, Calendar.civilMonth n, Calendar.civilDay n) :=
  civil_of_fits (by omega) (by omega)

theorem civil_number_of {d : Date} {n : ℤ} (h : d.number = n)
    (hcivil : civil n = some (Calendar.civilYear n, Calendar.civilMonth n, Calendar.civilDay n)) :
    civil n = some (d.year, d.month, d.day) := by
  have hback := Calendar.ofNumber_number d
  rw [h] at hback
  rw [hcivil, ← hback]
  rfl

theorem civil_number (d : Date) (h : -2 ^ 48 < d.number ∧ d.number < 2 ^ 48) :
    civil d.number = some (d.year, d.month, d.day) := civil_number_of rfl (civil_eq h)

theorem padded_eq {width : ℕ} {n : ℤ} (h : 0 ≤ n) : Dlna.padded width n.natAbs = I64.padded width n :=
  (I64.padded_of_nonneg width h).symm

theorem date_eq (timestamp : ℤ) : Dlna.date timestamp =
    I64.padded 4 (Calendar.civilYear (timestamp / 86400)) ++
      '-' :: (I64.padded 2 (Calendar.civilMonth (timestamp / 86400)) ++
        '-' :: I64.padded 2 (Calendar.civilDay (timestamp / 86400))) := by
  obtain ⟨hmonth, hday, -⟩ := Calendar.civil_bounds (timestamp / 86400)
  have hdate : Dlna.date timestamp =
      I64.padded 4 (Calendar.civilYear (timestamp / 86400)) ++
        '-' :: Dlna.padded 2 (Calendar.civilMonth (timestamp / 86400)).natAbs ++
          '-' :: Dlna.padded 2 (Calendar.civilDay (timestamp / 86400)).natAbs := rfl
  rw [hdate, padded_eq (by omega), padded_eq (by omega)]
  simp

theorem timestamp_eq (seconds : ℕ) : AccessLog.timestamp seconds =
    I64.padded 4 (Calendar.civilYear (seconds / 86400 : ℕ)) ++
      '/' :: (I64.padded 2 (Calendar.civilMonth (seconds / 86400 : ℕ)) ++
        '/' :: (I64.padded 2 (Calendar.civilDay (seconds / 86400 : ℕ)) ++
          ' ' :: (I64.padded 2 (seconds % 86400 / 3600 : ℕ) ++
            ':' :: (I64.padded 2 (seconds % 86400 / 60 % 60 : ℕ) ++
              ':' :: I64.padded 2 (seconds % 86400 % 60 : ℕ))))) := rfl

theorem conversions_agree :
    -- the day of a date's number is the date
    (∀ (d : Date) n, days d.year d.month d.day = some n → civil n = some (d.year, d.month, d.day)) ∧
    -- the numbers count the days since the epoch
    days 1970 1 1 = some 0 ∧
    (∀ (d : Date) n n', days d.year d.month d.day = some n →
      days d.next.year d.next.month d.next.day = some n' → n' = n + 1) ∧
    (∀ f, Counts f → ∀ (d : Date) n, days d.year d.month d.day = some n → n = f d) ∧
    -- they fit 64 bits for very many years
    (∀ d : Date, -10 ^ 16 ≤ d.year → d.year ≤ 10 ^ 16 → ∃ n, days d.year d.month d.day = some n ∧
      Rutor.daysFromCivil d.year d.month d.day = some n) ∧
    -- the other conversions agree with these two
    (∀ (d : Date) n n', days d.year d.month d.day = some n →
      Rutor.daysFromCivil d.year d.month d.day = some n' → n' = n) ∧
    (∀ timestamp : ℤ, -2 ^ 63 ≤ timestamp → timestamp < 2 ^ 63 → ∃ year month day,
      civil (timestamp / 86400) = some (year, month, day) ∧
      Dlna.date timestamp =
        I64.padded 4 year ++ '-' :: (I64.padded 2 month ++ '-' :: I64.padded 2 day)) ∧
    ∀ seconds : U64, ∃ year month day, civil ((seconds : ℕ) / 86400 : ℕ) = some (year, month, day) ∧
      AccessLog.timestamp seconds =
        I64.padded 4 year ++ '/' :: (I64.padded 2 month ++ '/' :: (I64.padded 2 day ++
          ' ' :: (I64.padded 2 ((seconds : ℕ) % 86400 / 3600 : ℕ) ++
            ':' :: (I64.padded 2 ((seconds : ℕ) % 86400 / 60 % 60 : ℕ) ++
              ':' :: I64.padded 2 ((seconds : ℕ) % 86400 % 60 : ℕ))))) := by
  have hdays : ∀ (d : Date) n, days d.year d.month d.day = some n → n = d.number :=
    fun d n h => (number_of_days d.month_mem.1 h).1
  refine ⟨?_, by decide, ?_, ?_, ?_, ?_, ?_, ?_⟩
  · intro d n h
    obtain ⟨hnumber, hfits, hera⟩ := number_of_days d.month_mem.1 h
    have hnumber' : d.number = n := hnumber.symm
    rw [← d.era_parts.1, hnumber'] at hera
    exact civil_number_of hnumber' (civil_of_fits hfits hera)
  · intro d n n' h h'
    rw [hdays d n h, hdays d.next n' h']
    exact Calendar.number_next d
  · intro f hf d n h
    rw [hdays d n h, hf.eq_number]
  · intro d hlow hhigh
    have hday := d.day_mem
    have hlength := Calendar.monthLength_le d.year d.month
    have hmonth := d.month_mem
    exact ⟨d.number, days_of_fits ⟨hlow, hhigh⟩ hmonth (by omega),
      Rutor.daysFromCivil_of_fits ⟨hlow, hhigh⟩ (by omega) (by omega)⟩
  · intro d n n' h h'
    rw [hdays d n h]
    exact Rutor.number_of_daysFromCivil d.month_mem.1 h'
  · intro timestamp hlow hhigh
    exact ⟨_, _, _, civil_eq (by omega), date_eq timestamp⟩
  · intro seconds
    have hlt := U64.val_lt seconds
    exact ⟨_, _, _, civil_eq (by omega), timestamp_eq seconds⟩

end Rustorr.Torznab
