import Rustorr.Lib.Calendar
import Rustorr.Lib.Signed

/-! A date with a time of the day and an offset from UTC: the instant it is, and its text by
RFC 3339. -/

@[ext] structure Moment where
  date : Calendar.Date
  hour : ℤ
  minute : ℤ
  second : ℤ
  /-- East of UTC, in seconds. -/
  offset : ℤ
  hour_mem : 0 ≤ hour ∧ hour < 24
  minute_mem : 0 ≤ minute ∧ minute < 60
  second_mem : 0 ≤ second ∧ second < 60
  offset_mem : -86400 < offset ∧ offset < 86400
  offset_minutes : offset % 60 = 0

namespace Moment

open I64 (padded)

variable (m : Moment)

/-- The seconds of the day. -/
def time : ℤ := m.hour * 3600 + m.minute * 60 + m.second

/-- The seconds since the epoch. -/
def instant : ℤ := m.date.number * 86400 + m.time - m.offset

def zone (offset : ℤ) : List Char :=
  if offset = 0 then ['Z']
  else (if offset < 0 then '-' else '+') ::
    (padded 2 (offset.natAbs / 3600) ++ ':' :: padded 2 (offset.natAbs % 3600 / 60))

/-- A fraction of the second, by the digits behind its point. -/
def point (digits : List Char) : List Char := if digits = [] then [] else '.' :: digits

/-- The whole nanoseconds in a fraction. -/
def nanos (digits : List Char) : ℕ := Nat.ofDigitChars 10 digits 0 * 10 ^ 9 / 10 ^ digits.length

/-- The text with what is written behind the seconds. -/
def text (fraction : List Char) : List Char :=
  padded 4 m.date.year ++ '-' :: (padded 2 m.date.month ++ '-' :: (padded 2 m.date.day ++
    'T' :: (padded 2 m.hour ++ ':' :: (padded 2 m.minute ++ ':' :: (padded 2 m.second ++
      (fraction ++ zone m.offset))))))

theorem month_lt : 0 ≤ m.date.month ∧ m.date.month < 100 := by
  have h := m.date.month_mem
  omega

theorem day_lt : 0 ≤ m.date.day ∧ m.date.day < 100 := by
  have h := m.date.day_mem
  have hlength := Calendar.monthLength_le m.date.year m.date.month
  omega

theorem time_bounds : 0 ≤ m.time ∧ m.time < 86400 := by
  have hhour := m.hour_mem
  have hminute := m.minute_mem
  have hsecond := m.second_mem
  unfold time
  omega

/-- There is one moment for an instant and an offset. -/
theorem eq_of_instant {m m' : Moment} (hinstant : m.instant = m'.instant)
    (hoffset : m.offset = m'.offset) : m = m' := by
  have htime := m.time_bounds
  have htime' := m'.time_bounds
  unfold instant at hinstant
  have hday : m.date.number = m'.date.number := by omega
  have hclock : m.time = m'.time := by omega
  have hhour := m.hour_mem
  have hminute := m.minute_mem
  have hsecond := m.second_mem
  have hhour' := m'.hour_mem
  have hminute' := m'.minute_mem
  have hsecond' := m'.second_mem
  unfold time at hclock
  apply Moment.ext
  · exact Calendar.number_injective hday
  · omega
  · omega
  · omega
  · exact hoffset

/-- A text tells whether the offset is zero. -/
theorem offset_eq_zero_of_text {m m' : Moment} (hdate : m'.date = m.date) (hhour : m'.hour = m.hour)
    (hminute : m'.minute = m.minute) (hsecond : m'.second = m.second) (hzero : m'.offset = 0)
    (h : m'.text [] = m.text []) : m.offset = 0 := by
  unfold text at h
  rw [hdate, hhour, hminute, hsecond, hzero] at h
  simp only [List.append_cancel_left_eq, List.cons.injEq, true_and] at h
  by_contra hne
  unfold zone at h
  rw [if_pos rfl, if_neg hne] at h
  split at h
  · cases h
  · cases h

end Moment
