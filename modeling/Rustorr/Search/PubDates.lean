import Rustorr.Lib.Moment
import Rustorr.Search.Conversions
import Rustorr.Search.Numbers

/-! Which texts the feed takes for dates, and what it makes of them. -/

namespace Rustorr.Torznab

open I64 (padded)
open Range (parseI64)

variable {names : List Char → Option ℤ} {m : Moment} {text zone : List Char} {offset : ℤ}

/-! ### Writing a moment -/

theorem zoneText_eq (offset : ℤ) : zoneText offset = Moment.zone offset := by
  unfold zoneText Moment.zone
  simp only
  rw [Int.tdiv_eq_ediv_of_nonneg (by omega), Int.tmod_eq_emod_of_nonneg (by omega),
    Int.tdiv_eq_ediv_of_nonneg (by omega)]

theorem formatRfc3339_instant (m : Moment)
    (h : -2 ^ 63 ≤ m.date.number * 86400 + m.time ∧ m.date.number * 86400 + m.time < 2 ^ 63) :
    formatRfc3339 m.instant m.offset = some (m.text []) := by
  have htime := m.time_bounds
  have hlocal : m.instant + m.offset = m.date.number * 86400 + m.time := by
    unfold Moment.instant
    omega
  have hday : (m.date.number * 86400 + m.time) / 86400 = m.date.number := by omega
  have hrest : (m.date.number * 86400 + m.time) % 86400 = m.time := by omega
  have hcivil := civil_number m.date (by omega)
  have hhour := m.hour_mem
  have hminute := m.minute_mem
  have hsecond := m.second_mem
  have hclock : m.time / 3600 = m.hour ∧ m.time % 3600 / 60 = m.minute ∧ m.time % 60 = m.second := by
    unfold Moment.time
    omega
  unfold formatRfc3339
  rw [I64.add_of_mem (by rw [hlocal]; exact h), hlocal, Option.bind_eq_bind, Option.bind_some]
  simp only [hday, hrest, hcivil, Option.bind_eq_bind, Option.bind_some]
  rw [Int.tdiv_eq_ediv_of_nonneg htime.1, Int.tmod_eq_emod_of_nonneg htime.1,
    Int.tdiv_eq_ediv_of_nonneg (by omega), Int.tmod_eq_emod_of_nonneg htime.1, hclock.1, hclock.2.1,
    hclock.2.2, zoneText_eq]
  unfold Moment.text
  simp

theorem part_mem {n k : ℕ} (h : n < k) : 0 ≤ (n : ℤ) ∧ (n : ℤ) < k := by omega

theorem hour_lt (now : ℕ) : now % 86400 / 3600 < 24 := by omega

theorem minute_lt (now : ℕ) : now % 3600 / 60 < 60 := by omega

theorem second_lt (now : ℕ) : now % 60 < 60 := by omega

theorem zero_mem : -86400 < (0 : ℤ) ∧ (0 : ℤ) < 86400 := by decide

/-- The moment of a clock that counts seconds. -/
def momentOf (now : ℕ) : Moment where
  date := Calendar.ofNumber ((now / 86400 : ℕ) : ℤ)
  hour := ((now % 86400 / 3600 : ℕ) : ℤ)
  minute := ((now % 3600 / 60 : ℕ) : ℤ)
  second := ((now % 60 : ℕ) : ℤ)
  offset := 0
  hour_mem := part_mem (hour_lt now)
  minute_mem := part_mem (minute_lt now)
  second_mem := part_mem (second_lt now)
  offset_mem := zero_mem
  offset_minutes := rfl

theorem instant_momentOf (now : ℕ) : (momentOf now).instant = now := by
  unfold Moment.instant Moment.time momentOf
  simp only [Calendar.number_ofNumber]
  omega

theorem currentTime_eq {now : ℕ} (h : now < 2 ^ 63) : currentTime now = some ((momentOf now).text []) := by
  have hinstant := instant_momentOf now
  have hoffset : (momentOf now).offset = 0 := rfl
  have hformat := formatRfc3339_instant (momentOf now) (by unfold Moment.instant at hinstant; omega)
  rw [hinstant, hoffset] at hformat
  unfold currentTime
  rw [if_pos (by omega)]
  exact hformat

/-- One second later, the clock shows another text. -/
theorem currentTime_ne : currentTime 0 ≠ currentTime 1 := by decide +kernel

/-! ### The dates of RFC 1123 -/

def dayNames : List (List Char) :=
  ["Mon", "Tue", "Wed", "Thu", "Fri", "Sat", "Sun"].map String.toList

def capital (c : Char) : Bool := 'A' ≤ c && c ≤ 'Z'

/-- A zone as it is written, with its offset. `names` reads the zones that have a name. -/
inductive ZoneWritten (names : List Char → Option ℤ) : List Char → ℤ → Prop
  | east {hours minutes : ℤ} (hhours : 0 ≤ hours ∧ hours < 24) (hminutes : 0 ≤ minutes ∧ minutes < 60) :
    ZoneWritten names ('+' :: (padded 2 hours ++ padded 2 minutes)) ((hours * 60 + minutes) * 60)
  | west {hours minutes : ℤ} (hhours : 0 ≤ hours ∧ hours < 24) (hminutes : 0 ≤ minutes ∧ minutes < 60) :
    ZoneWritten names ('-' :: (padded 2 hours ++ padded 2 minutes)) (-((hours * 60 + minutes) * 60))
  | name {zone : List Char} {offset : ℤ} (hcapital : zone.all capital) (h : names zone = some offset) :
    ZoneWritten names zone offset

def dateFields (m : Moment) (month zone : List Char) : List (List Char) :=
  [padded 2 m.date.day, month, padded 4 m.date.year,
    Text.join ':' [padded 2 m.hour, padded 2 m.minute, padded 2 m.second], zone]

/-- The text is the moment's date by RFC 1123, with this zone. -/
structure Written (names : List Char → Option ℤ) (zone : List Char) (m : Moment) (text : List Char) :
    Prop where
  year_mem : 0 ≤ m.date.year ∧ m.date.year < 10000
  zone_written : ZoneWritten names zone m.offset
  text_eq : ∃ weekday ∈ dayNames, ∃ month, months[(m.date.month - 1).toNat]? = some month ∧
    text = weekday ++ ',' :: ' ' :: Text.join ' ' (dateFields m month zone)

theorem notMem_padded {width : ℕ} {n : ℤ} (h : 0 ≤ n) {c : Char} (hc : c.isDigit = false) :
    c ∉ padded width n := by
  intro hmem
  rw [I64.isDigit_of_mem_padded h hmem] at hc
  cases hc

theorem space_notMem_zone (h : ZoneWritten names zone offset) : ' ' ∉ zone := by
  cases h with
  | east hhours hminutes =>
    have hhourText := @notMem_padded 2 _ hhours.1 ' ' rfl
    have hminuteText := @notMem_padded 2 _ hminutes.1 ' ' rfl
    simp [hhourText, hminuteText]
  | west hhours hminutes =>
    have hhourText := @notMem_padded 2 _ hhours.1 ' ' rfl
    have hminuteText := @notMem_padded 2 _ hminutes.1 ' ' rfl
    simp [hhourText, hminuteText]
  | name hcapital h =>
    intro hmem
    exact absurd (List.all_eq_true.mp hcapital ' ' hmem) (by decide)

theorem month_names : ∀ i < 12, ∃ name, months[i]? = some name ∧ ' ' ∉ name ∧
    months.findIdx? (· = name) = some i := by decide +kernel

theorem afterComma_append {front : List Char} (h : ',' ∉ front) (rest : List Char) :
    afterComma (front ++ ',' :: ' ' :: rest) = some rest := by
  induction front with
  | nil => rfl
  | cons c front ih =>
    obtain ⟨hc, hfront⟩ := List.ne_and_not_mem_of_not_mem_cons h
    rw [List.cons_append, afterComma, if_neg fun hcomma => hc hcomma.1.symm]
    exact ih hfront

theorem comma_notMem_dayNames : ∀ name ∈ dayNames, ',' ∉ name := by decide

theorem fieldsOf_written {weekday month : List Char} (hweekday : weekday ∈ dayNames)
    (hspace : ' ' ∉ month) (hzone : ' ' ∉ zone)
    (hyear : 0 ≤ m.date.year ∧ m.date.year < 10000) :
    fieldsOf (weekday ++ ',' :: ' ' :: Text.join ' ' (dateFields m month zone)) =
      some ⟨padded 2 m.date.day, month, padded 4 m.date.year,
        Text.join ':' [padded 2 m.hour, padded 2 m.minute, padded 2 m.second], zone⟩ := by
  have hclock : ' ' ∉ Text.join ':' [padded 2 m.hour, padded 2 m.minute, padded 2 m.second] := by
    have hhour := @notMem_padded 2 _ m.hour_mem.1 ' ' rfl
    have hminute := @notMem_padded 2 _ m.minute_mem.1 ' ' rfl
    have hsecond := @notMem_padded 2 _ m.second_mem.1 ' ' rfl
    simp [Text.join, List.intercalate, hhour, hminute, hsecond]
  have hday := @notMem_padded 2 _ m.day_lt.1 ' ' rfl
  have hyearText := @notMem_padded 4 _ hyear.1 ' ' rfl
  have hsplit : (Text.join ' ' (dateFields m month zone)).splitOn ' ' = dateFields m month zone := by
    apply Text.splitOn_join
    · simp [dateFields, hclock, hday, hyearText, hspace, hzone]
    · simp [dateFields]
  unfold fieldsOf
  rw [afterComma_append (comma_notMem_dayNames weekday hweekday), Option.bind_eq_bind,
    Option.bind_some, hsplit]
  rfl

theorem clockOf_written (m : Moment) :
    clockOf (Text.join ':' [padded 2 m.hour, padded 2 m.minute, padded 2 m.second]) =
      some (m.hour, m.minute, m.second) := by
  have hhour := m.hour_mem
  have hminute := m.minute_mem
  have hsecond := m.second_mem
  have hsplit : (Text.join ':' [padded 2 m.hour, padded 2 m.minute, padded 2 m.second]).splitOn ':' =
      [padded 2 m.hour, padded 2 m.minute, padded 2 m.second] := by
    apply Text.splitOn_join
    · have hhourText := @notMem_padded 2 _ hhour.1 ':' rfl
      have hminuteText := @notMem_padded 2 _ hminute.1 ':' rfl
      have hsecondText := @notMem_padded 2 _ hsecond.1 ':' rfl
      simp [hhourText, hminuteText, hsecondText]
    · simp
  unfold clockOf
  rw [hsplit]
  simp [parseI64_padded 2 (n := m.hour) (by omega), parseI64_padded 2 (n := m.minute) (by omega),
    parseI64_padded 2 (n := m.second) (by omega)]

theorem numbersOf_written {month : List Char} (hyear : 0 ≤ m.date.year ∧ m.date.year < 10000)
    (hmonth : months.findIdx? (· = month) = some (m.date.month - 1).toNat) :
    numbersOf ⟨padded 2 m.date.day, month, padded 4 m.date.year,
      Text.join ':' [padded 2 m.hour, padded 2 m.minute, padded 2 m.second], zone⟩ =
        some ⟨m.date.year, m.date.month, m.date.day, m.hour, m.minute, m.second⟩ := by
  have hday := m.day_lt
  have hone := m.date.month_mem.1
  have hdaySize : Utf8Slice.size (padded 2 m.date.day) = 2 := size_padded (by decide) hday
  have hyearSize : Utf8Slice.size (padded 4 m.date.year) = 4 := size_padded (by decide) hyear
  have hnumber : (((m.date.month - 1).toNat + 1 : ℕ) : ℤ) = m.date.month := by omega
  unfold numbersOf
  rw [if_neg (by simp [hdaySize, hyearSize])]
  simp only [hmonth, Option.bind_eq_bind, Option.bind_some, clockOf_written]
  rw [parseI64_padded 2 (by omega), Option.bind_some, parseI64_padded 4 (by omega), Option.bind_some,
    hnumber]

theorem localSeconds_written (hyear : 0 ≤ m.date.year ∧ m.date.year < 10000) :
    localSeconds ⟨m.date.year, m.date.month, m.date.day, m.hour, m.minute, m.second⟩ =
      some (m.date.number * 86400 + m.time) ∧
        -10 ^ 12 < m.date.number * 86400 ∧ m.date.number * 86400 < 10 ^ 12 := by
  have hday := m.day_lt
  have hmonth := m.date.month_mem
  have hhour := m.hour_mem
  have hminute := m.minute_mem
  have hsecond := m.second_mem
  have hdays : days m.date.year m.date.month m.date.day = some m.date.number :=
    days_of_fits (by omega) hmonth (by omega)
  have hnumber : -10 ^ 7 < m.date.number ∧ m.date.number < 10 ^ 7 := by
    unfold Calendar.Date.number Calendar.number Calendar.startYear
    split_ifs <;> omega
  unfold localSeconds Moment.time
  simp only [hdays, Option.bind_eq_bind, Option.bind_some]
  rw [I64.mul_of_mem (by omega), Option.bind_some, I64.mul_of_mem (by omega), Option.bind_some,
    I64.add_of_mem (by omega), Option.bind_some, I64.mul_of_mem (by omega), Option.bind_some,
    I64.add_of_mem (by omega), Option.bind_some, I64.add_of_mem (by omega), Option.some_inj]
  omega

/-- A date is written back with the offset its zone is read as, if it is read as one. -/
theorem parseRfc1123_written {weekday month : List Char} {read : Option ℤ}
    (hweekday : weekday ∈ dayNames) (hmonth : months[(m.date.month - 1).toNat]? = some month)
    (hspace : ' ' ∉ zone) (hyear : 0 ≤ m.date.year ∧ m.date.year < 10000)
    (hread : zoneOffset zone = some read) (hoffset : ∀ offset, read = some offset → offset = m.offset) :
    parseRfc1123 (weekday ++ ',' :: ' ' :: Text.join ' ' (dateFields m month zone)) =
      some (read.map fun _ => m.text []) := by
  have hbounds := m.date.month_mem
  obtain ⟨name, hname, hplain, hfind⟩ := month_names (m.date.month - 1).toNat (by omega)
  rw [hname, Option.some_inj] at hmonth
  rw [hmonth] at hplain hfind
  unfold parseRfc1123
  rw [fieldsOf_written hweekday hplain hspace hyear, Option.bind_some, numbersOf_written hyear hfind,
    Option.map_some]
  simp only [hread, Option.bind_eq_bind, Option.bind_some]
  cases read with
  | none => rfl
  | some offset =>
    obtain ⟨hlocal, hlow, hhigh⟩ := localSeconds_written hyear
    have htime := m.time_bounds
    have hzone := m.offset_mem
    have hinstant : m.date.number * 86400 + m.time - m.offset = m.instant := rfl
    rw [hoffset offset rfl, hlocal]
    simp only [Option.bind_some]
    rw [I64.sub_of_mem (by omega), hinstant, Option.bind_some,
      formatRfc3339_instant m (by omega), Option.bind_some]
    rfl

/-! ### The zone -/

def Signed (zone : List Char) : Prop := zone.head? = some '+' ∨ zone.head? = some '-'

/-- The zones that are read as they are meant: all with a sign, and names of three to five letters
for no offset. -/
def Heeded (zone : List Char) (offset : ℤ) : Prop :=
  Signed zone ∨ (3 ≤ zone.length ∧ zone.length ≤ 5 ∧ offset = 0)

/-- What the code takes for a zone, or trips over: four bytes behind a sign with a number in each half
where they can be halved, or three to five capitals. -/
def ZoneShaped (zone : List Char) : Prop :=
  (∃ sign digits, (sign = '+' ∨ sign = '-') ∧ zone = sign :: digits ∧ Utf8Slice.size digits = 4 ∧
    ∀ hours minutes, Utf8Slice.splitAt digits 2 = some (hours, minutes) →
      parseI64 hours ≠ none ∧ parseI64 minutes ≠ none) ∨
  (zone.all capital ∧ 3 ≤ zone.length ∧ zone.length ≤ 5)

/-- Everything the code does not take for a text without a date. -/
def Loose (text : List Char) : Prop :=
  ∃ fields n, fieldsOf text = some fields ∧ numbersOf fields = some n ∧ ZoneShaped fields.zone

theorem not_signed_of_capital (h : zone.all capital = true) : ¬Signed zone := by
  rintro (hsign | hsign)
  · exact absurd (List.all_eq_true.mp h '+' (List.mem_of_head? hsign)) (by decide)
  · exact absurd (List.all_eq_true.mp h '-' (List.mem_of_head? hsign)) (by decide)

/-- A zone without a sign is read by its letters alone. -/
theorem zoneOffset_of_not_signed (h : ¬Signed zone) : zoneOffset zone =
    if zone.all capital ∧ 3 ≤ zone.length ∧ zone.length ≤ 5 then some (some 0) else some none := by
  unfold zoneOffset
  split
  · exact absurd (Or.inl rfl) h
  · exact absurd (Or.inr rfl) h
  · rfl

theorem signedOffset_padded (sign : ℤ) {hours minutes : ℤ} (hhours : 0 ≤ hours ∧ hours < 10 ^ 2)
    (hminutes : 0 ≤ minutes ∧ minutes < 10 ^ 2) :
    signedOffset sign (padded 2 hours ++ padded 2 minutes) =
      some (some (sign * ((hours * 60 + minutes) * 60))) := by
  have hhourSize : Utf8Slice.size (padded 2 hours) = 2 := size_padded (by decide) hhours
  have hminuteSize : Utf8Slice.size (padded 2 minutes) = 2 := size_padded (by decide) hminutes
  have hsplit := Utf8Slice.splitAt_append (padded 2 hours) (padded 2 minutes)
  rw [hhourSize] at hsplit
  unfold signedOffset
  rw [if_neg (by rw [Utf8Slice.size_append, hhourSize, hminuteSize]; decide), hsplit]
  simp only [Option.bind_eq_bind]
  rw [parseI64_padded 2 (by omega), Option.bind_some, parseI64_padded 2 (by omega), Option.bind_some]

theorem signedOffset_eq_none {sign : ℤ} {digits : List Char} :
    signedOffset sign digits = some none ↔ ¬(Utf8Slice.size digits = 4 ∧
      ∀ hours minutes, Utf8Slice.splitAt digits 2 = some (hours, minutes) →
        parseI64 hours ≠ none ∧ parseI64 minutes ≠ none) := by
  unfold signedOffset
  by_cases hsize : Utf8Slice.size digits = 4
  · rw [if_neg (by simp [hsize])]
    cases hsplit : Utf8Slice.splitAt digits 2 with
    | none => simp [hsize]
    | some parts =>
      obtain ⟨hours, minutes⟩ := parts
      cases hhours : parseI64 hours with
      | none => simp [hhours]
      | some h =>
        cases hminutes : parseI64 minutes with
        | none => simp [hhours, hminutes]
        | some n => simp [hsize, hhours, hminutes]
  · rw [if_pos hsize]
    simp [hsize]

theorem zoneOffset_eq_none : zoneOffset zone = some none ↔ ¬ZoneShaped zone := by
  by_cases hsigned : Signed zone
  · have hletters : ¬zone.all capital = true := fun h => not_signed_of_capital h hsigned
    have hshaped : ∀ sign digits, (sign = '+' ∨ sign = '-') → zone = sign :: digits →
        (ZoneShaped zone ↔ Utf8Slice.size digits = 4 ∧
          ∀ hours minutes, Utf8Slice.splitAt digits 2 = some (hours, minutes) →
            parseI64 hours ≠ none ∧ parseI64 minutes ≠ none) := by
      intro sign digits hsign hzone
      constructor
      · rintro (⟨sign', digits', -, hzone', hdigits⟩ | ⟨hcapital, -⟩)
        · rw [hzone'] at hzone
          rw [← (List.cons.inj hzone).2]
          exact hdigits
        · exact absurd hcapital hletters
      · exact fun hdigits => Or.inl ⟨sign, digits, hsign, hzone, hdigits⟩
    unfold zoneOffset
    split
    · next digits => rw [signedOffset_eq_none, hshaped '+' digits (Or.inl rfl) rfl]
    · next digits => rw [signedOffset_eq_none, hshaped '-' digits (Or.inr rfl) rfl]
    · next hplus hminus =>
      exfalso
      cases zone with
      | nil => rcases hsigned with h | h <;> cases h
      | cons c rest =>
        rcases hsigned with h | h
        · exact hplus rest (by rw [Option.some.inj h])
        · exact hminus rest (by rw [Option.some.inj h])
  · have hnone : ∀ sign digits, (sign = '+' ∨ sign = '-') → zone ≠ sign :: digits := by
      rintro sign digits (rfl | rfl) hzone
      · exact hsigned (Or.inl (by rw [hzone]; rfl))
      · exact hsigned (Or.inr (by rw [hzone]; rfl))
    rw [zoneOffset_of_not_signed hsigned]
    unfold ZoneShaped
    split
    · next hcapital => simp [hcapital]
    · next hcapital =>
      simp only [true_iff]
      rintro (⟨sign, digits, hsign, hzone, -⟩ | h)
      · exact hnone sign digits hsign hzone
      · exact hcapital h

theorem parseRfc1123_eq_none : parseRfc1123 text = some none ↔ ¬Loose text := by
  unfold parseRfc1123 Loose
  cases hfields : fieldsOf text with
  | none => simp
  | some fields =>
    cases hnumbers : numbersOf fields with
    | none => simp [hnumbers]
    | some n =>
      have hzone := @zoneOffset_eq_none fields.zone
      simp only [Option.bind_some, hnumbers, Option.map_some, Option.bind_eq_bind]
      have hloose : (∃ fields' n', some fields = some fields' ∧ numbersOf fields' = some n' ∧
          ZoneShaped fields'.zone) ↔ ZoneShaped fields.zone := by
        constructor
        · rintro ⟨fields', n', hsame, -, hshaped⟩
          rw [Option.some.inj hsame]
          exact hshaped
        · exact fun hshaped => ⟨fields, n, rfl, hnumbers, hshaped⟩
      rw [hloose, ← hzone]
      cases zoneOffset fields.zone with
      | none => simp
      | some read =>
        cases read with
        | none => simp
        | some offset => simp [Option.bind_eq_some_iff]

/-- A zone that is written is signed and read as it is meant, or it is letters with a name. -/
theorem zone_cases (h : ZoneWritten names zone offset) :
    (Signed zone ∧ zoneOffset zone = some (some offset)) ∨
      (zone.all capital = true ∧ names zone = some offset) := by
  cases h with
  | east hhours hminutes =>
    have hread := signedOffset_padded 1 ⟨hhours.1, hhours.2.trans (by decide)⟩
      ⟨hminutes.1, hminutes.2.trans (by decide)⟩
    rw [one_mul] at hread
    exact Or.inl ⟨Or.inl rfl, hread⟩
  | west hhours hminutes =>
    have hread := signedOffset_padded (-1) ⟨hhours.1, hhours.2.trans (by decide)⟩
      ⟨hminutes.1, hminutes.2.trans (by decide)⟩
    rw [neg_one_mul] at hread
    exact Or.inl ⟨Or.inr rfl, hread⟩
  | name hcapital h => exact Or.inr ⟨hcapital, h⟩

theorem zoneOffset_of_heeded (h : ZoneWritten names zone offset) (hheeded : Heeded zone offset) :
    zoneOffset zone = some (some offset) := by
  rcases zone_cases h with ⟨-, hread⟩ | ⟨hcapital, -⟩
  · exact hread
  · have hsigned := not_signed_of_capital hcapital
    rcases hheeded with hsign | ⟨hlow, hhigh, rfl⟩
    · exact absurd hsign hsigned
    · rw [zoneOffset_of_not_signed hsigned, if_pos ⟨hcapital, hlow, hhigh⟩]

theorem zone_unique {offset' : ℤ} (h : ZoneWritten names zone offset)
    (h' : ZoneWritten names zone offset') : offset = offset' := by
  rcases zone_cases h with ⟨hsigned, hread⟩ | ⟨hcapital, hname⟩
  · rcases zone_cases h' with ⟨-, hread'⟩ | ⟨hcapital', -⟩
    · rw [hread, Option.some_inj, Option.some_inj] at hread'
      exact hread'
    · exact absurd hsigned (not_signed_of_capital hcapital')
  · rcases zone_cases h' with ⟨hsigned', -⟩ | ⟨-, hname'⟩
    · exact absurd hsigned' (not_signed_of_capital hcapital)
    · rw [hname, Option.some_inj] at hname'
      exact hname'

/-! ### Dates and other texts -/

/-- What the result has to be: the moment that the text is the date of, or the time it is now. -/
def Meets (names : List Char → Option ℤ) (text : List Char) : Prop :=
  ∀ now : ℕ, now < 2 ^ 63 → ∃ written, goDate now text = some written ∧
    (∀ zone m, Written names zone m text → written = m.text []) ∧
    ((∀ zone m, ¬Written names zone m text) →
      ∃ m : Moment, m.instant = now ∧ m.offset = 0 ∧ written = m.text [])

theorem goDate_of_parse {now : ℕ} {written : List Char} (h : parseRfc1123 text = some (some written)) :
    goDate now text = some written := by
  unfold goDate
  rw [h, Option.bind_eq_bind, Option.bind_some]

theorem goDate_of_none {now : ℕ} (h : parseRfc1123 text = some none) :
    goDate now text = currentTime now := by
  unfold goDate
  rw [h, Option.bind_eq_bind, Option.bind_some]

/-- A text whose zone is heeded is its moment's date. -/
theorem parseRfc1123_of_heeded (h : Written names zone m text) (hheeded : Heeded zone m.offset) :
    parseRfc1123 text = some (some (m.text [])) := by
  obtain ⟨weekday, hweekday, month, hmonth, htext⟩ := h.text_eq
  rw [htext]
  exact parseRfc1123_written hweekday hmonth (space_notMem_zone h.zone_written) h.year_mem
    (zoneOffset_of_heeded h.zone_written hheeded) fun offset heq => (Option.some.inj heq).symm

theorem zone_of_written {zone' : List Char} {m' : Moment} (h : Written names zone m text)
    (h' : Written names zone' m' text) : zone = zone' := by
  obtain ⟨weekday, hweekday, month, hmonth, htext⟩ := h.text_eq
  obtain ⟨weekday', hweekday', month', hmonth', htext'⟩ := h'.text_eq
  have hplain : ∀ {m : Moment} {name : List Char}, months[(m.date.month - 1).toNat]? = some name →
      ' ' ∉ name := by
    intro m name hname
    have hbounds := m.date.month_mem
    obtain ⟨name', hname', hspace, -⟩ := month_names (m.date.month - 1).toNat (by omega)
    rw [hname', Option.some_inj] at hname
    rwa [hname] at hspace
  have hfields := fieldsOf_written hweekday (hplain hmonth) (space_notMem_zone h.zone_written) h.year_mem
  have hfields' := fieldsOf_written hweekday' (hplain hmonth') (space_notMem_zone h'.zone_written)
    h'.year_mem
  rw [← htext] at hfields
  rw [← htext', hfields, Option.some_inj] at hfields'
  exact congrArg Fields.zone hfields'

/-- The clock goes on, so no text is the time it is now. -/
theorem not_constant {written : List Char} (h : ∀ now : ℕ, now < 2 → ∃ m : Moment, m.instant = now ∧
    m.offset = 0 ∧ written = m.text []) : False := by
  have hmoment : ∀ now : ℕ, now < 2 → currentTime now = some written := by
    intro now hnow
    obtain ⟨m, hinstant, hoffset, hwritten⟩ := h now hnow
    have hsame : m = momentOf now := Moment.eq_of_instant (hinstant.trans (instant_momentOf now).symm) hoffset
    rw [currentTime_eq (by omega), hwritten, hsame]
  exact currentTime_ne ((hmoment 0 (by decide)).trans (hmoment 1 (by decide)).symm)

/-- The same date and clock without an offset. -/
def atZero (m : Moment) : Moment := ⟨m.date, m.hour, m.minute, m.second, 0, m.hour_mem, m.minute_mem,
  m.second_mem, zero_mem, rfl⟩

/-- A date that the result is right for has a zone that is heeded. -/
theorem heeded_of_meets (h : Written names zone m text) (hmeets : Meets names text) :
    Heeded zone m.offset := by
  rcases zone_cases h.zone_written with ⟨hsigned, -⟩ | ⟨hcapital, -⟩
  · exact Or.inl hsigned
  · have hoffset := zoneOffset_of_not_signed (not_signed_of_capital hcapital)
    obtain ⟨weekday, hweekday, month, hmonth, htext⟩ := h.text_eq
    have hspace := space_notMem_zone h.zone_written
    by_cases hsize : 3 ≤ zone.length ∧ zone.length ≤ 5
    · -- read as no offset
      rw [if_pos ⟨hcapital, hsize⟩] at hoffset
      have hparse := @parseRfc1123_written (atZero m) zone weekday month _ hweekday hmonth hspace
        h.year_mem hoffset fun offset heq => (Option.some.inj heq).symm
      have hsame : dateFields (atZero m) month zone = dateFields m month zone := rfl
      rw [hsame, ← htext] at hparse
      obtain ⟨written, hdate, hwritten, -⟩ := hmeets 0 (by decide)
      rw [goDate_of_parse hparse, Option.some_inj] at hdate
      have hzero := @Moment.offset_eq_zero_of_text m (atZero m) rfl rfl rfl rfl rfl
        (hdate.trans (hwritten zone m h))
      exact Or.inr ⟨hsize.1, hsize.2, hzero⟩
    · -- not read, and the result goes with the clock
      exfalso
      rw [if_neg fun hall => hsize hall.2] at hoffset
      have hparse := parseRfc1123_written hweekday hmonth hspace h.year_mem hoffset
        fun offset heq => (Option.some_ne_none offset heq.symm).elim
      rw [← htext] at hparse
      apply @not_constant (m.text [])
      intro now hnow
      obtain ⟨written, hdate, hwritten, -⟩ := hmeets now (by omega)
      rw [goDate_of_none hparse, currentTime_eq (by omega), Option.some_inj] at hdate
      rw [← hwritten zone m h, ← hdate]
      exact ⟨momentOf now, instant_momentOf now, rfl, rfl⟩

/-- Where the dates of a feed are right: a date is one whose zone is heeded, and no other text looks
like one. -/
theorem goDate_meets_iff (names : List Char → Option ℤ) (text : List Char) : Meets names text ↔
    (∃ zone m, Written names zone m text ∧ Heeded zone m.offset) ∨
      (¬Loose text ∧ ∀ zone m, ¬Written names zone m text) := by
  constructor
  · intro hmeets
    by_cases hwritten : ∃ zone m, Written names zone m text
    · obtain ⟨zone, m, h⟩ := hwritten
      exact Or.inl ⟨zone, m, h, heeded_of_meets h hmeets⟩
    · have hnot : ∀ zone m, ¬Written names zone m text := fun zone m h => hwritten ⟨zone, m, h⟩
      refine Or.inr ⟨?_, hnot⟩
      rw [← parseRfc1123_eq_none]
      cases hparse : parseRfc1123 text with
      | none =>
        obtain ⟨written, hdate, -⟩ := hmeets 0 (by decide)
        unfold goDate at hdate
        rw [hparse] at hdate
        cases hdate
      | some result =>
        cases result with
        | none => rfl
        | some written =>
          -- the text is read as a date, the same at all times
          exfalso
          apply @not_constant written
          intro now hnow
          obtain ⟨written', hdate, -, hcurrent⟩ := hmeets now (by omega)
          rw [goDate_of_parse hparse, Option.some_inj] at hdate
          rw [hdate]
          exact hcurrent hnot
  · rintro (⟨zone, m, h, hheeded⟩ | ⟨hloose, hnot⟩)
    · have hparse := parseRfc1123_of_heeded h hheeded
      intro now hnow
      refine ⟨m.text [], goDate_of_parse hparse, ?_, fun hnot => absurd h (hnot zone m)⟩
      intro zone' m' h'
      obtain rfl := zone_of_written h h'
      rw [zone_unique h.zone_written h'.zone_written] at hheeded
      have hparse' := parseRfc1123_of_heeded h' hheeded
      rw [hparse, Option.some_inj, Option.some_inj] at hparse'
      exact hparse'
    · have hparse := parseRfc1123_eq_none.mpr hloose
      intro now hnow
      refine ⟨_, (goDate_of_none hparse).trans (currentTime_eq hnow), fun zone m h => absurd h (hnot zone m), ?_⟩
      exact fun _ => ⟨momentOf now, instant_momentOf now, rfl, rfl⟩

/-- Four bytes behind a sign that cannot be halved are a panic, and a day that there is not is taken
with an hour that there is not. -/
theorem goDate_panics :
    goDate 0 "Mon, 02 Jan 2006 15:04:05 +a€".toList = none ∧
      goDate 0 "Sat, 31 Feb 2024 25:61:61 GMT".toList = some "2024-03-03T02:02:01Z".toList ∧
        ¬Meets (fun _ => none) "Mon, 02 Jan 2006 15:04:05 +a€".toList := by
  have hpanic : goDate 0 "Mon, 02 Jan 2006 15:04:05 +a€".toList = none := by decide +kernel
  refine ⟨hpanic, by decide +kernel, ?_⟩
  intro hmeets
  obtain ⟨written, hdate, -⟩ := hmeets 0 (by decide)
  rw [hpanic] at hdate
  cases hdate

end Rustorr.Torznab
