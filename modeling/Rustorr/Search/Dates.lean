import Rustorr.Http.Range
import Rustorr.Lib.Signed
import Rustorr.Lib.Utf8Slice

/-! The dates of a feed (`torznab.rs`): RFC 1123 texts are read and written back as RFC 3339. The
outer `none` of a result stands for a panic or an overflow. -/

namespace Rustorr.Torznab

open Range (parseI64)

def days (year month day : ℤ) : Option ℤ :=
  (if month ≤ 2 then I64.sub year 1 else some year).bind fun year => do
    let era := year / 400
    let yearOfEra ← I64.sub year (← I64.mul era 400)
    let monthIndex := (← I64.add month 9).tmod 12
    let dayOfYear ← I64.sub (← I64.add ((← I64.add (← I64.mul 153 monthIndex) 2).tdiv 5) day) 1
    let sum ← I64.add (← I64.mul era 146097) (← I64.mul yearOfEra 365)
    let sum ← I64.sub (← I64.add sum (yearOfEra.tdiv 4)) (yearOfEra.tdiv 100)
    I64.sub (← I64.add sum dayOfYear) 719468

/-- Howard Hinnant's civil-from-days. -/
def civil (days : ℤ) : Option (ℤ × ℤ × ℤ) := do
  let z ← I64.add days 719468
  let era := z / 146097
  let dayOfEra ← I64.sub z (← I64.mul era 146097)
  let sum ← I64.add (← I64.sub dayOfEra (dayOfEra.tdiv 1460)) (dayOfEra.tdiv 36524)
  let yearOfEra := (← I64.sub sum (dayOfEra.tdiv 146096)).tdiv 365
  let before ← I64.add (← I64.mul 365 yearOfEra) (yearOfEra.tdiv 4)
  let dayOfYear ← I64.sub dayOfEra (← I64.sub before (yearOfEra.tdiv 100))
  let monthIndex := (← I64.add (← I64.mul 5 dayOfYear) 2).tdiv 153
  let day ← I64.add (← I64.sub dayOfYear ((← I64.add (← I64.mul 153 monthIndex) 2).tdiv 5)) 1
  (if monthIndex < 10 then I64.add monthIndex 3 else I64.sub monthIndex 9).bind fun month => do
    let year ← I64.add (← I64.add yearOfEra (← I64.mul era 400)) (if month ≤ 2 then 1 else 0)
    some (year, month, day)

def zoneText (offset : ℤ) : List Char :=
  let size : ℤ := offset.natAbs
  if offset = 0 then ['Z']
  else (if offset < 0 then '-' else '+') ::
    (I64.padded 2 (size.tdiv 3600) ++ ':' :: I64.padded 2 ((size.tmod 3600).tdiv 60))

def formatRfc3339 (utcSeconds offset : ℤ) : Option (List Char) := do
  let local_ ← I64.add utcSeconds offset
  let seconds := local_ % 86400
  let (year, month, day) ← civil (local_ / 86400)
  some (I64.padded 4 year ++ '-' :: I64.padded 2 month ++ '-' :: I64.padded 2 day ++
    'T' :: I64.padded 2 (seconds.tdiv 3600) ++ ':' :: I64.padded 2 ((seconds.tmod 3600).tdiv 60) ++
    ':' :: I64.padded 2 (seconds.tmod 60) ++ zoneText offset)

/-- What is behind the first `", "`. -/
def afterComma : List Char → Option (List Char)
  | [] => none
  | c :: rest =>
    if c = ',' ∧ rest.head? = some ' ' then some rest.tail else afterComma rest

def months : List (List Char) :=
  ["Jan", "Feb", "Mar", "Apr", "May", "Jun", "Jul", "Aug", "Sep", "Oct", "Nov", "Dec"].map
    String.toList

/-- The five fields of a date, as they are written. -/
structure Fields where
  day : List Char
  month : List Char
  year : List Char
  time : List Char
  zone : List Char

def fieldsOf (text : List Char) : Option Fields := do
  match (← afterComma text).splitOn ' ' with
  | [day, month, year, time, zone] => some ⟨day, month, year, time, zone⟩
  | _ => none

/-- The seconds behind a sign. Cutting a character of the four bytes apart is a panic. -/
def signedOffset (sign : ℤ) (digits : List Char) : Option (Option ℤ) :=
  if Utf8Slice.size digits ≠ 4 then some none
  else match Utf8Slice.splitAt digits 2 with
    | none => none
    | some (hours, minutes) => some do
      let hours ← parseI64 hours
      let minutes ← parseI64 minutes
      some (sign * ((hours * 60 + minutes) * 60))

def zoneOffset (zone : List Char) : Option (Option ℤ) :=
  match zone with
  | '+' :: digits => signedOffset 1 digits
  | '-' :: digits => signedOffset (-1) digits
  | _ =>
    if zone.all (fun c => 'A' ≤ c && c ≤ 'Z') ∧ 3 ≤ zone.length ∧ zone.length ≤ 5 then some (some 0)
    else some none

/-- The numbers of a date, before the offset is looked at. -/
structure Numbers where
  year : ℤ
  month : ℤ
  day : ℤ
  hour : ℤ
  minute : ℤ
  second : ℤ

def clockOf (time : List Char) : Option (ℤ × ℤ × ℤ) := do
  match ← (time.splitOn ':').mapM parseI64 with
  | [hour, minute, second] => some (hour, minute, second)
  | _ => none

def numbersOf (fields : Fields) : Option Numbers := do
  if Utf8Slice.size fields.day ≠ 2 ∨ Utf8Slice.size fields.year ≠ 4 then none
  else
    let month := (← months.findIdx? (· = fields.month)) + 1
    let day ← parseI64 fields.day
    let year ← parseI64 fields.year
    let (hour, minute, second) ← clockOf fields.time
    some ⟨year, month, day, hour, minute, second⟩

def localSeconds (n : Numbers) : Option ℤ := do
  let time ← I64.add (← I64.mul (← days n.year n.month n.day) 86400) (← I64.mul n.hour 3600)
  I64.add (← I64.add time (← I64.mul n.minute 60)) n.second

/-- The inner `none` is a text that is no date. -/
def parseRfc1123 (text : List Char) : Option (Option (List Char)) :=
  match (fieldsOf text).bind fun fields => (numbersOf fields).map fun n => (n, fields.zone) with
  | none => some none
  | some (n, zone) => do
    match ← zoneOffset zone with
    | none => some none
    | some offset =>
      let utc ← I64.sub (← localSeconds n) offset
      some (← formatRfc3339 utc offset)

/-- The clock is read in seconds since the epoch. -/
def currentTime (now : ℕ) : Option (List Char) :=
  formatRfc3339 (if (now : ℤ) < 2 ^ 63 then now else 0) 0

def goDate (now : ℕ) (text : List Char) : Option (List Char) := do
  match ← parseRfc1123 text with
  | some written => some written
  | none => currentTime now

end Rustorr.Torznab
