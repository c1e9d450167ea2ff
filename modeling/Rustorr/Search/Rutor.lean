import Rustorr.Http.Range
import Rustorr.Lib.Casing
import Rustorr.Lib.Signed
import Rustorr.Lib.Table
import Rustorr.Lib.Utf8Slice

/-! The Rutor database (`rutor.rs`): the records with the index of their titles' tokens, and the
search that puts the closest names first. `none` stands for a panic. -/

namespace Rustorr.Rutor

open Range (parseI64)

/-- What the search asks of the character database. -/
structure Letters where
  casing : Casing
  isAlphabetic : Char → Bool
  isNumeric : Char → Bool

/-- One search result, field for field as it is written. -/
structure TorrentDetails where
  title : List Char
  name : List Char
  names : Option (List (List Char))
  categories : List Char
  size : List Char
  createDate : List Char
  tracker : List Char
  link : List Char
  year : ℤ
  peer : ℤ
  seed : ℤ
  magnet : List Char
  hash : List Char
  imdbId : List Char
  videoQuality : ℤ
  audioQuality : ℤ

def TorrentDetails.namesJoined (torrent : TorrentDetails) : List Char :=
  Text.join ' ' (torrent.names.getD [])

/-! ### Tokens and the index -/

def stopWords : List (List Char) :=
  ["a", "am", "an", "and", "are", "as", "at", "be", "by", "did", "do", "is", "of", "or", "s", "so",
    "t", "и", "в", "с", "со", "а", "но", "к", "у", "же", "бы", "по", "от", "о", "из", "ну", "ли",
    "ни", "нибудь", "уж", "ведь", "ж", "об"].map String.toList

variable (u : Letters)

/-- The words of letters and numbers, in lower case without `ё`, but for the stop words. -/
def analyze (text : List Char) : List (List Char) :=
  let words := (text.splitOnP fun c => !u.isAlphabetic c && !u.isNumeric c).filter (· ≠ [])
  let folded := words.map fun word =>
    (u.casing.toLowercase word).map fun c => if c = 'ё' then 'е' else c
  folded.filter (· ∉ stopWords)

abbrev Index : Type := AList fun _ : List Char => List ℕ

/-- The record's id ends the token's list, once. -/
def addToken (id : ℕ) (index : Index) (token : List Char) : Index :=
  let ids := (index.lookup token).getD []
  Table.put index token (some (if ids.getLast? = some id then ids else ids ++ [id]))

def addTitle (index : Index) (entry : TorrentDetails × ℕ) : Index :=
  (analyze u entry.1.title).foldl (addToken entry.2) index

def buildIndex (torrents : List TorrentDetails) : Index := torrents.zipIdx.foldl (addTitle u) ∅

/-- The ids on both of two ordered lists, by walking along them. -/
def intersection : List ℕ → List ℕ → List ℕ
  | i :: left, j :: right =>
    if i < j then intersection left (j :: right)
    else if j < i then intersection (i :: left) right
    else i :: intersection left right
  | _, _ => []
termination_by left right => left.length + right.length

/-- Narrows the ids found so far to those of one more token, which has to be indexed. -/
def narrow (index : Index) (result : Option (List ℕ)) (token : List Char) :
    Option (Option (List ℕ)) :=
  (index.lookup token).map fun ids =>
    match result with
    | none => some ids
    | some current => some (intersection current ids)

def searchIndex (index : Index) (query : List Char) : List ℕ :=
  match (analyze u query).foldlM (narrow index) none with
  | none => []
  | some result => result.getD []

/-! ### The order of the results -/

/-- `utils.ClearStr`: lowercase ASCII digits and letters, Cyrillic `а`–`я` and `ё`. -/
def clearStr (text : List Char) : List Char :=
  (u.casing.toLowercase text).filter fun c =>
    ('0' ≤ c && c ≤ '9') || ('a' ≤ c && c ≤ 'z') || ('а' ≤ c && c ≤ 'я') || c = 'ё'

/-- Fills in the cell behind the `j`-th of the current row. -/
def cell (previous : List ℕ) (leftChar : Char) (current : List ℕ) (entry : Char × ℕ) :
    Option (List ℕ) := do
  let substitution := (← previous[entry.2]?) + if leftChar ≠ entry.1 then 1 else 0
  let deletion := (← previous[entry.2 + 1]?) + 1
  let insertion := (← current[entry.2]?) + 1
  if entry.2 + 1 < current.length then
    some (current.set (entry.2 + 1) (min (min substitution deletion) insertion))
  else none

def row (right : List Char) (previous : List ℕ) (entry : Char × ℕ) : Option (List ℕ) :=
  right.zipIdx.foldlM (cell previous entry.1) (List.replicate (right.length + 1) (entry.2 + 1))

def levenshtein (left right : List Char) : Option ℕ := do
  let previous ← left.zipIdx.foldlM (row right) (List.range (right.length + 1))
  previous[right.length]?

/-- Howard Hinnant's days-from-civil. -/
def daysFromCivil (year month day : ℤ) : Option ℤ :=
  (if month ≤ 2 then I64.sub year 1 else some year).bind fun year => do
    let era := year / 400
    let yearOfEra ← I64.sub year (← I64.mul era 400)
    let monthIndex := (← I64.add month 9).tmod 12
    let dayOfYear ← I64.sub (← I64.add ((← I64.add (← I64.mul 153 monthIndex) 2).tdiv 5) day) 1
    let dayOfEra ← I64.add (← I64.sub (← I64.add (← I64.mul yearOfEra 365) (yearOfEra.tdiv 4))
      (yearOfEra.tdiv 100)) dayOfYear
    I64.sub (← I64.add (← I64.mul era 146097) dayOfEra) 719468

/-- A date, a clock, a fraction of the second and an offset, in seconds. -/
structure Fields where
  year : ℤ
  month : ℤ
  day : ℤ
  hour : ℤ
  minute : ℤ
  second : ℤ
  nanos : ℤ
  offset : ℤ

/-- The fraction behind a dot, to nine digits, and what is behind it. -/
def readFraction (rest : List Char) : Option (ℤ × List Char) :=
  match rest with
  | '.' :: fraction => do
    let digits := fraction.takeWhile Char.isDigit
    let padded := digits ++ List.replicate (9 - digits.length) '0'
    let nanos ← parseI64 (← Utf8Slice.slice padded 0 9)
    some (nanos, fraction.drop digits.length)
  | _ => some (0, rest)

def readOffset (zone : List Char) : Option ℤ :=
  if zone = ['Z'] then some 0
  else do
    let first ← zone.head?
    let sign ← if first = '+' then some 1 else if first = '-' then some (-1) else none
    let hours ← parseI64 (← Utf8Slice.slice zone 1 3)
    let minutes ← parseI64 (← Utf8Slice.slice zone 4 6)
    some (sign * (hours * 3600 + minutes * 60))

def readRfc3339 (text : List Char) : Option Fields := do
  let year ← parseI64 (← Utf8Slice.slice text 0 4)
  let month ← parseI64 (← Utf8Slice.slice text 5 7)
  let day ← parseI64 (← Utf8Slice.slice text 8 10)
  let hour ← parseI64 (← Utf8Slice.slice text 11 13)
  let minute ← parseI64 (← Utf8Slice.slice text 14 16)
  let second ← parseI64 (← Utf8Slice.slice text 17 19)
  let (nanos, zone) ← readFraction (← Utf8Slice.sliceFrom text 19)
  let offset ← readOffset zone
  some ⟨year, month, day, hour, minute, second, nanos, offset⟩

/-- The outer `none` is an overflow, the inner one a text that is no date. -/
def parseRfc3339 (text : List Char) : Option (Option ℤ) :=
  match readRfc3339 text with
  | none => some none
  | some f => do
    let days ← daysFromCivil f.year f.month f.day
    let time ← I64.add (← I64.add (← I64.add (← I64.mul days 86400) (← I64.mul f.hour 3600))
      (← I64.mul f.minute 60)) f.second
    let seconds ← I64.sub time f.offset
    some (some (seconds * 1000000000 + f.nanos))

/-- Nanoseconds since the epoch; dates that cannot be read are the oldest. -/
def rfc3339Nanos (text : List Char) : Option ℤ := (parseRfc3339 text).map (·.getD (-2 ^ 127))

/-- What a record is compared by: the distance of its names, then its creation. -/
structure Key where
  distance : ℕ
  nanos : ℤ

def Key.le (a b : Key) : Bool :=
  a.distance < b.distance || (a.distance == b.distance && b.nanos ≤ a.nanos)

/-- The cleaned name and names of a record with its year. -/
def description (torrent : TorrentDetails) : List Char :=
  clearStr u (torrent.name ++ torrent.namesJoined) ++ I64.padded 0 torrent.year

def keyOf (target : List Char) (torrent : TorrentDetails) : Option Key := do
  let distance ← levenshtein target (description u torrent)
  let nanos ← rfc3339Nanos torrent.createDate
  some ⟨distance, nanos⟩

structure Loaded where
  torrents : List TorrentDetails
  index : Index

/-- What `load` keeps of the records it read. -/
def load (torrents : List TorrentDetails) : Loaded := ⟨torrents, buildIndex u torrents⟩

/-- Matching records, closest to the query first. -/
def search (loaded : Option Loaded) (query : List Char) : Option (List TorrentDetails) :=
  match loaded with
  | none => some []
  | some loaded => do
    let found ← (searchIndex u loaded.index query).mapM fun id => loaded.torrents[id]?
    let keys ← found.mapM (keyOf u (clearStr u query))
    some (((keys.zip found).mergeSort fun a b => a.1.le b.1).map Prod.snd)

end Rustorr.Rutor
