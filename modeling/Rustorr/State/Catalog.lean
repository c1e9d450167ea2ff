import Rustorr.Domain
import Mathlib.Data.List.AList
import Mathlib.Data.List.Sort

/-! The persistent catalog and settings document (`rustorr-state`). -/

namespace Rustorr

/-- Nanoseconds since the start of 1970. -/
abbrev SystemTime : Type := ℤ

inductive State.Error
  | database (context : String)
  | invalidValue (field reason : String)
  deriving DecidableEq

/-- A saved torrent as listed. -/
structure CatalogEntry where
  hash : InfoHash
  title : String
  poster : String
  category : String
  data : String
  addedAt : SystemTime
  size : ℕ
  deriving DecidableEq

/-- A playback position in seconds, by the bits of its `f64`. -/
abbrev Timecode : Type := UInt64

def Timecode.isFinite (t : Timecode) : Bool := (t >>> 52) &&& 0x7ff ≠ 0x7ff

/-- A file that was viewed, with the playback position reached in it. -/
structure ViewedEntry where
  torrent : InfoHash
  file : FileIndex
  timecode : Timecode
  deriving DecidableEq

structure WafLists where
  whitelist : String
  blacklist : String
  referers : String
  deriving DecidableEq

/-- The rows of `torrents`, each with its metainfo, the settings document, which is
kept as the value `δ` its text encodes, the viewed history and the WAF lists. -/
structure State (δ : Type) where
  torrents : AList fun _ : InfoHash => CatalogEntry × List UInt8
  settings : Option δ
  viewed : AList fun _ : InfoHash × FileIndex => Timecode
  waf : Option WafLists

namespace State

variable {δ : Type}

def empty : State δ := ⟨∅, none, ∅, none⟩

def unixSeconds (time : SystemTime) : Except Error ℕ :=
  if time < 0 then .error (.invalidValue "timestamp" "is before 1970")
  else
    let seconds := time.toNat / 10 ^ 9
    if seconds < 2 ^ 63 then .ok seconds
    else .error (.invalidValue "timestamp" "does not fit in 63 bits")

def systemTime (seconds : ℕ) : SystemTime := seconds * 10 ^ 9

/-- Replaces any earlier row with the same hash. Each operation is told whether
the database fails it. -/
def saveTorrent (fails : Bool) (entry : CatalogEntry) (metainfo : List UInt8) (s : State δ) :
    Except Error Unit × State δ :=
  match unixSeconds entry.addedAt with
  | .error e => (.error e, s)
  | .ok seconds =>
    if entry.size ≥ 2 ^ 63 then
      (.error (.invalidValue "torrent size" "does not fit in 63 bits"), s)
    else if fails then (.error (.database "save torrent"), s)
    else
      let row := { entry with addedAt := systemTime seconds }
      (.ok (), { s with torrents := s.torrents.insert entry.hash (row, metainfo) })

def torrent (fails : Bool) (hash : InfoHash) (s : State δ) : Except Error (Option CatalogEntry) :=
  if fails then .error (.database "load torrent")
  else .ok ((s.torrents.lookup hash).map Prod.fst)

def metainfo (fails : Bool) (hash : InfoHash) (s : State δ) : Except Error (Option (List UInt8)) :=
  if fails then .error (.database "load torrent metadata")
  else .ok ((s.torrents.lookup hash).map Prod.snd)

/-- The order of `ORDER BY added_at, info_hash`. -/
def Before (a b : CatalogEntry) : Prop :=
  a.addedAt < b.addedAt ∨ a.addedAt = b.addedAt ∧ a.hash.bytes ≤ b.hash.bytes

instance : DecidableRel Before := fun a b =>
  inferInstanceAs (Decidable (a.addedAt < b.addedAt ∨ _ ∧ _))

def listTorrents (fails : Bool) (s : State δ) : Except Error (List CatalogEntry) :=
  if fails then .error (.database "list torrents")
  else .ok ((s.torrents.entries.map fun row => row.2.1).insertionSort Before)

/-- Answers whether a torrent was removed. -/
def removeTorrent (fails : Bool) (hash : InfoHash) (s : State δ) : Except Error Bool × State δ :=
  if fails then (.error (.database "remove torrent"), s)
  else (.ok (s.torrents.lookup hash).isSome, { s with torrents := s.torrents.erase hash })

def setSettings (fails : Bool) (document : δ) (s : State δ) : Except Error Unit × State δ :=
  if fails then (.error (.database "save settings"), s)
  else (.ok (), { s with settings := some document })

def setViewed (fails : Bool) (entry : ViewedEntry) (s : State δ) : Except Error Unit × State δ :=
  if !entry.timecode.isFinite then
    (.error (.invalidValue "timecode" "is not a finite number"), s)
  else if fails then (.error (.database "save viewed file"), s)
  else (.ok (), { s with viewed := s.viewed.insert (entry.torrent, entry.file) entry.timecode })

/-- Ordered by torrent hash, then file index. -/
def listViewed (fails : Bool) (s : State δ) : Except Error (List ViewedEntry) :=
  if fails then .error (.database "list viewed files")
  else
    let entries := s.viewed.entries.map fun e => (⟨e.1.1, e.1.2, e.2⟩ : ViewedEntry)
    .ok (entries.insertionSort fun a b => a.torrent.bytes < b.torrent.bytes ∨
      a.torrent.bytes = b.torrent.bytes ∧ a.file.zeroBased ≤ b.file.zeroBased)

/-- One viewed file, or every one of the torrent. Answers how many were removed. -/
def removeViewed (fails : Bool) (torrent : InfoHash) (file : Option FileIndex) (s : State δ) :
    Except Error ℕ × State δ :=
  if fails then (.error (.database "remove viewed files"), s)
  else
    let keys := s.viewed.keys.filter fun k => k.1 = torrent ∧ file.all (k.2 = ·)
    (.ok keys.length, { s with viewed := keys.foldl (fun t k => t.erase k) s.viewed })

def wafLists (fails : Bool) (s : State δ) : Except Error WafLists :=
  if fails then .error (.database "load WAF lists") else .ok (s.waf.getD ⟨"", "", ""⟩)

def setWafLists (fails : Bool) (lists : WafLists) (s : State δ) : Except Error Unit × State δ :=
  if fails then (.error (.database "save WAF lists"), s)
  else (.ok (), { s with waf := some lists })

end State

end Rustorr
