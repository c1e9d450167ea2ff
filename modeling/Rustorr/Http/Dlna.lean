import Rustorr.Http.Didl
import Rustorr.Http.MediaType
import Rustorr.Lib.Casing
import Rustorr.Lib.Percent
import Rustorr.Lifecycle.Coordinator
import Rustorr.Vfs.Path

/-! The directory of the media server (`dlna/content.rs`): the torrents, their categories and their
media files, by object ids. -/

namespace Rustorr.Dlna

open Coordinator (TorrentFileView)
open Didl

/-- What the directory shows of a torrent. -/
structure TorrentView where
  title : List Char
  category : List Char
  poster : List Char
  timestamp : ℤ
  name : Option (List Char)
  hash : InfoHash
  stat : ℕ
  fileStats : List TorrentFileView

/-- The server over a catalog that does not change. Each torrent is listed once, and adding one
again answers with that torrent as soon as its files are known. -/
structure Device where
  torrents : List TorrentView
  /-- The answer of `TorrentCommand::Add` with files, if there is one within the minute. -/
  added : InfoHash → Option TorrentView
  webPort : ℕ
  today : List Char
  nodup_hash : (torrents.map TorrentView.hash).Nodup
  hash_added : ∀ hash torrent, added hash = some torrent → torrent.hash = hash

structure UpnpError where
  code : ℕ
  description : List Char
  deriving DecidableEq

/-! ### Ids and paths -/

/-- Go's `url.PathEscape` keeps these besides letters and digits. -/
def isPathSegment (b : UInt8) : Bool :=
  (0x30 ≤ b && b ≤ 0x39) || (0x41 ≤ b && b ≤ 0x5a) || (0x61 ≤ b && b ≤ 0x7a) ||
    "-_.~$&+:=@".toList.any fun c => b == UInt8.ofNat c.toNat

def pathEscape (text : List Char) : List Char :=
  Percent.encode isPathSegment (Utf8.encode text)

/-- `text.get(..n)`, or all of a shorter text; nothing where a character would be cut. -/
def getBytes : ℕ → List Char → Option (List Char)
  | 0, _ => some []
  | _ + 1, [] => some []
  | n + 1, c :: s =>
    if c.utf8Size ≤ n + 1 then (getBytes (n + 1 - c.utf8Size) s).map (c :: ·) else none

def isHexDigit (c : Char) : Bool := (UrlQuery.hexValue c).isSome

/-- The escapes of a text are complete. -/
def checkEscapes : List Char → Except (List Char) Unit
  | '%' :: a :: b :: rest =>
    if isHexDigit a && isHexDigit b then checkEscapes rest
    else .error ("invalid URL escape \"".toList ++ ((getBytes 3 ('%' :: a :: b :: rest)).getD []) ++ ['"'])
  | '%' :: rest => .error ("invalid URL escape \"".toList ++ ((getBytes 3 ('%' :: rest)).getD []) ++ ['"'])
  | _ :: rest => checkEscapes rest
  | [] => .ok ()

/-- `url.QueryUnescape` with its error text. -/
def queryUnescape (text : List Char) : Except (List Char) (List Char) :=
  (checkEscapes text).map fun _ => UrlQuery.component text

/-- `objectFromID`: query-unescaped, `0` is the root, cleaned, absolute. -/
def objectPath (id : List Char) : Except UpnpError Path :=
  match queryUnescape id with
  | .error message => .error ⟨701, message⟩
  | .ok unescaped =>
    let path := Path.clean (if unescaped = ['0'] then ['/'] else unescaped)
    if path.head? = some '/' then .ok path else .error ⟨701, "bad ObjectID ".toList ++ path⟩

/-- The order of texts by their bytes, which is that of their characters. -/
def textLe : List Char → List Char → Bool
  | [], _ => true
  | _ :: _, [] => false
  | a :: s, b :: t => a.toNat < b.toNat || (a.toNat == b.toNat && textLe s t)

def stripPrefix (front text : List Char) : Option (List Char) :=
  if front <+: text then some (text.drop front.length) else none

/-- Go's `path.Base`. -/
def base (path : List Char) : List Char :=
  let trimmed := path.rdropWhile (· = '/')
  if trimmed = [] then if path = [] then ['.'] else ['/'] else MediaType.lastPart trimmed

/-- Go's `path.Dir`. -/
def dir (path : List Char) : List Char :=
  if '/' ∈ path then Path.clean (path.rdropWhile (· ≠ '/')) else ['.']

/-- `isHashPath`: the last element is 40 hex digits. -/
def isHashPath (path : List Char) : Bool := (base path).length == 40 && (base path).all isHexDigit

/-! ### Entries -/

def padded (width n : ℕ) : List Char :=
  List.replicate (width - (Text.decimal n).length) '0' ++ Text.decimal n

/-- The calendar date of a Unix time, in UTC. -/
def date (timestamp : ℤ) : List Char :=
  let z := timestamp / 86400 + 719468
  let era := z / 146097
  let dayOfEra := z % 146097
  let yearOfEra := (dayOfEra - dayOfEra / 1460 + dayOfEra / 36524 - dayOfEra / 146096) / 365
  let dayOfYear := dayOfEra - (365 * yearOfEra + yearOfEra / 4 - yearOfEra / 100)
  let monthIndex := (5 * dayOfYear + 2) / 153
  let day := dayOfYear - (153 * monthIndex + 2) / 5 + 1
  let month := if monthIndex < 10 then monthIndex + 3 else monthIndex - 9
  let year := yearOfEra + era * 400 + if month ≤ 2 then 1 else 0
  (if year < 0 then '-' :: padded 3 year.natAbs else padded 4 year.natAbs) ++
    '-' :: padded 2 month.natAbs ++ '-' :: padded 2 day.natAbs

def folderClass : List Char := "object.container.storageFolder".toList

def folder (id parent title date : List Char) : Object where
  id := id
  parentId := parent
  restricted := 1
  title := title
  class_ := folderClass
  date := date

def hashOf (torrent : TorrentView) : List Char := torrent.hash.toText.map Char.toLower

variable (u : Casing)

def normalizeCategory (category : List Char) : List Char :=
  let category := u.toLowercase (Utf8.trim category)
  if category = [] then "uncategorized".toList else category

def categoryTitle (category : List Char) : List Char :=
  if category = "movie".toList then "Movies".toList
  else if category = "tv".toList then "TV Shows".toList
  else if category = "music".toList then "Music".toList
  else if category = "other".toList then "Other".toList
  else if category = "uncategorized".toList then "Uncategorized".toList
  else category

def torrentId (torrent : TorrentView) : List Char := "%2F".toList ++ hashOf torrent

def torrentContainer (torrent : TorrentView) (parent : List Char) : Entry :=
  .container { folder (torrentId torrent) parent
      (torrent.title.map fun c => if c = '/' then '|' else c) (date torrent.timestamp) with
    icon := torrent.poster
    albumArtUri := torrent.poster } 1

def categoryId (category : List Char) : List Char := pathEscape ("/TR/".toList ++ category)

/-- The torrents of a normalised category. -/
def ofCategory (torrents : List TorrentView) (category : List Char) : List TorrentView :=
  torrents.filter fun torrent => normalizeCategory u torrent.category = category

def knownCategories : List (List Char) :=
  ["movie".toList, "tv".toList, "music".toList, "other".toList, "uncategorized".toList]

/-- The categories there are: the known ones first, the others in order. -/
def categoryOrder (torrents : List TorrentView) : List (List Char) :=
  let present := (torrents.map fun torrent => normalizeCategory u torrent.category).dedup
  knownCategories.filter (· ∈ present) ++
    (present.filter (· ∉ knownCategories)).insertionSort fun a b => textLe a b = true

def categoryContainer (device : Device) (category : List Char) : Entry :=
  .container (folder (categoryId category) "%2FTR".toList (categoryTitle category) device.today)
    (ofCategory u device.torrents category).length

def categories (device : Device) : List Entry :=
  if device.torrents = [] then
    [.container (folder "%2FNT".toList "%2FTR".toList "No Torrents".toList device.today) 0]
  else (categoryOrder u device.torrents).map (categoryContainer u device)

def byCategory (device : Device) (escaped : List Char) : List Entry :=
  let category := normalizeCategory u (UrlQuery.lossy (UrlQuery.percentDecode escaped))
  let parent := categoryId category
  let filtered := (ofCategory u device.torrents category).insertionSort
    fun a b => textLe a.title b.title = true
  if filtered = [] then
    [.container (folder "%2FNT".toList parent "Empty".toList device.today) 0]
  else filtered.map fun torrent => torrentContainer torrent parent

/-! ### Files -/

variable (guess : List Char → Option (List Char))

/-- `getLink`: the request's host with the web port. -/
def link (host : List Char) (port : ℕ) (path : List Char) : List Char :=
  let host := if "http".toList <+: host then host else "http://".toList ++ host
  let host := match Text.splitOnce ':' host.reverse with
    | some (_, before) => if (Utf8.encode before).length > 7 then before.reverse else host
    | none => host
  host ++ ':' :: Text.decimal port ++ '/' :: path

def fileId (torrent : TorrentView) (file : TorrentFileView) : List Char :=
  torrentId torrent ++ "%2F".toList ++ pathEscape file.path.toList

def fileItem (device : Device) (host : List Char) (torrent : TorrentView) (file : TorrentFileView)
    (kind : List Char) : Entry :=
  let front := base (torrent.name.getD []) ++ ['/']
  .item
    { id := fileId torrent file
      parentId := torrentId torrent
      restricted := 1
      title := (stripPrefix front file.path.toList).getD file.path.toList
      class_ := "object.item.".toList ++ MediaType.major kind ++ "Item".toList
      date := device.today }
    [{ protocolInfo := "http-get:*:".toList ++ kind ++
         ":DLNA.ORG_OP=11;DLNA.ORG_CI=0;DLNA.ORG_FLAGS=01700000000000000000000000000000".toList
       url := link host device.webPort
         ("play/".toList ++ hashOf torrent ++ '/' :: Text.decimal file.id)
       size := file.length }]

/-- The media files of a torrent whose files are known. -/
def fileItems (device : Device) (host : List Char) (torrent : TorrentView) : List Entry :=
  torrent.fileStats.filterMap fun file =>
    (MediaType.mediaKind guess file.path.toList).map (fileItem device host torrent file)

/-- `loadTorrent`: loads the torrent if needed and lists its media files. -/
def load (device : Device) (path host : List Char) : List Entry :=
  let hash := if base (dir path) = ['/'] then base path else base (dir path)
  match InfoHash.fromStr (hash.map Char.toLower) with
  | .error _ => []
  | .ok infoHash =>
    if device.torrents.any (fun torrent => torrent.hash = infoHash) then
      match device.added infoHash with
      | some torrent => fileItems guess device host torrent
      | none => []
    else []

def loadId (torrent : TorrentView) : List Char := torrentId torrent ++ "%2FLD".toList

/-- A torrent without loaded metadata offers a button to load it. -/
def loadContainer (device : Device) (torrent : TorrentView) : Entry :=
  .container (folder (loadId torrent) (torrentId torrent) "Load Torrent".toList device.today) 1

/-! ### Browsing -/

def rootChildren (device : Device) : List Entry :=
  [.container (folder "%2FTR".toList ['0'] "Torrents".toList device.today) device.torrents.length]

/-- The torrent a path names: the first one whose hash it holds. -/
def torrentAt (device : Device) (path : List Char) : Option TorrentView :=
  device.torrents.find? fun torrent => hashOf torrent <:+: path

/-- `onBrowse`. -/
def children (device : Device) (path host : List Char) : List Entry :=
  if path = ['/'] then rootChildren device
  else if path = "/TR".toList then categories u device
  else match stripPrefix "/TR/".toList path with
    | some category => byCategory u device category
    | none =>
      if isHashPath path then
        match torrentAt device path with
        | none => []
        | some torrent =>
          if torrent.stat = 5 ∨ torrent.fileStats = [] then [loadContainer device torrent]
          else load guess device path host
      else if base path = "LD".toList then load guess device path host
      else []

def searchable (object : Object) : Object := { object with searchable := 1 }

/-- What `metadata` says of a path that is not a category's, the root or a torrent. -/
def plainMetadata (device : Device) (path : List Char) : Entry :=
  let parent := pathEscape (dir path)
  if base path = "LD".toList then
    .container
      { id := parent ++ "%2FLD".toList
        parentId := parent
        restricted := 1
        searchable := 1
        title := "Load Torrents".toList
        date := device.today } 1
  else
    .container
      { id := pathEscape path
        parentId := parent
        restricted := 1
        searchable := 1
        title := base path
        date := device.today } 1

def torrentMetadata (torrent : TorrentView) : Entry :=
  .container
    { id := torrentId torrent
      parentId := "%2FTR".toList
      restricted := 1
      title := torrent.title
      date := date torrent.timestamp } 1

/-- `onBrowseMeta`. -/
def metadata (device : Device) (path : List Char) : Option Entry :=
  if path = ['/'] then
    some (.container (searchable (folder ['0'] "-1".toList "TorrServer".toList device.today)) 1)
  else match stripPrefix "/TR/".toList path with
    | some escaped =>
      let category := normalizeCategory u (UrlQuery.lossy (UrlQuery.percentDecode escaped))
      some (.container (searchable (folder (pathEscape path) "%2FTR".toList (categoryTitle category)
        device.today)) (ofCategory u device.torrents category).length)
    | none =>
      if base path = "TR".toList then
        some (.container (searchable (folder "%2FTR".toList ['0'] "Torrents".toList device.today))
          device.torrents.length)
      else if isHashPath path then (torrentAt device path).map torrentMetadata
      else some (plainMetadata device path)

/-- The entries a `Browse` answers, and how many there are in all. -/
def browseEntries (device : Device) (objectId flag : List Char) (start count : ℤ)
    (host : List Char) : Except UpnpError (List Entry × ℕ) :=
  match objectPath objectId with
  | .error e => .error e
  | .ok path =>
    if flag = "BrowseDirectChildren".toList then
      let entries := children u guess device path host
      let page := entries.drop start.toNat
      .ok (if 0 < count ∧ count < page.length then page.take count.toNat else page, entries.length)
    else if flag = "BrowseMetadata".toList then
      match metadata u device path with
      | some entry => .ok ([entry], 1)
      | none => .error ⟨501, "meta not found".toList⟩
    else .error ⟨600, "unhandled browse flag: ".toList ++ flag⟩

/-- `Browse`: the DIDL-Lite result, the number returned and the total. -/
def browse (device : Device) (objectId flag : List Char) (start count : ℤ) (host : List Char) :
    Except UpnpError (List Char × ℕ × ℕ) :=
  (browseEntries u guess device objectId flag start count host).map fun answer =>
    (didlLite (answer.1.flatMap Entry.xml), answer.1.length, answer.2)

end Rustorr.Dlna
