import Rustorr.Http.Range
import Rustorr.Lifecycle.Client
import Rustorr.Lifecycle.Links

/-! The routes that answer without credentials (`app.rs`): `/stream`, `/play` and
`/playlist`, each with its own gate before it adds a torrent. -/

namespace Rustorr

open Lifecycle (Error)

namespace Share

open Coordinator (M TorrentFileView)

/-- The decoded pairs of a query. -/
abbrev Query := List (List Char × List Char)

namespace Query

/-- Of several pairs with one key, the last. -/
def get (q : Query) (key : String) : Option (List Char) :=
  (q.reverse.find? fun pair => pair.1 = key.toList).map Prod.snd

def containsKey (q : Query) (key : String) : Bool := (q.get key).isSome

/-- `query.get(key).cloned().unwrap_or_default()`. -/
def text (q : Query) (key : String) : String := String.ofList ((q.get key).getD [])

end Query

def parseU32 (text : List Char) : Option ℕ :=
  (Text.parseU64 text).bind fun n => if (n : ℕ) < 2 ^ 32 then some n else none

def indexOf (q : Query) : Option ℕ := (q.get "index").bind parseU32

/-- `unwrap_or(1)`. -/
def indexOrFirst (q : Query) : ℕ := (indexOf q).getD 1

structure HttpConfig where
  authEnabled : Bool
  maxStreamSize : Option ℕ

/-- What the handlers read of a request beside its path and query. Dates are in
seconds since 1970, where they can be read; `parts` is how many parts of an answer
in several parts the client takes. -/
structure Headers where
  authorized : Bool
  head : Bool
  ifMatch : Option (List Char)
  ifUnmodifiedSince : Option ℕ
  ifNoneMatch : Option (List Char)
  ifModifiedSince : Option ℕ
  ifRange : Option (List Char × Option ℕ)
  range : Option (List Char)
  parts : ℕ

/-- What the coordinator takes from elsewhere to read a link. -/
structure Outside where
  zlib : TorrsHash.Zlib
  readFile : List Char → Option (List UInt8)

/-- An error of the core; `add_torrent` may also fail to read a local file. -/
inductive Failure
  | core (error : Error)
  | localSource

/-- Headers and bodies that no decision reads are left out. -/
inductive Response
  | unauthorized
  | status (code : ℕ)
  | badRequest (message : String)
  | lifecycle (failure : Failure)
  | tooLarge (limit : ℕ)
  | view (torrent : ViewSource)
  | playlist (torrent : LiveTorrent) (viewed : List ViewedEntry) (fromLast : Bool)
      (startIndex : Option ℕ)
  | content (code : ℕ) (ranges : List Range.ByteRange)

/-! ### Conditional requests -/

/-- `file_etag`, and `m3u::etag`. -/
def etag (hash : InfoHash) (name : List Char) : List Char :=
  '"' :: (Utf8.encode (hash.toText ++ '/' :: name)).flatMap InfoHash.hexByte ++ ['"']

/-- `system_time`, in seconds. -/
def systemTime (timestamp : ℤ) : ℕ := timestamp.toNat

def preconditionFailed (headers : Headers) (etag : List Char) (timestamp : ℤ) : Bool :=
  let unmatched := match headers.ifMatch with
    | some value => !(value.splitOn ',').any fun v => Utf8.trim v = etag || Utf8.trim v = ['*']
    | none => false
  unmatched || match headers.ifUnmodifiedSince with
    | some since => systemTime timestamp > since
    | none => false

def notModified (headers : Headers) (etag : List Char) (timestamp : ℤ) : Bool :=
  match headers.ifNoneMatch with
  | some value => (value.splitOn ',').any fun v =>
    let v := ((Utf8.trim v).dropPrefix? "W/".toList).getD (Utf8.trim v)
    v = etag || v = ['*']
  | none => match headers.ifModifiedSince with
    | some since => systemTime timestamp ≤ since
    | none => false

def ifRangeMatches (value : List Char × Option ℕ) (etag : List Char) (timestamp : ℤ) : Bool :=
  if value.1.head? = some '"' then value.1 = etag
  else match value.2 with
    | some since => systemTime timestamp ≤ since
    | none => false

/-! ### Playing -/

/-- The answer to a core call that fails. -/
def failed (error : Error) : M Response := pure (.lifecycle (.core error))

def touchViewed (hash : InfoHash) (index : ℕ) : M Unit := do
  let existing ← Coordinator.listViewed (some hash)
  let timecode := match existing.find? fun entry => entry.file.oneBased = index with
    | some entry => entry.timecode
    | none => 0
  Coordinator.setViewed hash index timecode

/-- One range of the file: the reader of the answer is open. -/
def playRange (hash : InfoHash) (index : ℕ) (range : Range.ByteRange) (answer : Response) :
    M Response := do
  match ← (Coordinator.playback hash index range.start (some range.end_) none).attempt with
  | .ok _ => pure answer
  | .error e => failed e

/-- The body of an answer in several parts, as far as it is taken: it ends where a
part cannot be opened. -/
def playParts (hash : InfoHash) (index : ℕ) : List Range.ByteRange → M Unit
  | [] => pure ()
  | range :: rest => do
    match ← (Coordinator.playback hash index range.start (some range.end_) none).attempt with
    | .ok _ => playParts hash index rest
    | .error _ => pure ()

def multipartResponse (headers : Headers) (hash : InfoHash) (index : ℕ)
    (ranges : List Range.ByteRange) : M Response := do
  if headers.head then pure (.content 206 ranges)
  else
    playParts hash index (ranges.take headers.parts)
    pure (.content 206 ranges)

/-- The value of `Range` that counts. -/
def rangeValue (headers : Headers) (etag : List Char) (timestamp : ℤ) : Option (List Char) :=
  match headers.ifRange with
  | some value => if ifRangeMatches value etag timestamp then headers.range else none
  | none => headers.range

def playRanges (headers : Headers) (hash : InfoHash) (index length : ℕ) :
    Option (List Char) → M Response
  | none =>
    let whole : Range.ByteRange := ⟨0, length - 1⟩
    playRange hash index whole (.content 200 [whole])
  | some value => match Range.parse value length with
    | .error _ => pure (.status 416)
    | .ok [range] => playRange hash index range (.content 206 [range])
    | .ok ranges => multipartResponse headers hash index ranges

/-- `raw_playback` once the file is found and not too large. -/
def playFile (headers : Headers) (torrent : LiveTorrent) (index : ℕ) (file : TorrentFileView) :
    M Response := do
  let hash := torrent.metadata.hash
  let etag := etag hash file.path.toList
  let timestamp := (ViewSource.live torrent).timestamp
  if preconditionFailed headers etag timestamp then pure (.status 412)
  else if notModified headers etag timestamp then pure (.status 304)
  else
    match ← (touchViewed hash index).attempt with
    | .ok () => playRanges headers hash index file.length (rangeValue headers etag timestamp)
    | .error e => failed e

def rawPlayback (http : HttpConfig) (headers : Headers) (torrent : LiveTorrent) (index : ℕ) :
    M Response :=
  match (Coordinator.sortedFiles torrent.metadata).find? fun file => file.id = index with
  | none => pure (.badRequest ("file with id " ++ toString index ++ " not found"))
  | some file => match http.maxStreamSize.filter fun limit => file.length > limit with
    | some limit => pure (.tooLarge limit)
    | none => playFile headers torrent index file

/-- `playlist_name`. -/
def playlistName (fname : Option (List Char)) (name : String) : List Char :=
  let requested := (fname.map fun f => f.dropWhile (· = '/')).filter fun f => f ≠ []
  let name := requested.getD (name.toList ++ ".m3u".toList)
  let lowercase := name.map Char.toLower
  if ".m3u".toList <:+ lowercase ∨ ".m3u8".toList <:+ lowercase then name
  else name ++ ".m3u".toList

def individualPlaylist (headers : Headers) (fname : Option (List Char)) (q : Query)
    (torrent : LiveTorrent) : M Response := do
  match ← (Coordinator.listViewed (some torrent.metadata.hash)).attempt with
  | .error e => failed e
  | .ok viewed =>
    let etag := etag torrent.metadata.hash (playlistName fname torrent.metadata.name)
    if notModified headers etag (ViewSource.live torrent).timestamp then pure (.status 304)
    else pure (.playlist torrent viewed (q.containsKey "fromlast") (indexOf q))

/-! ### Adding -/

/-- `TorrentCommand::Add`. There is no torrent where a local file cannot be read. -/
def addLink (out : Outside) (link : List Char) (request : AddTorrent) : M (Option LiveTorrent) :=
  match Link.addTorrent out.zlib link request with
  | (request, .file path) => match out.readFile path with
    | none => pure none
    | some bytes => do
      let torrent ← Coordinator.addSource request (.torrentBytes bytes)
      pure (some torrent)
  | (request, .magnet text) => do
    let torrent ← Coordinator.addSource request (.magnet (String.ofList text))
    pure (some torrent)
  | (request, .url link) => do
    let torrent ← Coordinator.addSource request (.url (String.ofList link))
    pure (some torrent)

/-- `AddTorrent` of a hash, with every other field at its default. -/
def plainAdd : AddTorrent := ⟨"", "", "", "", false⟩

/-- Whether `Get` answers a torrent. -/
def isShown (hash : InfoHash) : M Bool := do
  match ← (Coordinator.getView hash).attempt with
  | .ok (some _) => pure true
  | _ => pure false

def shareableLinkExists (out : Outside) (link : List Char) : M Bool :=
  match Link.linkInfoHash out.zlib link with
  | none => pure false
  | some hash => isShown hash

/-! ### The routes -/

def streamRequest (q : Query) : AddTorrent :=
  ⟨q.text "title", q.text "poster", q.text "category", "", q.containsKey "save"⟩

/-- The gate of `/stream`. -/
def refused (out : Outside) (http : HttpConfig) (headers : Headers) (q : Query) (link : List Char) :
    M Bool := do
  if http.authEnabled && !headers.authorized then
    if q.containsKey "play" || q.containsKey "m3u" then
      let exists_ ← shareableLinkExists out link
      pure !exists_
    else pure true
  else pure false

/-- `preload`: a reader is opened and dropped. -/
def preload (q : Query) (torrent : LiveTorrent) : M (Except Error Unit) := do
  if q.containsKey "preload" then
    (do
      let _ ← Coordinator.playback torrent.metadata.hash (indexOrFirst q) 0 (some 0) (some 0)
      pure ()).attempt
  else pure (.ok ())

def currentView (torrent : LiveTorrent) : M Response := do
  match ← (Coordinator.getView torrent.metadata.hash).attempt with
  | .ok (some current) => pure (.view current)
  | _ => pure (.view (.live torrent))

/-- `stream_impl` after the torrent is added. -/
def streamAdded (http : HttpConfig) (headers : Headers) (fname : Option (List Char)) (q : Query)
    (torrent : LiveTorrent) : M Response := do
  match ← preload q torrent with
  | .error e => failed e
  | .ok () =>
    if q.containsKey "stat" then currentView torrent
    else if q.containsKey "m3u" then individualPlaylist headers fname q torrent
    else if q.containsKey "play" then rawPlayback http headers torrent (indexOrFirst q)
    else pure (.status 200)

def stream (out : Outside) (http : HttpConfig) (headers : Headers) (fname : Option (List Char))
    (q : Query) : M Response := do
  let link := (q.get "link").getD []
  if link = [] then pure (.badRequest "link should not be empty")
  else if ← refused out http headers q link then pure .unauthorized
  else
    match ← (addLink out link (streamRequest q)).attempt with
    | .error e => failed e
    | .ok none => pure (.lifecycle .localSource)
    | .ok (some torrent) => streamAdded http headers fname q torrent

/-- A torrent of one file plays it whatever the index says. -/
def playIndex (torrent : LiveTorrent) (id : List Char) : Option ℕ :=
  match Coordinator.sortedFiles torrent.metadata with
  | [file] => some file.id
  | _ => match Range.parseI64 id with
    | none => none
    | some index =>
      if index = -1 then none
      else if 0 ≤ index ∧ index < 2 ^ 32 then some index.toNat
      else some (2 ^ 32 - 1)

/-- The torrent of a hash is added by its text. -/
def addHash (out : Outside) (hash : InfoHash) : M (Option LiveTorrent) := do
  match ← (addLink out hash.toText plainAdd).attempt with
  | .ok added => pure added
  | .error _ => pure none

def play (out : Outside) (http : HttpConfig) (headers : Headers) (hash id : List Char) :
    M Response :=
  match InfoHash.fromStr hash with
  | .error _ => pure (.status 500)
  | .ok hash => do
    if ← isShown hash then
      match ← addHash out hash with
      | none => pure (.status 500)
      | some torrent => match playIndex torrent id with
        | none => pure (.status 400)
        | some index => rawPlayback http headers torrent index
    else if http.authEnabled && !headers.authorized then pure .unauthorized
    else pure (.status 500)

def playlist (out : Outside) (headers : Headers) (fname : Option (List Char)) (q : Query) :
    M Response :=
  match (q.get "hash").map InfoHash.fromStr with
  | some (.ok hash) => do
    match ← addHash out hash with
    | none => pure (.status 404)
    | some torrent => individualPlaylist headers fname q torrent
  | _ => pure (.status 400)

inductive Route
  | stream (fname : Option (List Char)) (q : Query)
  | play (hash id : List Char)
  | playlist (fname : Option (List Char)) (q : Query)

def Route.handle (out : Outside) (http : HttpConfig) (headers : Headers) : Route → M Response
  | .stream fname q => Share.stream out http headers fname q
  | .play hash id => Share.play out http headers hash id
  | .playlist fname q => Share.playlist out headers fname q

end Share

end Rustorr
