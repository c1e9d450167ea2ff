import Rustorr.Cache.Registry
import Rustorr.State.Catalog
import Rustorr.Lib.Prog

/-! What the torrent coordinator works on: the engine's loaded torrents, the
cache, the database, its own fields, and the calls by which it reaches them. -/

namespace Rustorr

inductive Engine.Error
  | torrent (message : String)
  | notLoaded (hash : InfoHash)
  deriving DecidableEq

inductive Lifecycle.Error
  | engine (source : Engine.Error)
  | state (source : State.Error)
  | cache (source : Cache.Error)
  | unknownFile (hash : InfoHash) (index : ℕ)
  | notFound (hash : InfoHash)
  | invalidIndex (index : ℕ)
  deriving DecidableEq

structure SocketAddr where
  text : String
  deriving DecidableEq

inductive TorrentSource
  | torrentBytes (bytes : List UInt8)
  | magnet (value : String)
  | url (value : String)

structure AddOptions where
  onlyFiles : Option (List ℕ)
  initialPeers : List SocketAddr
  trackers : List String

structure TorrentFile where
  engineIndex : U32
  path : String
  length : ℕ

structure TorrentMetadata where
  hash : InfoHash
  metainfo : List UInt8
  name : String
  files : List TorrentFile
  trackers : List String

structure AddTorrent where
  title : String
  poster : String
  category : String
  data : String
  saveToDb : Bool

structure LiveTorrent where
  metadata : TorrentMetadata
  title : String
  poster : String
  category : String
  data : String
  addedAt : SystemTime

/-- The settings the lifecycle acts on. -/
structure Settings where
  cacheSize : ℤ
  readerReadAhead : ℤ
  preloadCache : ℤ
  useDisk : Bool
  torrentsSavePath : String
  removeCacheOnDrop : Bool
  torrentDisconnectTimeout : ℤ
  connectionsLimit : ℤ
  storeSettingsInJson : Bool
  storeViewedInJson : Bool
  trackTimecode : Bool
  deriving DecidableEq

namespace Settings

def default : Settings := ⟨64 <<< 20, 95, 50, false, "", false, 30, 25, true, false, false⟩

def normalized (s : Settings) : Settings where
  cacheSize := if s.cacheSize = 0 then 64 <<< 20 else s.cacheSize
  readerReadAhead := max 5 (min 100 s.readerReadAhead)
  preloadCache := max 0 (min 100 s.preloadCache)
  useDisk := if s.torrentsSavePath.isEmpty then false else s.useDisk
  torrentsSavePath := s.torrentsSavePath
  removeCacheOnDrop := s.removeCacheOnDrop
  torrentDisconnectTimeout :=
    if s.torrentDisconnectTimeout = 0 then 30 else s.torrentDisconnectTimeout
  connectionsLimit := if s.connectionsLimit = 0 then 25 else s.connectionsLimit
  storeSettingsInJson := s.storeSettingsInJson
  storeViewedInJson := s.storeViewedInJson
  trackTimecode := s.trackTimecode

/-- `u64::try_from(self.cache_size).unwrap_or(0)`. -/
def cacheCap (s : Settings) : ℕ := s.cacheSize.toNat

end Settings

/-- The tasks the coordinator spawns. A task is also its own join handle. -/
inductive Background
  | prefetch (id : ℕ) (hash : InfoHash) (file : FileIndex) (offset : ℕ)
  | idleDetach (id : ℕ) (hash : InfoHash)
  | release (hash : InfoHash)
  deriving DecidableEq

structure PrefetchTask where
  id : ℕ
  handle : Background
  deriving DecidableEq

structure PlaybackReader where
  pin : Cache.Pin
  hash : InfoHash
  file : FileIndex
  offset : ℕ
  deriving DecidableEq

/-- The coordinator's own fields, without the gate. -/
structure TorrentCoordinator where
  prefetches : AList fun _ : InfoHash => PrefetchTask
  idleDetaches : AList fun _ : InfoHash => PrefetchTask
  peerHints : AList fun _ : InfoHash => List SocketAddr
  live : AList fun _ : InfoHash => LiveTorrent
  settings : Settings
  nextPrefetchId : ℕ
  nextIdleId : ℕ
  readOnly : Bool

/-- `loaded` maps each torrent the engine holds to the session's number for it. -/
structure World (σ : Type) where
  loaded : AList fun _ : InfoHash => ℕ
  cache : Cache σ
  state : State Settings
  fields : TorrentCoordinator

/-- One activation of a coordinator function. It makes each kind of fallible
call at most once. -/
inductive Activation
  | addSource
  | engine
  | load (hash : InfoHash)
  | play (hash : InfoHash)
  | prefetch (id : ℕ)
  | dropLive (hash : InfoHash)
  | removeTorrent (hash : InfoHash)
  | evictLocked (hash : InfoHash)
  | evictToCap
  | scheduleIdleDetach (hash : InfoHash)
  | setSettings
  | dropAllLive
  | updateTorrent
  | wipe
  | views
  | magnets
  | setStoragePreferences
  | viewed
  | waf
  deriving DecidableEq

inductive Query
  | torrent
  | metainfo
  | saveTorrent
  | listTorrents
  | removeTorrent
  | setSettings
  | setViewed
  | listViewed
  | removeViewed
  | wafLists
  | setWafLists
  deriving DecidableEq

/-- What the outside answers one activation: librqbit, the trackers file, the
clock, which queries the database fails, and what the store meets. -/
structure Answers (ε : Type) where
  sourceHash : Option InfoHash
  trackers : List String
  now : SystemTime
  add : Except Engine.Error (TorrentMetadata × ℕ)
  inspect : Except Engine.Error TorrentMetadata
  reader : Except Engine.Error ℕ
  delete : Except Engine.Error (List SocketAddr)
  fails : Query → Bool
  store : ε

inductive Call
  | sourceHash (source : TorrentSource)
  | extraTrackers
  | now
  | isLoaded (hash : InfoHash)
  | add (source : TorrentSource) (options : AddOptions)
  | reader (hash : InfoHash) (file : FileIndex) (offset : ℕ)
  | delete (hash : InfoHash)
  | forget (hash : InfoHash) (id : ℕ)
  | torrent (hash : InfoHash)
  | metainfo (hash : InfoHash)
  | saveTorrent (entry : CatalogEntry) (metainfo : List UInt8)
  | listTorrents
  | removeTorrent (hash : InfoHash)
  | setSettings (settings : Settings)
  | inspectMetainfo (bytes : List UInt8)
  | setViewed (entry : ViewedEntry)
  | listViewed
  | removeViewed (hash : InfoHash) (file : Option FileIndex)
  | wafLists
  | setWafLists (lists : WafLists)
  | ensureUnpinned (hash : InfoHash)
  | pin (hash : InfoHash) (range : Option ReaderRange)
  | dropPin (pin : Cache.Pin)
  | removeCache (hash : InfoHash)
  | evictionCandidates
  | setCapBytes (capBytes : ℕ)
  | cacheStats
  | cacheEntry (hash : InfoHash)
  | cacheEntries

namespace Call

abbrev Ans : Call → Type
  | sourceHash _ => Option InfoHash
  | extraTrackers => List String
  | now => SystemTime
  | isLoaded _ => Bool
  | add _ _ => Except Engine.Error TorrentMetadata
  | reader _ _ _ => Except Engine.Error ℕ
  | delete _ => Except Engine.Error (ℕ × List SocketAddr)
  | forget _ _ => Unit
  | torrent _ => Except State.Error (Option CatalogEntry)
  | metainfo _ => Except State.Error (Option (List UInt8))
  | saveTorrent _ _ => Except State.Error Unit
  | listTorrents => Except State.Error (List CatalogEntry)
  | removeTorrent _ => Except State.Error Bool
  | setSettings _ => Except State.Error Unit
  | inspectMetainfo _ => Except Engine.Error TorrentMetadata
  | setViewed _ => Except State.Error Unit
  | listViewed => Except State.Error (List ViewedEntry)
  | removeViewed _ _ => Except State.Error ℕ
  | wafLists => Except State.Error WafLists
  | setWafLists _ => Except State.Error Unit
  | ensureUnpinned _ => Except Cache.Error Unit
  | pin _ _ => Except Cache.Error Cache.Pin
  | dropPin _ => Unit
  | removeCache _ => Except Cache.Error ℕ
  | evictionCandidates => List InfoHash
  | setCapBytes _ => Unit
  | cacheStats => Cache.Stats
  | cacheEntry _ => Except Cache.Error Cache.Entry
  | cacheEntries => List (InfoHash × Cache.Entry)

end Call

namespace World

variable {ε σ : Type} (ops : PieceStore ε σ) (a : Answers ε)

/-- The session adds the torrent, then the engine notes its number. -/
def add (w : World σ) : Except Engine.Error TorrentMetadata × World σ :=
  match a.add with
  | .error e => (.error e, w)
  | .ok (metadata, id) => (.ok metadata, { w with loaded := w.loaded.insert metadata.hash id })

/-- `delete_inner` up to its grace sleep. The session may also have lost the
torrent, which answers `NotLoaded`. -/
def delete (hash : InfoHash) (w : World σ) : Except Engine.Error (ℕ × List SocketAddr) :=
  match w.loaded.lookup hash with
  | none => .error (.notLoaded hash)
  | some id => a.delete.map fun livePeers => (id, livePeers)

/-- `delete_inner` after the sleep. -/
def forget (hash : InfoHash) (id : ℕ) (w : World σ) : World σ :=
  if w.loaded.lookup hash = some id then { w with loaded := w.loaded.erase hash } else w

def reader (hash : InfoHash) (w : World σ) : Except Engine.Error ℕ :=
  match w.loaded.lookup hash with
  | none => .error (.notLoaded hash)
  | some _ => a.reader

/-- The result of a call and the world after it. -/
def answer : (c : Call) → World σ → c.Ans × World σ
  | .sourceHash source, w => (match source with
      | .url _ => none
      | _ => a.sourceHash, w)
  | .extraTrackers, w => (a.trackers, w)
  | .now, w => (a.now, w)
  | .isLoaded hash, w => ((w.loaded.lookup hash).isSome, w)
  | .add _ _, w => w.add a
  | .reader hash _ _, w => (w.reader a hash, w)
  | .delete hash, w => (w.delete a hash, w)
  | .forget hash id, w => ((), w.forget hash id)
  | .torrent hash, w => (w.state.torrent (a.fails .torrent) hash, w)
  | .metainfo hash, w => (w.state.metainfo (a.fails .metainfo) hash, w)
  | .saveTorrent entry metainfo, w =>
    let (result, state) := w.state.saveTorrent (a.fails .saveTorrent) entry metainfo
    (result, { w with state := state })
  | .listTorrents, w => (w.state.listTorrents (a.fails .listTorrents), w)
  | .removeTorrent hash, w =>
    let (result, state) := w.state.removeTorrent (a.fails .removeTorrent) hash
    (result, { w with state := state })
  | .setSettings settings, w =>
    let (result, state) := w.state.setSettings (a.fails .setSettings) settings
    (result, { w with state := state })
  | .inspectMetainfo _, w => (a.inspect, w)
  | .setViewed entry, w =>
    let (result, state) := w.state.setViewed (a.fails .setViewed) entry
    (result, { w with state := state })
  | .listViewed, w => (w.state.listViewed (a.fails .listViewed), w)
  | .removeViewed hash file, w =>
    let (result, state) := w.state.removeViewed (a.fails .removeViewed) hash file
    (result, { w with state := state })
  | .wafLists, w => (w.state.wafLists (a.fails .wafLists), w)
  | .setWafLists lists, w =>
    let (result, state) := w.state.setWafLists (a.fails .setWafLists) lists
    (result, { w with state := state })
  | .ensureUnpinned hash, w => (w.cache.ensureUnpinned hash, w)
  | .pin hash range, w =>
    let (result, cache) := w.cache.pinInner hash range
    (result, { w with cache := cache })
  | .dropPin pin, w => ((), { w with cache := w.cache.dropPin pin })
  | .removeCache hash, w =>
    let (result, cache) := w.cache.remove ops a.store hash
    (result, { w with cache := cache })
  | .evictionCandidates, w => (w.cache.evictionCandidates, w)
  | .setCapBytes capBytes, w => ((), { w with cache := w.cache.setCapBytes capBytes })
  | .cacheStats, w => (w.cache.stats, w)
  | .cacheEntry hash, w => (w.cache.entry hash, w)
  | .cacheEntries, w => (w.cache.torrents.entries.map fun e => (e.1, e.2), w)

/-- The engine's calls to the cache (`cache_storage.rs`), made at any time while
it moves data. -/
inductive Traffic
  | openTorrent (layout : TorrentLayout)
  | write (file : FileIndex) (offset : U64) (data : List UInt8)
  | read (file : FileIndex) (offset : U64) (len : ℕ)
  | pieceCompleted (piece : PieceIndex)

def traffic (env : ε) (hash : InfoHash) : Traffic → World σ → World σ
  | .openTorrent layout, w => { w with cache := (w.cache.openTorrent ops env hash layout).2 }
  | .write file offset data, w =>
    { w with cache := (w.cache.write ops env hash file offset data).2 }
  | .read file offset len, w => { w with cache := (w.cache.read ops env hash file offset len).2 }
  | .pieceCompleted piece, w => { w with cache := (w.cache.pieceCompleted ops env hash piece).2 }

end World

end Rustorr
