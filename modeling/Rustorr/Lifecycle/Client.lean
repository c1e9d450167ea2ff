import Rustorr.Lifecycle.Coordinator
import Rustorr.Lifecycle.SettingsPool

/-! The commands clients give the coordinator (`client.rs`), and the coordinator
functions that only they use. -/

namespace Rustorr

open Lifecycle (Error)

structure UpdateTorrent where
  hash : InfoHash
  title : String
  poster : String
  category : String
  data : String

/-- What the view of a torrent is made from. -/
inductive ViewSource where
  | live (torrent : LiveTorrent)
  | saved (entry : CatalogEntry)

namespace ViewSource

def title : ViewSource → String
  | live torrent => torrent.title
  | saved entry => entry.title

/-- Whole seconds. -/
def timestamp : ViewSource → ℤ
  | live torrent => torrent.addedAt / 10 ^ 9
  | saved entry => entry.addedAt / 10 ^ 9

/-- A saved torrent that is not live lists no files. -/
def fileStats : ViewSource → List Coordinator.TorrentFileView
  | live torrent => Coordinator.sortedFiles torrent.metadata
  | saved _ => []

/-- Newest first, then by title from the last. -/
def Before (a b : ViewSource) : Prop :=
  b.timestamp < a.timestamp ∨ a.timestamp = b.timestamp ∧ b.title ≤ a.title

instance : DecidableRel Before := fun a b =>
  inferInstanceAs (Decidable (b.timestamp < a.timestamp ∨ _ ∧ _))

end ViewSource

namespace Coordinator

/-- The fields a client may change, of a live torrent. -/
def updateLive (update : UpdateTorrent) (live : LiveTorrent) : LiveTorrent :=
  { live with
    title := if update.title.isEmpty then live.metadata.name else update.title
    poster := update.poster
    category := update.category
    data := if update.data.isEmpty then live.data else update.data }

def updateSaved (update : UpdateTorrent) (title : String) (entry : CatalogEntry) : CatalogEntry :=
  { entry with
    title := title
    poster := update.poster
    category := update.category
    data := if update.data.isEmpty then entry.data else update.data }

/-- The title of an update, or that of the metainfo. -/
def updateTitle (update : UpdateTorrent) (metainfo : List UInt8) : M String := do
  if update.title.isEmpty then
    let metadata ← engine (← call .updateTorrent (.inspectMetainfo metainfo))
    pure metadata.name
  else pure update.title

def updateRow (update : UpdateTorrent) (entry : CatalogEntry) : M Unit := do
  let metainfo ← okOr (.notFound update.hash)
    (← state (← call .updateTorrent (.metainfo update.hash)))
  let title ← updateTitle update metainfo
  if ← fields TorrentCoordinator.readOnly then pure ()
  else state (← call .updateTorrent (.saveTorrent (updateSaved update title entry) metainfo))

def updateTorrent (update : UpdateTorrent) : M Unit := withGate do
  let edited ← atomically fun t =>
    match t.live.lookup update.hash with
    | some live =>
      (some (updateLive update live),
        { t with live := t.live.insert update.hash (updateLive update live) })
    | none => (none, t)
  match edited with
  | some live => do
    if (← state (← call .updateTorrent (.torrent update.hash))).isSome then
      persist .updateTorrent live
    else pure ()
  | none =>
    match ← state (← call .updateTorrent (.torrent update.hash)) with
    | some entry => updateRow update entry
    | none => pure ()

def wipe : M Unit := do
  let live ← fields fun t => t.live.keys
  let saved ← state (← call .wipe .listTorrents)
  (inTextOrder (live ++ saved.map CatalogEntry.hash)).forM fun hash => do
    let _ ← removeTorrent hash

def getView (hash : InfoHash) : M (Option ViewSource) := do
  match ← fields fun t => t.live.lookup hash with
  | some live => pure (some (.live live))
  | none =>
    let entry ← state (← call .views (.torrent hash))
    pure (entry.map .saved)

def listViews : M (List ViewSource) := do
  let live ← fields TorrentCoordinator.live
  let saved ← state (← call .views .listTorrents)
  let views := live.entries.map (fun e => ViewSource.live e.2) ++
    (saved.filter fun entry => entry.hash ∉ live).map .saved
  pure (views.insertionSort ViewSource.Before)

/-- The saved torrents from the newest, each with the trackers of its metainfo. -/
def magnetsOf : List CatalogEntry → M (List (InfoHash × String × List String))
  | [] => pure []
  | entry :: rest => do
    match ← state (← call .magnets (.metainfo entry.hash)) with
    | none => magnetsOf rest
    | some metainfo =>
      let metadata ← engine (← call .magnets (.inspectMetainfo metainfo))
      let magnets ← magnetsOf rest
      pure ((entry.hash, metadata.name, metadata.trackers) :: magnets)

def magnets : M (List (InfoHash × String × List String)) := do
  let _ ← call .magnets .extraTrackers
  let entries ← state (← call .magnets .listTorrents)
  magnetsOf (entries.insertionSort fun a b =>
    b.addedAt < a.addedAt ∨ a.addedAt = b.addedAt ∧ a.hash.toText ≤ b.hash.toText)

def setStoragePreferences (settingsInJson viewedInJson : Option Bool) : M Unit := do
  if ← fields TorrentCoordinator.readOnly then pure ()
  else
    let settings ← fields TorrentCoordinator.settings
    let settings := settings.withStorage settingsInJson viewedInJson
    state (← call .setStoragePreferences (.setSettings settings))
    update fun t => { t with settings := settings }

def resetSettings : M Unit := setSettings Settings.default

/-! ### Viewed history -/

def checkedIndex (index : ℕ) : M FileIndex :=
  if index = 0 then Prog.fail (.invalidIndex index)
  else pure (FileIndex.ofPosition (index - 1))

def setViewed (hash : InfoHash) (index : ℕ) (timecode : Timecode) : M Unit := do
  let file ← checkedIndex index
  if ← fields TorrentCoordinator.readOnly then pure ()
  else
    let timecode := if ← fields fun t => t.settings.trackTimecode then timecode else 0
    state (← call .viewed (.setViewed ⟨hash, file, timecode⟩))

def checkedIndexOf : Option ℕ → M (Option FileIndex)
  | none => pure none
  | some index => do
    let file ← checkedIndex index
    pure (some file)

def removeViewed (hash : InfoHash) (index : Option ℕ) : M Unit := do
  if ← fields TorrentCoordinator.readOnly then pure ()
  else
    let file ← checkedIndexOf index
    let _ ← state (← call .viewed (.removeViewed hash file))

def listViewed (hash : Option InfoHash) : M (List ViewedEntry) := do
  let entries ← state (← call .viewed .listViewed)
  pure (entries.filter fun entry => hash.all (entry.torrent = ·))

/-! ### Playback, cache and access lists -/

def playback (hash : InfoHash) (index offset : ℕ) (stop prefetchOffset : Option ℕ) :
    M PlaybackReader := do
  let view ← okOr (.notFound hash) (← getView hash)
  let _ ← okOr (.unknownFile hash index) (view.fileStats.find? fun file => file.id = index)
  playWithPrefetch hash index offset stop prefetchOffset

/-- The view of one torrent, or of all. -/
def cacheView (hash : Option InfoHash) : M (Cache.Stats × List (InfoHash × Cache.Entry)) := do
  let stats ← call .views .cacheStats
  match hash with
  | some hash =>
    let entry ← cache (← call .views (.cacheEntry hash))
    pure (stats, [(hash, entry)])
  | none =>
    let entries ← call .views .cacheEntries
    pure (stats, entries)

def setWafLists (lists : WafLists) : M WafLists := do
  if ← fields TorrentCoordinator.readOnly then state (← call .waf .wafLists)
  else
    state (← call .waf (.setWafLists lists))
    pure lists

end Coordinator

/-! ### Commands -/

inductive TorrentCommand where
  /-- `Add` and `AddMetainfo`, with the source that the link or the bytes name. -/
  | add (request : AddTorrent) (source : TorrentSource)
  | get (hash : InfoHash)
  | set (update : UpdateTorrent)
  | remove (hash : InfoHash)
  | list
  | drop (hash : InfoHash)
  | wipe
  | magnets

inductive SettingsCommand where
  | get
  | set (settings : Settings)
  | defaults
  | setStorage (settingsInJson viewedInJson : Option Bool)

inductive ViewedCommand where
  | set (hash : InfoHash) (index : ℕ) (timecode : Timecode)
  | remove (hash : InfoHash) (index : Option ℕ)
  | list (hash : Option InfoHash)

inductive WafCommand where
  | get
  | set (lists : WafLists)

/-- The client's seam to the coordinator. -/
inductive ClientCommand where
  | torrents (command : TorrentCommand)
  | playback (hash : InfoHash) (index offset : ℕ) (stop prefetchOffset : Option ℕ)
  | settings (command : SettingsCommand)
  | viewed (command : ViewedCommand)
  | cache (hash : Option InfoHash)
  | waf (command : WafCommand)

open Coordinator (M)

def TorrentCommand.body : TorrentCommand → M Unit
  | add request source => do let _ ← Coordinator.addSource request source
  | get hash => do let _ ← Coordinator.getView hash
  | set update => Coordinator.updateTorrent update
  | remove hash => do let _ ← Coordinator.removeTorrent hash
  | list => do let _ ← Coordinator.listViews
  | drop hash => do let _ ← Coordinator.dropLive hash
  | wipe => Coordinator.wipe
  | magnets => do let _ ← Coordinator.magnets

/-- Each answers the settings as they are then. -/
def SettingsCommand.body : SettingsCommand → M Unit
  | get => do let _ ← Coordinator.fields TorrentCoordinator.settings
  | set settings => do
    Coordinator.setSettings settings
    let _ ← Coordinator.fields TorrentCoordinator.settings
  | defaults => do
    Coordinator.resetSettings
    let _ ← Coordinator.fields TorrentCoordinator.settings
  | setStorage settingsInJson viewedInJson => do
    Coordinator.setStoragePreferences settingsInJson viewedInJson
    let _ ← Coordinator.fields TorrentCoordinator.settings

def ViewedCommand.body : ViewedCommand → M Unit
  | set hash index timecode => Coordinator.setViewed hash index timecode
  | remove hash index => Coordinator.removeViewed hash index
  | list hash => do let _ ← Coordinator.listViewed hash

def WafCommand.body : WafCommand → M Unit
  | get => do let _ ← Coordinator.state (← Coordinator.call .waf .wafLists)
  | set lists => do let _ ← Coordinator.setWafLists lists

def ClientCommand.body : ClientCommand → M Unit
  | torrents command => command.body
  | playback hash index offset stop prefetchOffset => do
    let _ ← Coordinator.playback hash index offset stop prefetchOffset
  | settings command => command.body
  | viewed command => command.body
  | cache hash => do let _ ← Coordinator.cacheView hash
  | waf command => command.body

end Rustorr
