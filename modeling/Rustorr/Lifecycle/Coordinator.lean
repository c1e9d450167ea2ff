import Rustorr.Lifecycle.World
import Rustorr.Lib.Text
import Mathlib.Data.String.Basic

/-! The functions of `TorrentCoordinator` as programs over atomic acts: between
two acts anything else may run. -/

namespace Rustorr

open Lifecycle (Error)

/-- What a coordinator function does in one piece. A short critical section of
its own maps is one `atomically`. -/
inductive Act : Type 1
  | lock
  | unlock
  | call (caller : Activation) (c : Call)
  | atomically (β : Type) (f : TorrentCoordinator → β × TorrentCoordinator)
  | spawn (task : Background)
  | cancel (task : Background)
  | handOver (reader : PlaybackReader)
  | waitForever

abbrev Act.Ans : Act → Type
  | lock | unlock | spawn _ | cancel _ | handOver _ => Unit
  | call _ c => c.Ans
  | atomically β _ => β
  | waitForever => Empty

namespace Coordinator

variable {α β : Type}

abbrev M : Type → Type 1 := Prog Act Act.Ans Error

def act (a : Act) : M a.Ans := Prog.perform a

def call (caller : Activation) (c : Call) : M c.Ans := act (.call caller c)

def atomically (f : TorrentCoordinator → β × TorrentCoordinator) : M β := act (.atomically β f)

def fields (f : TorrentCoordinator → β) : M β := atomically fun t => (f t, t)

def update (f : TorrentCoordinator → TorrentCoordinator) : M Unit := atomically fun t => ((), f t)

def engine (r : Except Engine.Error α) : M α := Prog.ofExcept (r.mapError .engine)

def state (r : Except State.Error α) : M α := Prog.ofExcept (r.mapError .state)

def cache (r : Except Cache.Error α) : M α := Prog.ofExcept (r.mapError .cache)

def okOr (e : Error) : Option α → M α
  | some a => pure a
  | none => Prog.fail e

/-- A body under `let _gate = self.gate.lock().await`: the guard is dropped on
every way out. -/
def withGate (body : M α) : M α := do
  let () ← act .lock
  let r ← body.attempt
  let () ← act .unlock
  Prog.ofExcept r

/-- A result that is only logged. -/
def logged (body : M α) : M Unit := do
  let _ ← body.attempt
  pure ()

/-! ### Views and documents -/

structure TorrentFileView where
  id : ℕ
  path : String
  length : ℕ
  engineIndex : U32

/-- The files by path, numbered from one. -/
def sortedFiles (metadata : TorrentMetadata) : List TorrentFileView :=
  let files := metadata.files.map fun f => (⟨0, f.path, f.length, f.engineIndex⟩ : TorrentFileView)
  (files.insertionSort fun a b => a.path ≤ b.path).mapIdx fun index f =>
    { f with id := min (index + 1) (2 ^ 32 - 1) }

def jsonChar (c : Char) : List Char :=
  if c = '"' then ['\\', '"']
  else if c = '\\' then ['\\', '\\']
  else if c = '\n' then ['\\', 'n']
  else if c = '\r' then ['\\', 'r']
  else if c = '\t' then ['\\', 't']
  else if c.toNat = 8 then ['\\', 'b']
  else if c.toNat = 12 then ['\\', 'f']
  else if c.toNat < 32 then
    ['\\', 'u', '0', '0', Nat.digitChar (c.toNat / 16), Nat.digitChar (c.toNat % 16)]
  else [c]

/-- `serde_json`'s text of a string. -/
def jsonString (s : String) : List Char := '"' :: s.toList.flatMap jsonChar ++ ['"']

def fileDocument (f : TorrentFileView) : List Char :=
  "\x7b\"id\":".toList ++ Text.decimal f.id ++ ",\"path\":".toList ++ jsonString f.path ++
    ",\"length\":".toList ++ Text.decimal f.length ++ "\x7d".toList

def defaultData (metadata : TorrentMetadata) : String :=
  String.ofList ("\x7b\"TorrServer\":\x7b\"Files\":[".toList ++
    Text.join ',' ((sortedFiles metadata).map fileDocument) ++ "]\x7d\x7d".toList)

def withDefaultData (live : LiveTorrent) : LiveTorrent :=
  if live.data.isEmpty then { live with data := defaultData live.metadata } else live

@[simp] theorem withDefaultData_metadata (live : LiveTorrent) :
    (withDefaultData live).metadata = live.metadata := by
  unfold withDefaultData
  split <;> rfl

/-- The size sum is a `u64`, as the lengths of a torrent's files are checked to be. -/
def entryOf (live : LiveTorrent) : CatalogEntry :=
  ⟨live.metadata.hash, live.title, live.poster, live.category, live.data, live.addedAt,
    (live.metadata.files.map TorrentFile.length).sum⟩

def persist (caller : Activation) (live : LiveTorrent) : M Unit := do
  if ← fields TorrentCoordinator.readOnly then pure ()
  else state (← call caller (.saveTorrent (entryOf live) live.metadata.metainfo))

/-! ### Small steps shared by the functions -/

def stopPrefetchLocked (hash : InfoHash) : M Unit := do
  match ← atomically fun t =>
      (t.prefetches.lookup hash, { t with prefetches := t.prefetches.erase hash }) with
  | some task => act (.cancel task.handle)
  | none => pure ()

def stopIdleDetachLocked (hash : InfoHash) : M Unit := do
  match ← atomically fun t =>
      (t.idleDetaches.lookup hash, { t with idleDetaches := t.idleDetaches.erase hash }) with
  | some task => act (.cancel task.handle)
  | none => pure ()

def ensureUnpinned (caller : Activation) (hash : InfoHash) : M Unit := do
  match ← call caller (.ensureUnpinned hash) with
  | .ok () | .error (.unknownTorrent _) => pure ()
  | .error e => Prog.fail (.cache e)

def engineDelete (caller : Activation) (hash : InfoHash) :
    M (Except Engine.Error (List SocketAddr)) := do
  match ← call caller (.delete hash) with
  | .error e => pure (.error e)
  | .ok (id, livePeers) =>
    let () ← call caller (.forget hash id)
    pure (.ok livePeers)

def keepPeers (hash : InfoHash) (livePeers : List SocketAddr) : M Unit :=
  update fun t =>
    if livePeers.isEmpty then t else { t with peerHints := t.peerHints.insert hash livePeers }

/-- Removes the cache entry of a torrent that may have none. -/
def removeCache (caller : Activation) (hash : InfoHash) : M Unit := do
  match ← call caller (.removeCache hash) with
  | .ok _ | .error (.unknownTorrent _) => pure ()
  | .error e => Prog.fail (.cache e)

def forgetLive (hash : InfoHash) : M Unit := update fun t => { t with live := t.live.erase hash }

def forgetPeers (hash : InfoHash) : M Unit :=
  update fun t => { t with peerHints := t.peerHints.erase hash }

def insertLive (hash : InfoHash) (live : LiveTorrent) : M Unit :=
  update fun t => { t with live := t.live.insert hash live }

def peersOf (hash : InfoHash) : M (List SocketAddr) :=
  fields fun t => (t.peerHints.lookup hash).getD []

/-! ### Adding -/

/-- A torrent that is already live. The guard its entry was looked up through is
held to the end of the branch, so the second lock of `live` never succeeds. -/
def addLive (request : AddTorrent) (hash : InfoHash) (live : LiveTorrent) : M LiveTorrent := do
  if request.saveToDb then
    if (← state (← call .addSource (.torrent hash))).isNone then
      persist .addSource (withDefaultData live)
      let e ← act .waitForever
      nomatch e
    else pure live
  else pure live

/-- A catalog entry keeps its metainfo, so a saved torrent needs no peer. -/
def savedSource (source : TorrentSource) : Option InfoHash → M TorrentSource
  | none => pure source
  | some hash => match source with
    | .torrentBytes _ => pure source
    | _ => do
      match ← state (← call .addSource (.metainfo hash)) with
      | some metainfo => pure (.torrentBytes metainfo)
      | none => pure source

def nonEmptyOr (saved : Option String) (other : String) : String :=
  match saved with
  | some text => if text.isEmpty then other else text
  | none => other

def liveOf (request : AddTorrent) (metadata : TorrentMetadata) (existing : Option CatalogEntry)
    (now : SystemTime) : LiveTorrent where
  metadata := metadata
  title := if request.title.isEmpty then nonEmptyOr (existing.map CatalogEntry.title) metadata.name
    else request.title
  poster := nonEmptyOr (existing.map CatalogEntry.poster) request.poster
  category := nonEmptyOr (existing.map CatalogEntry.category) request.category
  data := nonEmptyOr (existing.map CatalogEntry.data) request.data
  addedAt := (existing.map CatalogEntry.addedAt).getD now

def storedOf (request : AddTorrent) (live : LiveTorrent) : M LiveTorrent := do
  if request.saveToDb then
    persist .addSource (withDefaultData live)
    pure (withDefaultData live)
  else pure live

def addNew (request : AddTorrent) (source : TorrentSource) (sourceHash : Option InfoHash) :
    M LiveTorrent := do
  let source ← savedSource source sourceHash
  let initialPeers ← fields fun t => (sourceHash.bind t.peerHints.lookup).getD []
  let trackers ← call .addSource .extraTrackers
  let metadata ← engine (← call .addSource (.add source ⟨none, initialPeers, trackers⟩))
  forgetPeers metadata.hash
  let existing ← state (← call .addSource (.torrent metadata.hash))
  let now ← call .addSource .now
  let live := liveOf request metadata existing now
  let stored ← storedOf request live
  insertLive metadata.hash stored
  pure live

/-- Answers the torrent whose view the source returns. -/
def addSource (request : AddTorrent) (source : TorrentSource) : M LiveTorrent := withGate do
  let sourceHash ← call .addSource (.sourceHash source)
  match ← fields fun t => sourceHash.bind fun hash => (t.live.lookup hash).map (Prod.mk hash) with
  | some (hash, live) => addLive request hash live
  | none => addNew request source sourceHash

def revive (hash : InfoHash) (metadata : TorrentMetadata) : M Unit := do
  if ← fields fun t => (t.live.lookup hash).isSome then pure ()
  else
    let entry ← okOr (.notFound hash) (← state (← call (.load hash) (.torrent hash)))
    insertLive hash
      ⟨metadata, entry.title, entry.poster, entry.category, entry.data, entry.addedAt⟩

def load (hash : InfoHash) : M Unit := do
  if ← call (.load hash) (.isLoaded hash) then pure ()
  else
    let metainfo ← okOr (.engine (.notLoaded hash)) (← state (← call (.load hash) (.metainfo hash)))
    let initialPeers ← peersOf hash
    let trackers ← call (.load hash) .extraTrackers
    let metadata ← engine
      (← call (.load hash) (.add (.torrentBytes metainfo) ⟨none, initialPeers, trackers⟩))
    if metadata.hash ≠ hash then Prog.fail (.engine (.notLoaded hash))
    else
      revive hash metadata
      forgetPeers hash

/-! ### Releasing -/

def detach (hash : InfoHash) : M Unit := do
  if ← call (.dropLive hash) (.isLoaded hash) then
    let livePeers ← engine (← engineDelete (.dropLive hash) hash)
    keepPeers hash livePeers
  else pure ()

def dropCache (hash : InfoHash) (saved : Bool) : M Unit := do
  if (← fields fun t => t.settings.removeCacheOnDrop) || !saved then
    removeCache (.dropLive hash) hash
  else pure ()

def dropLocked (hash : InfoHash) : M Bool := do
  stopIdleDetachLocked hash
  let saved ← state (← call (.dropLive hash) (.torrent hash))
  stopPrefetchLocked hash
  ensureUnpinned (.dropLive hash) hash
  detach hash
  dropCache hash saved.isSome
  forgetLive hash
  pure saved.isSome

def dropLive (hash : InfoHash) : M Bool := withGate (dropLocked hash)

/-- After a restart the catalog row and the manifest exist before the cache entry. -/
def attach (hash : InfoHash) : M Unit := do
  if ← call (.removeTorrent hash) (.isLoaded hash) then pure ()
  else
    match ← state (← call (.removeTorrent hash) (.torrent hash)) with
    | some _ => load hash
    | none => pure ()

def releaseEngine (hash : InfoHash) : M Unit := do
  match ← engineDelete (.removeTorrent hash) hash with
  | .ok _ | .error (.notLoaded _) => pure ()
  | .error e => Prog.fail (.engine e)

/-- Data and catalog go after the engine. -/
def forgetTorrent (hash : InfoHash) : M Bool := do
  removeCache (.removeTorrent hash) hash
  let removed ← state (← call (.removeTorrent hash) (.removeTorrent hash))
  forgetLive hash
  forgetPeers hash
  pure removed

def removeAttached (hash : InfoHash) : M Bool := do
  stopPrefetchLocked hash
  ensureUnpinned (.removeTorrent hash) hash
  releaseEngine hash
  forgetTorrent hash

def removeLocked (hash : InfoHash) : M Bool := do
  stopIdleDetachLocked hash
  attach hash
  removeAttached hash

def removeTorrent (hash : InfoHash) : M Bool := do
  if ← fields TorrentCoordinator.readOnly then pure false
  else withGate (removeLocked hash)

def evictLocked (hash : InfoHash) : M ℕ := do
  stopIdleDetachLocked hash
  stopPrefetchLocked hash
  ensureUnpinned (.evictLocked hash) hash
  let livePeers ← engine (← engineDelete (.evictLocked hash) hash)
  keepPeers hash livePeers
  let freed ← cache (← call (.evictLocked hash) (.removeCache hash))
  forgetLive hash
  pure freed

def evict (hash : InfoHash) : M ℕ := withGate (evictLocked hash)

def evictToCap : M Unit := withGate do
  let candidates ← call .evictToCap .evictionCandidates
  candidates.forM fun hash => logged (evictLocked hash)

/-! ### Playing -/

def engineFile (hash : InfoHash) (index : ℕ) : M FileIndex := do
  let live ← okOr (.notFound hash) (← fields fun t => t.live.lookup hash)
  let file ← okOr (.unknownFile hash index)
    ((sortedFiles live.metadata).find? fun f => f.id = index)
  pure (FileIndex.fromZeroBased file.engineIndex)

def playReader (hash : InfoHash) (index : ℕ) (file : FileIndex) (offset : ℕ) : M ℕ := do
  match ← call (.play hash) (.reader hash file offset) with
  | .ok length => pure length
  | .error (.notLoaded _) => Prog.fail (.unknownFile hash index)
  | .error e => Prog.fail (.engine e)

/-- The spawned task waits for a signal sent after its registration, or for the
loss of the sender. -/
def startPrefetchLocked (hash : InfoHash) (file : FileIndex) (offset : ℕ) : M Unit := do
  stopPrefetchLocked hash
  let id ← atomically fun t => (t.nextPrefetchId, { t with nextPrefetchId := t.nextPrefetchId + 1 })
  let task := Background.prefetch id hash file offset
  let () ← act (.spawn task)
  update fun t => { t with prefetches := t.prefetches.insert hash ⟨id, task⟩ }

def startPrefetch (hash : InfoHash) (file : FileIndex) : Option ℕ → M Unit
  | some offset => startPrefetchLocked hash file offset
  | none => pure ()

/-- `play_with_prefetch` once the torrent is loaded. -/
def openReader (hash : InfoHash) (index offset : ℕ) (stop prefetchOffset : Option ℕ) :
    M PlaybackReader := do
  let file ← engineFile hash index
  let length ← playReader hash index file offset
  let rangeEnd := min (stop.getD (length - 1)) (length - 1)
  let pin ← cache (← call (.play hash) (.pin hash (some ⟨file, offset, rangeEnd⟩)))
  startPrefetch hash file prefetchOffset
  let reader : PlaybackReader := ⟨pin, hash, file, offset⟩
  let () ← act (.handOver reader)
  pure reader

def playLocked (hash : InfoHash) (index offset : ℕ) (stop prefetchOffset : Option ℕ) :
    M PlaybackReader := do
  stopIdleDetachLocked hash
  load hash
  openReader hash index offset stop prefetchOffset

def playWithPrefetch (hash : InfoHash) (index offset : ℕ) (stop prefetchOffset : Option ℕ) :
    M PlaybackReader := withGate (playLocked hash index offset stop prefetchOffset)

def schedulePrefetch (hash : InfoHash) (index offset : ℕ) : M Unit := withGate do
  match ← (engineFile hash index).attempt with
  | .ok file => startPrefetchLocked hash file offset
  | .error _ => pure ()

/-- `cap.saturating_mul(preload) / 100`, if the preload is no negative number. -/
def prefetchBudget (settings : Settings) : Option ℕ :=
  if settings.preloadCache < 0 then none
  else some (min (settings.cacheCap * settings.preloadCache.toNat) (2 ^ 64 - 1) / 100)

def prefetchPin (id : ℕ) (hash : InfoHash) (file : FileIndex) (offset : ℕ) :
    M (Option Cache.Pin) := do
  match ← call (.prefetch id) (.reader hash file offset) with
  | .error _ => pure none
  | .ok length =>
    if offset ≥ length then pure none
    else
      match ← call (.prefetch id) (.pin hash none) with
      | .ok pin => pure (some pin)
      | .error _ => pure none

/-- The prefetch task up to its read, holding the pin it took. -/
def prefetchPrepare (id : ℕ) (hash : InfoHash) (file : FileIndex) (offset : ℕ) :
    M (Option Cache.Pin) := do
  match ← fields fun t => prefetchBudget t.settings with
  | none | some 0 => pure none
  | some _ => prefetchPin id hash file offset

def dropPrepared (id : ℕ) : Option Cache.Pin → M Unit
  | some pin => call (.prefetch id) (.dropPin pin)
  | none => pure ()

/-- The prefetch task from the end of its read on. -/
def prefetchFinish (id : ℕ) (hash : InfoHash) (prepared : Option Cache.Pin) : M Unit := do
  dropPrepared id prepared
  update fun t =>
    if (t.prefetches.lookup hash).any fun task => task.id = id then
      { t with prefetches := t.prefetches.erase hash }
    else t
  logged evictToCap

/-! ### Idle torrents and settings -/

def scheduleIdleDetach (hash : InfoHash) : M Unit := do
  match ← (ensureUnpinned (.scheduleIdleDetach hash) hash).attempt with
  | .error _ => pure ()
  | .ok () =>
    if ← call (.scheduleIdleDetach hash) (.isLoaded hash) then
      stopIdleDetachLocked hash
      let id ← atomically fun t => (t.nextIdleId, { t with nextIdleId := t.nextIdleId + 1 })
      let task := Background.idleDetach id hash
      let () ← act (.spawn task)
      update fun t => { t with idleDetaches := t.idleDetaches.insert hash ⟨id, task⟩ }
    else pure ()

/-- The idle task after its timeout. -/
def idleDetach (id : ℕ) (hash : InfoHash) : M Unit := do
  if ← atomically fun t =>
      if (t.idleDetaches.lookup hash).any fun task => task.id = id then
        (true, { t with idleDetaches := t.idleDetaches.erase hash })
      else (false, t) then
    logged (dropLive hash)
  else pure ()

/-- The task spawned when a playback reader is dropped. -/
def release (hash : InfoHash) : M Unit := do
  logged evictToCap
  scheduleIdleDetach hash

def filterLoaded : List InfoHash → M (List InfoHash)
  | [] => pure []
  | hash :: rest => do
    let loaded ← call .dropAllLive (.isLoaded hash)
    let rest ← filterLoaded rest
    pure (if loaded then hash :: rest else rest)

/-- `sort_by_key(ToString::to_string)` and `dedup`. -/
def inTextOrder (hashes : List InfoHash) : List InfoHash :=
  (hashes.insertionSort fun a b => a.toText ≤ b.toText).destutter (· ≠ ·)

/-- A torrent with an active reader stays loaded. -/
def dropUnlessPinned (hash : InfoHash) : M Unit := do
  match ← (dropLive hash).attempt with
  | .ok _ | .error (.cache (.pinned _)) => pure ()
  | .error e => Prog.fail e

def dropAllLive : M Unit := do
  let live ← fields fun t => t.live.keys
  let saved ← state (← call .dropAllLive .listTorrents)
  let loaded ← filterLoaded (saved.map CatalogEntry.hash)
  (inTextOrder (live ++ loaded)).forM dropUnlessPinned

def applySettings (settings : Settings) : M Unit := do
  state (← call .setSettings (.setSettings settings))
  let () ← call .setSettings (.setCapBytes settings.cacheCap)
  update fun t => { t with settings := settings }
  dropAllLive
  evictToCap

def setSettings (settings : Settings) : M Unit := do
  if ← fields TorrentCoordinator.readOnly then pure ()
  else applySettings settings.normalized

end Coordinator

/-- What a spawned task runs. -/
def Background.body : Background → Coordinator.M Unit
  | .prefetch id hash file offset => do
    let prepared ← Coordinator.prefetchPrepare id hash file offset
    Coordinator.prefetchFinish id hash prepared
  | .idleDetach id hash => Coordinator.idleDetach id hash
  | .release hash => Coordinator.release hash

end Rustorr
