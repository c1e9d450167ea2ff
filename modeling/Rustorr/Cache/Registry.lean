import Rustorr.Cache.Extents
import Rustorr.Cache.Store
import Mathlib.Data.List.AList
import Mathlib.Data.List.Sort

/-! The cache (`cache.rs`): a registry of open torrents over a backing store,
with byte counts, completed pieces, pins and recency. -/

namespace Rustorr

open Cache (Error)

structure ReaderRange where
  file : FileIndex
  start : ℕ
  end_ : ℕ
  deriving DecidableEq

structure Cache.Entry where
  layout : TorrentLayout
  pieces : PieceSet
  stored : ℕ
  pins : ℕ
  readers : List (ℕ × ReaderRange)
  demanded : Extents
  lastRead : ℕ

/-- A live view of a torrent. -/
structure Cache.Pin where
  torrent : InfoHash
  id : ℕ
  deriving DecidableEq

structure Cache.Stats where
  storedBytes : ℕ
  capBytes : ℕ
  torrents : ℕ
  pinnedTorrents : ℕ
  deriving DecidableEq

structure Cache (σ : Type) where
  store : σ
  capBytes : ℕ
  nextPin : ℕ
  tick : ℕ
  torrents : AList fun _ : InfoHash => Cache.Entry

namespace Cache

variable {ε σ : Type} (ops : PieceStore ε σ) (env : ε)

def new (store : σ) (capBytes : ℕ) : Cache σ := ⟨store, capBytes, 1, 0, ∅⟩

def nextTick (c : Cache σ) : Cache σ := { c with tick := c.tick + 1 }

def entry (c : Cache σ) (torrent : InfoHash) : Except Error Entry :=
  match c.torrents.lookup torrent with
  | some e => .ok e
  | none => .error (.unknownTorrent torrent)

def setEntry (c : Cache σ) (torrent : InfoHash) (e : Entry) : Cache σ :=
  { c with torrents := c.torrents.insert torrent e }

@[simp] theorem nextTick_store (c : Cache σ) : c.nextTick.store = c.store := rfl

@[simp] theorem nextTick_torrents (c : Cache σ) : c.nextTick.torrents = c.torrents := rfl

@[simp] theorem setEntry_store (c : Cache σ) (torrent : InfoHash) (e : Entry) :
    (c.setEntry torrent e).store = c.store := rfl

@[simp] theorem setEntry_torrents (c : Cache σ) (torrent : InfoHash) (e : Entry) :
    (c.setEntry torrent e).torrents = c.torrents.insert torrent e := rfl

/-- `for piece in recovered.completed_pieces { pieces.insert(piece)?; }`. -/
def insertPieces (pieces : PieceSet) (completed : List PieceIndex) : Except Error PieceSet :=
  completed.foldlM PieceSet.insert pieces

/-- Registers a torrent, or attaches to it if it is open with this layout. -/
def openTorrent (torrent : InfoHash) (layout : TorrentLayout) (c : Cache σ) :
    Except Error Unit × Cache σ :=
  match c.torrents.lookup torrent with
  | some e => (if e.layout = layout then .ok () else .error (.layoutMismatch torrent), c)
  | none => match ops.openTorrent env torrent layout c.store with
    | (.error e, store) => (.error e, { c with store := store })
    | (.ok recovered, store) =>
      let c := nextTick { c with store := store }
      match insertPieces (PieceSet.new layout.pieceCount) recovered.completedPieces with
      | .error e => (.error e, c)
      | .ok pieces =>
        (.ok (), c.setEntry torrent
          ⟨layout, pieces, recovered.storedBytes, 0, [], Extents.empty, c.tick⟩)

/-- The count grows by what the store reports as new, and only on success. -/
def write (torrent : InfoHash) (file : FileIndex) (offset : U64) (data : List UInt8)
    (c : Cache σ) : Except Error Unit × Cache σ :=
  match c.entry torrent with
  | .error e => (.error e, c)
  | .ok e => match ops.write env torrent file offset data c.store with
    | (.error error, store) => (.error error, { c with store := store })
    | (.ok added, store) =>
      (.ok (), { c with store := store }.setEntry torrent { e with stored := e.stored + added })

/-- Marks the torrent as read, then reads from the store. -/
def read (torrent : InfoHash) (file : FileIndex) (offset : U64) (len : ℕ) (c : Cache σ) :
    Except Error (List UInt8) × Cache σ :=
  let c := c.nextTick
  match c.entry torrent with
  | .error e => (.error e, c)
  | .ok e =>
    let c := c.setEntry torrent { e with lastRead := c.tick }
    (ops.read env torrent file offset len c.store, c)

def fileLength (torrent : InfoHash) (file : FileIndex) (c : Cache σ) : Except Error ℕ :=
  match c.entry torrent with
  | .error e => .error e
  | .ok e => match e.layout.fileLength file with
    | none => .error (.unknownFile torrent file)
    | some length => .ok length

/-- The store hears of the piece first, then the registry. -/
def pieceCompleted (torrent : InfoHash) (piece : PieceIndex) (c : Cache σ) :
    Except Error Unit × Cache σ :=
  match ops.pieceCompleted env torrent piece c.store with
  | (.error e, store) => (.error e, { c with store := store })
  | (.ok (), store) =>
    let c := { c with store := store }
    match c.entry torrent with
    | .error e => (.error e, c)
    | .ok e => match e.pieces.insert piece with
      | .error error => (.error error, c)
      | .ok pieces => (.ok (), c.setEntry torrent { e with pieces := pieces })

/-- Records bytes returned through a playback reader, apart from what the engine wrote. -/
def recordDemand (torrent : InfoHash) (file : FileIndex) (offset length : U64) (c : Cache σ) :
    Except Error Unit × Cache σ :=
  match c.entry torrent with
  | .error e => (.error e, c)
  | .ok e => match e.layout.checkRange torrent file offset length with
    | .error error => (.error error, c)
    | .ok _ => match e.layout.fileOffset file with
      | none => (.error (.unknownFile torrent file), c)
      | some fileOffset => match U64.checkedAdd fileOffset offset with
        | none => (.error (.invalidLayout "demand offset overflows"), c)
        | some start => match U64.checkedAdd start length with
          | none => (.error (.invalidLayout "demand range overflows"), c)
          | some end_ => match ByteRange.new (Fin.ofNat _ start) (Fin.ofNat _ end_) with
            | .error error => (.error (.domain error), c)
            | .ok range =>
              (.ok (), c.setEntry torrent { e with demanded := (e.demanded.insert range).2 })

/-- The pin's number is taken before the torrent is looked up. -/
def pinInner (torrent : InfoHash) (range : Option ReaderRange) (c : Cache σ) :
    Except Error Pin × Cache σ :=
  let id := c.nextPin
  let c := { c with nextPin := id + 1 }
  match c.entry torrent with
  | .error e => (.error e, c)
  | .ok e =>
    (.ok ⟨torrent, id⟩, c.setEntry torrent
      { e with pins := e.pins + 1, readers := e.readers ++ range.toList.map (Prod.mk id) })

/-- `Drop for Pin`. -/
def dropPin (pin : Pin) (c : Cache σ) : Cache σ :=
  let c := c.nextTick
  match c.torrents.lookup pin.torrent with
  | none => c
  | some e => c.setEntry pin.torrent
      { e with
        pins := e.pins - 1
        readers := e.readers.filter fun r => r.1 ≠ pin.id
        lastRead := c.tick }

def dropPins (pins : List Pin) (c : Cache σ) : Cache σ := pins.foldl (fun c pin => c.dropPin pin) c

def setCapBytes (capBytes : ℕ) (c : Cache σ) : Cache σ := { c with capBytes := capBytes }

def ensureUnpinned (torrent : InfoHash) (c : Cache σ) : Except Error Unit :=
  match c.entry torrent with
  | .error e => .error e
  | .ok e => if e.pins > 0 then .error (.pinned torrent) else .ok ()

/-- A failure in the store leaves the torrent registered. -/
def remove (torrent : InfoHash) (c : Cache σ) : Except Error ℕ × Cache σ :=
  match c.entry torrent with
  | .error e => (.error e, c)
  | .ok e =>
    if e.pins > 0 then (.error (.pinned torrent), c)
    else match ops.remove env torrent c.store with
      | (.error error, store) => (.error error, { c with store := store })
      | (.ok (), store) =>
        (.ok e.stored, { c with store := store, torrents := c.torrents.erase torrent })

/-- The bytes stored for all registered torrents. -/
def storedBytes (c : Cache σ) : ℕ := (c.torrents.entries.map fun s => s.2.stored).sum

def stats (c : Cache σ) : Stats :=
  ⟨c.storedBytes, c.capBytes, c.torrents.entries.length,
    (c.torrents.entries.filter fun s => s.2.pins > 0).length⟩

/-- The unpinned torrents that hold bytes, least recently read first. -/
def idle (c : Cache σ) : List (Σ _ : InfoHash, Entry) :=
  (c.torrents.entries.filter fun s => s.2.pins = 0 ∧ s.2.stored > 0).insertionSort
    fun a b => a.2.lastRead ≤ b.2.lastRead

/-- The loop of `eviction_candidates`. -/
def victims (excess : ℕ) : List (Σ _ : InfoHash, Entry) → List InfoHash
  | [] => []
  | s :: rest => if excess = 0 then [] else s.1 :: victims (excess - s.2.stored) rest

def evictionCandidates (c : Cache σ) : List InfoHash := victims (c.storedBytes - c.capBytes) c.idle

end Cache

end Rustorr
