import Rustorr.Cache.Recovery
import Rustorr.Cache.Store

/-! The disk store (`disk.rs`): sparse files and a manifest for each torrent,
with every file-system step of an operation allowed to fail. -/

namespace Rustorr

open Cache (Error)

namespace Disk

def emptyTorrent (dir : List Char) (layout : TorrentLayout) : Torrent where
  layout := layout
  dir := dir
  extents := List.replicate layout.fileCount Extents.empty
  completed := List.replicate layout.pieceCount false
  length_extents := List.length_replicate
  length_completed := List.length_replicate

namespace Torrent

variable (t : Torrent)

/-- `extents[file]`, which a checked range keeps within the list. -/
def extentsOf (file : FileIndex) : Extents := t.extents.getD file.zeroBased Extents.empty

/-- `extents[file].insert(range)`. -/
def insert (file : FileIndex) (range : ByteRange) : ℕ × Torrent :=
  let result := (t.extentsOf file).insert range
  (result.1, { t with
    extents := t.extents.set file.zeroBased result.2
    length_extents := by rw [List.length_set, t.length_extents] })

def complete (piece : PieceIndex) : Torrent :=
  { t with
    completed := t.completed.set piece.get true
    length_completed := by rw [List.length_set, t.length_completed] }

/-- The bytes accounted for in all files. -/
def stored : ℕ := (t.extents.map Extents.total).sum

@[simp] theorem insert_layout (file : FileIndex) (range : ByteRange) :
    (t.insert file range).2.layout = t.layout := rfl

@[simp] theorem insert_dir (file : FileIndex) (range : ByteRange) :
    (t.insert file range).2.dir = t.dir := rfl

@[simp] theorem insert_completed (file : FileIndex) (range : ByteRange) :
    (t.insert file range).2.completed = t.completed := rfl

@[simp] theorem insert_extents (file : FileIndex) (range : ByteRange) :
    (t.insert file range).2.extents =
      t.extents.set file.zeroBased ((t.extentsOf file).insert range).2 := rfl

@[simp] theorem complete_layout (piece : PieceIndex) : (t.complete piece).layout = t.layout := rfl

@[simp] theorem complete_dir (piece : PieceIndex) : (t.complete piece).dir = t.dir := rfl

@[simp] theorem complete_extents (piece : PieceIndex) :
    (t.complete piece).extents = t.extents := rfl

@[simp] theorem complete_completed (piece : PieceIndex) :
    (t.complete piece).completed = t.completed.set piece.get true := rfl

@[simp] theorem complete_stored (piece : PieceIndex) : (t.complete piece).stored = t.stored := rfl

theorem stored_insert {file : FileIndex} (h : (file.zeroBased : ℕ) < t.layout.fileCount)
    (range : ByteRange) : (t.insert file range).2.stored = t.stored + (t.insert file range).1 := by
  have hlt : (file.zeroBased : ℕ) < t.extents.length := t.length_extents ▸ h
  have hof : t.extentsOf file = t.extents[(file.zeroBased : ℕ)] := by
    rw [extentsOf, List.getD_eq_getElem?_getD, List.getElem?_eq_getElem hlt, Option.getD_some]
  have hold : t.stored = ((t.extents.take file.zeroBased).map Extents.total).sum +
      ((t.extentsOf file).total +
        ((t.extents.drop (file.zeroBased + 1)).map Extents.total).sum) := by
    rw [hof, ← List.sum_cons, ← List.map_cons, ← List.drop_eq_getElem_cons, ← List.sum_append,
      ← List.map_append, List.take_append_drop, stored]
  have hnew : (t.insert file range).2.stored =
      ((t.extents.take file.zeroBased).map Extents.total).sum +
        (((t.extentsOf file).insert range).2.total +
          ((t.extents.drop (file.zeroBased + 1)).map Extents.total).sum) := by
    rw [stored, insert_extents, List.set_eq_take_append_cons_drop, if_pos hlt, List.map_append,
      List.sum_append, List.map_cons, List.sum_cons]
  have hadded : (t.insert file range).1 = ((t.extentsOf file).insert range).1 := rfl
  rw [hnew, hold, Extents.total_insert, hadded]
  omega

end Torrent

/-- `write_manifest`: a temporary file that replaces the manifest once synced. -/
def writeManifest (fs : FileSystem) (torrent : Torrent) (faults : Faults) :
    Except Error Unit × FileSystem :=
  match fs.entries torrent.dir with
  | none => (.error (.io "create cache manifest" .notFound), fs)
  | some dir =>
    if faults.createManifest then (.error (.io "create cache manifest" .other), fs)
    else
      let text := manifest torrent
      match faults.writeManifest with
      | some n =>
        (.error (.io "write cache manifest" .other),
          fs.set torrent.dir (some { dir with temporary := some (text.take n) }))
      | none =>
        let written := fs.set torrent.dir (some { dir with temporary := some text })
        if faults.syncManifest then (.error (.io "sync cache manifest" .other), written)
        else if faults.renameManifest then (.error (.io "replace cache manifest" .other), written)
        else (.ok (), fs.set torrent.dir (some { dir with manifest := some text, temporary := none }))

/-- Creates the data file where it is missing and writes `data` into it. -/
def writeFile (fs : FileSystem) (name : List Char) (index offset : ℕ) (data : List UInt8)
    (faults : Faults) : Except Error Unit × FileSystem :=
  match fs.entries name with
  | none => (.error (.io "open cache file for writing" .notFound), fs)
  | some dir =>
    if faults.openFile then (.error (.io "open cache file for writing" .other), fs)
    else
      let bytes := (dir.files index).getD []
      match faults.writeAt with
      | some n =>
        (.error (.io "write cache file" .other),
          fs.set name (some (dir.setFile index
            (if data.take n = [] then bytes else overwrite bytes offset (data.take n)))))
      | none => (.ok (), fs.set name (some (dir.setFile index (overwrite bytes offset data))))

/-- `read_exact_at` of a data file. -/
def readFile (fs : FileSystem) (name : List Char) (index offset len : ℕ) (faults : Faults) :
    Except Error (List UInt8) :=
  match (fs.entries name).bind fun dir => dir.files index with
  | none => .error (.io "open cache file for reading" .notFound)
  | some bytes =>
    if faults.openFile then .error (.io "open cache file for reading" .other)
    else if faults.readAt ∨ bytes.length < offset + len then .error (.io "read cache file" .other)
    else .ok ((bytes.drop offset).take len)

end Disk

structure DiskStore where
  torrents : AList fun _ : InfoHash => Disk.Torrent
  fs : FileSystem

namespace DiskStore

open Disk

/-- A store over a root where nothing was left behind. -/
def new (fs : FileSystem) : DiskStore := ⟨∅, fs⟩

def torrent (s : DiskStore) (torrent : InfoHash) : Except Error Torrent :=
  match s.torrents.lookup torrent with
  | some t => .ok t
  | none => .error (.unknownTorrent torrent)

/-- What `open` answers for the completed flags. -/
def recovered (completed : List Bool) (storedBytes : ℕ) : Recovered :=
  ⟨storedBytes, (PieceSet.flagged completed).map PieceIndex.ofPosition⟩

/-- What `restore` proves, as a record of the store. -/
def restoreTorrent (fs : FileSystem) (name : List Char) (layout : TorrentLayout)
    (faults : Faults) : Option (Torrent × ℕ) :=
  match h : restore (fs.entries name) layout faults with
  | none => none
  | some (extents, completed, stored) =>
    some (⟨layout, name, extents, completed, length_extents_of_restore h,
      length_completed_of_restore h⟩, stored)

/-- A second `open` in one process clears the directory; the first one may
recover what an earlier process left. -/
def openTorrent (faults : Faults) (torrent : InfoHash) (layout : TorrentLayout) (s : DiskStore) :
    Except Error Recovered × DiskStore :=
  let dir := torrent.toText
  let alreadyOpen := decide (torrent ∈ s.torrents)
  let restored := if alreadyOpen then none else restoreTorrent s.fs dir layout faults
  let (cleared, fs) := if restored.isNone then s.fs.removeDir dir faults else (.ok (), s.fs)
  match cleared with
  | .error e => (.error e, { s with fs := fs })
  | .ok () =>
    match fs.createDirAll dir faults with
    | (.error e, fs) => (.error e, { s with fs := fs })
    | (.ok (), fs) =>
      let (created, stored) := restored.getD (emptyTorrent dir layout, 0)
      (.ok (recovered created.completed stored), ⟨s.torrents.insert torrent created, fs⟩)

def write (faults : Faults) (torrent : InfoHash) (file : FileIndex) (offset : U64)
    (data : List UInt8) (s : DiskStore) : Except Error ℕ × DiskStore :=
  match s.torrent torrent with
  | .error e => (.error e, s)
  | .ok t => match t.layout.checkRange torrent file offset data.length with
    | .error e => (.error e, s)
    | .ok range =>
      if data = [] then (.ok 0, s)
      else match writeFile s.fs t.dir file.zeroBased offset data faults with
        | (.error e, fs) => (.error e, { s with fs := fs })
        | (.ok (), fs) =>
          -- the record takes the range before the manifest is on disk
          let (added, t) := t.insert file range
          let (result, fs) := writeManifest fs t faults
          (result.map fun _ => added, ⟨s.torrents.insert torrent t, fs⟩)

def read (faults : Faults) (torrent : InfoHash) (file : FileIndex) (offset : U64) (len : ℕ)
    (s : DiskStore) : Except Error (List UInt8) :=
  match s.torrent torrent with
  | .error e => .error e
  | .ok t => match t.layout.checkRange torrent file offset len with
    | .error e => .error e
    | .ok range =>
      if !(t.extentsOf file).covers range then .error (.missing torrent file range)
      else if len = 0 then .ok []
      else readFile s.fs t.dir file.zeroBased offset len faults

def remove (faults : Faults) (torrent : InfoHash) (s : DiskStore) :
    Except Error Unit × DiskStore :=
  match s.torrents.lookup torrent with
  | none => (.ok (), s)
  | some t =>
    let (result, fs) := s.fs.removeDir t.dir faults
    (result, ⟨s.torrents.erase torrent, fs⟩)

def pieceCompleted (faults : Faults) (torrent : InfoHash) (piece : PieceIndex) (s : DiskStore) :
    Except Error Unit × DiskStore :=
  match s.torrent torrent with
  | .error e => (.error e, s)
  | .ok t =>
    if (piece.get : ℕ) < t.completed.length then
      -- the flag is set before the manifest is on disk
      let t := t.complete piece
      let (result, fs) := writeManifest s.fs t faults
      (result, ⟨s.torrents.insert torrent t, fs⟩)
    else (.error (.pieceOutOfRange piece t.completed.length), s)

def pieceStore : PieceStore Faults DiskStore where
  openTorrent := openTorrent
  write := write
  read := read
  remove := remove
  pieceCompleted := pieceCompleted

end DiskStore

end Rustorr
