import Rustorr.Domain
import Mathlib.Data.List.Basic

/-! Errors of the cache crate, the shape of a torrent's data and the set of its
completed pieces (`error.rs`, `layout.rs`, `store.rs`). -/

namespace Rustorr

/-- The error kinds of the operating system the code tells apart. -/
inductive IoKind
  | notFound
  | other
  deriving DecidableEq

inductive Cache.Error
  | unknownTorrent (torrent : InfoHash)
  | layoutMismatch (torrent : InfoHash)
  | pinned (torrent : InfoHash)
  | unknownFile (torrent : InfoHash) (file : FileIndex)
  | outOfBounds (torrent : InfoHash) (file : FileIndex) (range : ByteRange) (fileLen : ℕ)
  | missing (torrent : InfoHash) (file : FileIndex) (range : ByteRange)
  | pieceOutOfRange (piece : PieceIndex) (pieceCount : ℕ)
  | invalidLayout (reason : String)
  | io (context : String) (source : IoKind)
  | domain (error : Domain.Error)
  deriving DecidableEq

open Cache (Error)

/-- Shape of a torrent's data. The fields after the source's four say what
`TorrentLayout::new` has checked, so every layout is one it admits. -/
structure TorrentLayout where
  pieceLength : ℕ
  fileLengths : List ℕ
  totalLength : ℕ
  pieceCount : ℕ
  pieceLength_ne : pieceLength ≠ 0
  pieceLength_lt : pieceLength < 2 ^ 64
  totalLength_eq : totalLength = fileLengths.sum
  totalLength_lt : totalLength < 2 ^ 64
  pieceCount_eq : pieceCount = U64.divCeil totalLength pieceLength
  pieceCount_lt : pieceCount < 2 ^ 32

/-- Layouts are told apart by the source's four fields. -/
theorem TorrentLayout.eq_iff {a b : TorrentLayout} :
    a.pieceLength = b.pieceLength ∧ a.fileLengths = b.fileLengths ∧ a.totalLength = b.totalLength ∧
      a.pieceCount = b.pieceCount ↔ a = b := by
  cases a
  cases b
  simp

instance : DecidableEq TorrentLayout := fun _ _ => decidable_of_iff _ TorrentLayout.eq_iff

namespace TorrentLayout

def new (pieceLength : U64) (fileLengths : List U64) : Except Error TorrentLayout :=
  if hp : (pieceLength : ℕ) = 0 then .error (.invalidLayout "piece length is zero")
  else match ht : U64.checkedSum (fileLengths.map Fin.val) with
    | none => .error (.invalidLayout "total length overflows")
    | some total =>
      if hc : U64.divCeil total pieceLength < 2 ^ 32 then
        .ok ⟨pieceLength, fileLengths.map Fin.val, total, U64.divCeil total pieceLength, hp,
          pieceLength.val_lt, (U64.checkedSum_eq_some.mp ht).2.symm,
          (U64.checkedSum_eq_some.mp ht).2 ▸ (U64.checkedSum_eq_some.mp ht).1, rfl, hc⟩
      else .error (.invalidLayout "more pieces than fit in 32 bits")

variable (layout : TorrentLayout)

def fileCount : ℕ := layout.fileLengths.length

def fileLength (file : FileIndex) : Option ℕ := layout.fileLengths[(file.zeroBased : ℕ)]?

def fileOffset (file : FileIndex) : Option ℕ :=
  if (file.zeroBased : ℕ) ≤ layout.fileLengths.length then
    U64.checkedSum (layout.fileLengths.take file.zeroBased)
  else none

/-- Validates that `len` bytes at `offset` lie inside `file`. -/
def checkRange (torrent : InfoHash) (file : FileIndex) (offset len : ℕ) :
    Except Error ByteRange :=
  match layout.fileLength file with
  | none => .error (.unknownFile torrent file)
  | some fileLen => match ByteRange.fromStartLen offset len with
    | .error e => .error (.domain e)
    | .ok range =>
      if !range.fitsWithin fileLen then .error (.outOfBounds torrent file range fileLen)
      else .ok range

theorem checkRange_eq_ok {layout : TorrentLayout} {torrent : InfoHash} {file : FileIndex}
    {offset len : ℕ} {range : ByteRange} (h : layout.checkRange torrent file offset len = .ok range) :
    range.start = offset ∧ range.end_ = offset + len ∧
      ∃ fileLen, layout.fileLength file = some fileLen ∧ offset + len ≤ fileLen := by
  unfold checkRange at h
  cases hf : layout.fileLength file with
  | none => simp [hf] at h
  | some fileLen =>
    cases hr : ByteRange.fromStartLen offset len with
    | error e => simp [hf, hr] at h
    | ok r =>
      obtain ⟨h1, h2⟩ := ByteRange.fromStartLen_eq_ok hr
      by_cases hfit : r.end_ ≤ fileLen
      · simp only [hf, hr, ByteRange.fitsWithin, hfit, decide_true, Bool.not_true,
          Bool.false_eq_true, if_false, Except.ok.injEq] at h
        subst h
        exact ⟨h1, h2, fileLen, rfl, h2 ▸ hfit⟩
      · simp [hf, hr, ByteRange.fitsWithin, hfit] at h

theorem fileLength_lt {layout : TorrentLayout} {file : FileIndex} {n : ℕ}
    (h : layout.fileLength file = some n) : (file.zeroBased : ℕ) < layout.fileCount :=
  (List.getElem?_eq_some_iff.mp h).1

end TorrentLayout

/-- Pieces of one torrent that the engine has completed and verified. -/
structure PieceSet where
  complete : List Bool
  deriving DecidableEq

namespace PieceSet

def new (pieceCount : ℕ) : PieceSet := ⟨List.replicate pieceCount false⟩

def insert (s : PieceSet) (piece : PieceIndex) : Except Error PieceSet :=
  if (piece.get : ℕ) < s.complete.length then .ok ⟨s.complete.set piece.get true⟩
  else .error (.pieceOutOfRange piece s.complete.length)

def contains (s : PieceSet) (piece : PieceIndex) : Bool := s.complete[(piece.get : ℕ)]?.getD false

/-- Positions of the set flags, in order. -/
def flagged (flags : List Bool) : List ℕ :=
  flags.zipIdx.filterMap fun p => if p.1 then some p.2 else none

def indexes (s : PieceSet) : List PieceIndex := (flagged s.complete).map PieceIndex.ofPosition

theorem mem_flagged {flags : List Bool} {i : ℕ} : i ∈ flagged flags ↔ flags[i]? = some true := by
  simp only [flagged, List.mem_filterMap, Prod.exists, List.mem_zipIdx_iff_getElem?]
  constructor
  · rintro ⟨b, j, hj, h⟩
    cases b <;> simp_all
  · intro h
    exact ⟨true, i, h, rfl⟩

end PieceSet

/-- What a backing store can prove survived a previous process. -/
structure Recovered where
  storedBytes : ℕ
  completedPieces : List PieceIndex
  deriving DecidableEq

end Rustorr
