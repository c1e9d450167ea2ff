import Rustorr.Cache.Extents
import Rustorr.Cache.FileSystem
import Rustorr.Lib.Text
import Mathlib.Data.List.AList

/-! The manifest of a torrent's directory: the text `manifest` writes and what
`restore` proves from a text and a directory (`disk.rs`). -/

namespace Rustorr

namespace Extents

/-- One step of `from_spans`: a span that overlaps an earlier one is refused. -/
def addSpan (x : Extents) (span : U64 × U64) : Option Extents := do
  let range ← (ByteRange.new span.1 span.2).toOption
  let (added, y) := x.insert range
  guard (added = (span.2 : ℕ) - span.1)
  return y

def fromSpans (spans : List (U64 × U64)) : Option Extents := spans.foldlM addSpan empty

end Extents

/-- A torrent's record in the disk store. -/
structure Disk.Torrent where
  layout : TorrentLayout
  dir : List Char
  extents : List Extents
  completed : List Bool
  length_extents : extents.length = layout.fileCount
  length_completed : completed.length = layout.pieceCount

namespace Disk

open Text

def joinedNumbers (values : List ℕ) : List Char := join ',' (values.map decimal)

/-- The file lengths the manifest lists: positions are taken `as u32`. -/
def listedLengths (layout : TorrentLayout) : List ℕ :=
  (List.range layout.fileCount).filterMap fun index =>
    layout.fileLength (FileIndex.ofPosition index)

def spanText (span : ℕ × ℕ) : List Char := decimal span.1 ++ '-' :: decimal span.2

def extentsKey (index : ℕ) : List Char := "extents.".toList ++ decimal index

def spansText (x : Extents) : List Char := join ',' (x.spans.map spanText)

/-- The entries of the manifest as keys and values, in the order of its lines. -/
def manifestEntries (torrent : Torrent) : List (List Char × List Char) :=
  [("version".toList, "1".toList),
   ("piece_length".toList, decimal torrent.layout.pieceLength),
   ("files".toList, joinedNumbers (listedLengths torrent.layout)),
   ("pieces".toList, joinedNumbers (PieceSet.flagged torrent.completed))] ++
  torrent.extents.zipIdx.map fun p => (extentsKey p.2, spansText p.1)

def manifest (torrent : Torrent) : List Char :=
  unlines ((manifestEntries torrent).map fun p => p.1 ++ '=' :: p.2)

abbrev Values : Type := AList fun _ : List Char => List Char

def addLine (values : Values) (line : List Char) : Option Values := do
  let (key, value) ← splitOnce '=' line
  guard (key ∉ values)
  return values.insert key value

def parseValues (text : List Char) : Option Values := (lines text).foldlM addLine ∅

/-- `values.remove(key)?`. -/
def Values.remove (values : Values) (key : List Char) : Option (List Char × Values) :=
  (values.lookup key).map fun value => (value, values.erase key)

def parseNumbers (value : List Char) : Option (List U64) :=
  if value = [] then some [] else (value.splitOn ',').mapM parseU64

def parseSpan (span : List Char) : Option (U64 × U64) := do
  let (start, end_) ← splitOnce '-' span
  return (← parseU64 start, ← parseU64 end_)

def parseSpans (raw : List Char) : Option (List (U64 × U64)) :=
  if raw = [] then some [] else (raw.splitOn ',').mapM parseSpan

/-- A completed piece is in range and listed once. -/
def markPiece (completed : List Bool) (piece : U64) : Option (List Bool) :=
  match completed[(piece : ℕ)]? with
  | some false => some (completed.set piece true)
  | _ => none

/-- `fs::metadata(..).ok()?.len()` of a data file. -/
def fileLen (dir : Dir) (faults : Faults) (index : ℕ) : Option ℕ :=
  if faults.metadata index then none else (dir.files index).map List.length

/-- The spans end within the data file on disk; a file without spans may be missing. -/
def checkFile (dir : Dir) (faults : Faults) (index : ℕ) (x : Extents) : Option Unit :=
  if x.total > 0 then do
    let len ← fileLen dir faults index
    guard (∀ span ∈ x.spans, span.2 ≤ len)
  else some ()

/-- The local variables of `restore` while it reads the files. -/
structure Progress where
  values : Values
  extents : List Extents
  stored : ℕ

def restoreFile (dir : Dir) (layout : TorrentLayout) (faults : Faults) (st : Progress)
    (index : ℕ) : Option Progress := do
  let (raw, values) ← st.values.remove (extentsKey index)
  let spans ← parseSpans raw
  let x ← Extents.fromSpans spans
  let length ← layout.fileLength (FileIndex.ofPosition index)
  guard (∀ span ∈ x.spans, span.2 ≤ length)
  checkFile dir faults index x
  let stored ← U64.checkedAdd st.stored x.total
  return ⟨values, st.extents ++ [x], stored⟩

/-- `fs::read_to_string` of the manifest. -/
def readManifest (dir : Option Dir) (faults : Faults) : Option (Dir × List Char) := do
  let dir ← dir
  guard (faults.readManifest = false)
  let text ← dir.manifest
  return (dir, text)

def restore (dir : Option Dir) (layout : TorrentLayout) (faults : Faults) :
    Option (List Extents × List Bool × ℕ) := do
  let (dir, text) ← readManifest dir faults
  let values ← parseValues text
  let (version, values) ← values.remove "version".toList
  guard (version = "1".toList)
  let (pieceLength, values) ← values.remove "piece_length".toList
  let pieceLength ← parseU64 pieceLength
  guard ((pieceLength : ℕ) = layout.pieceLength)
  let (files, values) ← values.remove "files".toList
  let files ← parseNumbers files
  guard (files.map Fin.val = listedLengths layout)
  let (pieces, values) ← values.remove "pieces".toList
  let pieces ← parseNumbers pieces
  let completed ← pieces.foldlM markPiece (List.replicate layout.pieceCount false)
  let st ← (List.range layout.fileCount).foldlM (restoreFile dir layout faults) ⟨values, [], 0⟩
  guard (st.values.entries = [])
  return (st.extents, completed, st.stored)

end Disk

end Rustorr
