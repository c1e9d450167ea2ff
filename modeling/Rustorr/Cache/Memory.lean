import Rustorr.Cache.ByteMap
import Rustorr.Cache.FileSystem
import Mathlib.Data.List.AList

/-! The memory store (`memory.rs`): each file is a record of its spans and the
blocks that writes have touched. -/

namespace Rustorr

open Cache (Error)

namespace Memory

def blockSize : ℕ := 16 * 1024

abbrev Blocks : Type := AList fun _ : ℕ => List UInt8

structure File where
  extents : Extents
  blocks : Blocks

def File.empty : File := ⟨Extents.empty, ∅⟩

structure Torrent where
  layout : TorrentLayout
  files : List File
  length_files : files.length = layout.fileCount

/-- How much of the block at `position` a transfer of `len` bytes takes. -/
def count (position len : ℕ) : ℕ := min len (blockSize - position % blockSize)

theorem count_pos (position : ℕ) {len : ℕ} (h : 0 < len) : 0 < count position len := by
  have := Nat.mod_lt position (show 0 < blockSize by decide)
  rw [count]
  omega

theorem count_le (position len : ℕ) : count position len ≤ len := min_le_left _ _

/-- The loop of `write`: one block after another, allocated on demand. -/
def writeBlocks (blocks : Blocks) (position : ℕ) (rest : List UInt8) : Blocks :=
  if rest = [] then blocks
  else
    let within := position % blockSize
    let n := count position rest.length
    let block := (blocks.lookup (position / blockSize)).getD (List.replicate blockSize 0)
    writeBlocks (blocks.insert (position / blockSize) (overwrite block within (rest.take n)))
      (position + n) (rest.drop n)
termination_by rest.length
decreasing_by
  have := count_pos position (List.length_pos_iff.mpr ‹_›)
  have := List.length_pos_iff.mpr ‹_›
  simp only [List.length_drop]
  omega

/-- The loop of `read`; a missing block ends it. -/
def readBlocks (blocks : Blocks) (position len : ℕ) : Option (List UInt8) :=
  if len = 0 then some []
  else
    let within := position % blockSize
    let n := count position len
    do
      let block ← blocks.lookup (position / blockSize)
      let rest ← readBlocks blocks (position + n) (len - n)
      return (block.drop within).take n ++ rest
termination_by len
decreasing_by
  have := count_pos position (Nat.pos_of_ne_zero ‹_›)
  omega

end Memory

structure MemoryStore where
  torrents : AList fun _ : InfoHash => Memory.Torrent

namespace MemoryStore

open Memory

def new : MemoryStore := ⟨∅⟩

def torrent (s : MemoryStore) (torrent : InfoHash) : Except Error Torrent :=
  match s.torrents.lookup torrent with
  | some t => .ok t
  | none => .error (.unknownTorrent torrent)

def openTorrent (torrent : InfoHash) (layout : TorrentLayout) (s : MemoryStore) :
    Except Error Recovered × MemoryStore :=
  (.ok ⟨0, []⟩, ⟨s.torrents.insert torrent
    ⟨layout, List.replicate layout.fileCount File.empty, List.length_replicate⟩⟩)

/-- `files[file]`, which a checked range keeps within the list. -/
def fileOf (t : Torrent) (file : FileIndex) : File := t.files.getD file.zeroBased File.empty

def setFile (t : Torrent) (file : FileIndex) (stored : File) : Torrent :=
  { t with
    files := t.files.set file.zeroBased stored
    length_files := by rw [List.length_set, t.length_files] }

def write (torrent : InfoHash) (file : FileIndex) (offset : U64) (data : List UInt8)
    (s : MemoryStore) : Except Error ℕ × MemoryStore :=
  match s.torrent torrent with
  | .error e => (.error e, s)
  | .ok t => match t.layout.checkRange torrent file offset data.length with
    | .error e => (.error e, s)
    | .ok range =>
      let stored := fileOf t file
      let blocks := writeBlocks stored.blocks offset data
      let (added, extents) := stored.extents.insert range
      (.ok added, ⟨s.torrents.insert torrent (setFile t file ⟨extents, blocks⟩)⟩)

def read (torrent : InfoHash) (file : FileIndex) (offset : U64) (len : ℕ) (s : MemoryStore) :
    Except Error (List UInt8) :=
  match s.torrent torrent with
  | .error e => .error e
  | .ok t => match t.layout.checkRange torrent file offset len with
    | .error e => .error e
    | .ok range =>
      let stored := fileOf t file
      if !stored.extents.covers range then .error (.missing torrent file range)
      else match readBlocks stored.blocks offset len with
        | none => .error (.missing torrent file range)
        | some data => .ok data

def remove (torrent : InfoHash) (s : MemoryStore) : Except Error Unit × MemoryStore :=
  (.ok (), ⟨s.torrents.erase torrent⟩)

/-- Nothing is durable here: `piece_completed` is the trait's default. -/
def pieceStore : PieceStore Unit MemoryStore where
  openTorrent _ := openTorrent
  write _ := write
  read _ := read
  remove _ := remove
  pieceCompleted _ _ _ s := (.ok (), s)

end MemoryStore

namespace Memory

/-! ### Blocks as a map from bytes to values -/

def byteAt (blocks : Blocks) (pos : ℕ) : Option UInt8 :=
  (blocks.lookup (pos / blockSize)).bind fun block => block[pos % blockSize]?

/-- Every allocated block has the full size. -/
def Whole (blocks : Blocks) : Prop :=
  ∀ i block, blocks.lookup i = some block → block.length = blockSize

theorem whole_empty : Whole ∅ := by simp [Whole]

theorem same_block {position pos : ℕ} (h1 : position ≤ pos)
    (h2 : pos < position + (blockSize - position % blockSize)) :
    pos / blockSize = position / blockSize ∧
      pos % blockSize = position % blockSize + (pos - position) := by
  simp only [blockSize] at *
  omega

/-- Writing within one block. -/
theorem byteAt_insert {blocks : Blocks} (hw : Whole blocks) {position : ℕ} {part : List UInt8}
    (hpart : part ≠ []) (hfit : position % blockSize + part.length ≤ blockSize) :
    let block := (blocks.lookup (position / blockSize)).getD (List.replicate blockSize 0)
    let blocks' := blocks.insert (position / blockSize)
      (overwrite block (position % blockSize) part)
    Whole blocks' ∧
      (∀ pos, position ≤ pos → pos < position + part.length →
        byteAt blocks' pos = part[pos - position]?) ∧
      ∀ pos v, ¬(position ≤ pos ∧ pos < position + part.length) → byteAt blocks pos = some v →
        byteAt blocks' pos = some v := by
  intro block blocks'
  have hblock : block.length = blockSize := by
    cases h : blocks.lookup (position / blockSize) with
    | none => simp [block, h]
    | some b => simpa [block, h] using hw _ b h
  refine ⟨fun i b hb => ?_, fun pos h1 h2 => ?_, fun pos v hout hv => ?_⟩
  · by_cases hi : i = position / blockSize
    · subst hi
      rw [AList.lookup_insert, Option.some.injEq] at hb
      rw [← hb, length_overwrite, hblock]
      omega
    · rw [AList.lookup_insert_ne hi] at hb
      exact hw i b hb
  · obtain ⟨hquot, hmod⟩ := same_block h1 (by omega)
    rw [byteAt, hquot, AList.lookup_insert, Option.bind_some, getElem?_overwrite _ _ _ _ hpart,
      if_pos (by omega)]
    congr 1
    omega
  · obtain ⟨b, hb, hbv⟩ := Option.bind_eq_some_iff.mp hv
    by_cases hi : pos / blockSize = position / blockSize
    · have hdiv := Nat.div_add_mod position blockSize
      have hmod := Nat.div_add_mod pos blockSize
      rw [hi] at hmod hb
      have hsame : block = b := by simp [block, hb]
      have hlt := (List.getElem?_eq_some_iff.mp hbv).1
      rw [byteAt, hi, AList.lookup_insert, Option.bind_some, getElem?_overwrite _ _ _ _ hpart,
        if_neg (by omega), hsame, if_pos hlt, hbv]
    · rw [byteAt, AList.lookup_insert_ne hi]
      exact hv

/-- Written bytes take their new value and every other value stays. -/
theorem writeBlocks_spec {blocks : Blocks} (hw : Whole blocks) (position : ℕ)
    (rest : List UInt8) :
    Whole (writeBlocks blocks position rest) ∧
      (∀ pos, position ≤ pos → pos < position + rest.length →
        byteAt (writeBlocks blocks position rest) pos = rest[pos - position]?) ∧
      ∀ pos v, ¬(position ≤ pos ∧ pos < position + rest.length) → byteAt blocks pos = some v →
        byteAt (writeBlocks blocks position rest) pos = some v := by
  induction blocks, position, rest using writeBlocks.induct with
  | case1 blocks position =>
    rw [writeBlocks, if_pos rfl]
    exact ⟨hw, fun pos h1 h2 => absurd h2 (by simpa using h1), fun _ _ _ hv => hv⟩
  | case2 blocks position rest hne within n block ih =>
    have hn : 0 < n := count_pos _ (List.length_pos_iff.mpr hne)
    have hle : n ≤ rest.length := count_le _ _
    have htake : (rest.take n).length = n := by simp [hle]
    have hpart : rest.take n ≠ [] := List.length_pos_iff.mp (by rw [htake]; exact hn)
    have hfit : position % blockSize + (rest.take n).length ≤ blockSize := by
      have := Nat.mod_lt position (show 0 < blockSize by decide)
      have : n ≤ blockSize - position % blockSize := min_le_right _ _
      omega
    obtain ⟨hw', hnew, hold⟩ := byteAt_insert hw hpart hfit
    obtain ⟨hw'', hnew', hold'⟩ := ih hw'
    have hunfold : writeBlocks blocks position rest =
        writeBlocks (blocks.insert (position / blockSize) (overwrite block within (rest.take n)))
          (position + n) (rest.drop n) := by
      rw [writeBlocks, if_neg hne]
    have hdrop : (rest.drop n).length = rest.length - n := List.length_drop
    rw [htake] at hnew hold
    rw [hunfold]
    refine ⟨hw'', fun pos h1 h2 => ?_, fun pos v hout hv => ?_⟩
    · by_cases hpos : position + n ≤ pos
      · rw [hnew' pos hpos (by omega), List.getElem?_drop]
        congr 1
        omega
      · have hfirst := hnew pos h1 (by omega)
        rw [List.getElem?_take_of_lt (by omega)] at hfirst
        rw [List.getElem?_eq_getElem (show pos - position < rest.length by omega)] at hfirst ⊢
        exact hold' pos _ (by omega) hfirst
    · exact hold' pos v (by omega) (hold pos v (by omega) hv)

/-- Where every byte has a value, `read` returns these values. -/
theorem readBlocks_spec {blocks : Blocks} {value : ℕ → UInt8} (position len : ℕ)
    (h : ∀ i < len, byteAt blocks (position + i) = some (value (position + i))) (hw : Whole blocks) :
    readBlocks blocks position len = some ((List.range' position len).map value) := by
  induction position, len using readBlocks.induct with
  | case1 position => rw [readBlocks, if_pos rfl]; rfl
  | case2 position len hne n ih =>
    have hn : 0 < n := count_pos _ (Nat.pos_of_ne_zero hne)
    have hle : n ≤ len := count_le _ _
    have hfit : n ≤ blockSize - position % blockSize := min_le_right _ _
    have hrest := ih fun i hi => by
      have := h (n + i) (by omega)
      rwa [← Nat.add_assoc] at this
    have hzero := h 0 (by omega)
    obtain ⟨block, hblock, -⟩ := Option.bind_eq_some_iff.mp hzero
    rw [Nat.add_zero] at hblock
    have hlen := hw _ block hblock
    have hpart : (block.drop (position % blockSize)).take n = (List.range' position n).map value := by
      refine List.ext_getElem? fun i => ?_
      by_cases hi : i < n
      · obtain ⟨hquot, hmod⟩ := same_block (Nat.le_add_right position i) (by omega)
        rw [Nat.add_sub_cancel_left] at hmod
        have hbyte := h i (by omega)
        rw [byteAt, hquot, hblock, Option.bind_some, hmod] at hbyte
        rw [List.getElem?_take_of_lt hi, List.getElem?_drop, hbyte, List.getElem?_map,
          List.getElem?_range' hi]
        simp
      · rw [List.getElem?_eq_none (by simp; omega), List.getElem?_eq_none (by simp; omega)]
    rw [readBlocks, if_neg hne]
    change ((blocks.lookup (position / blockSize)).bind fun block =>
      (readBlocks blocks (position + n) (len - n)).bind fun rest =>
        some ((block.drop (position % blockSize)).take n ++ rest)) = _
    rw [hblock, Option.bind_some, hrest, Option.bind_some, hpart, ← List.map_append,
      List.range'_append_1, Nat.add_sub_cancel' hle]

theorem readBlocks_eq {blocks : Blocks} (hw : Whole blocks) {position : ℕ} {data : List UInt8}
    (h : ∀ i < data.length, byteAt blocks (position + i) = data[i]?) :
    readBlocks blocks position data.length = some data := by
  have hvalue : (List.range' position data.length).map (fun pos => data.getD (pos - position) 0) =
      data := List.ext_getElem (by simp) fun i h1 h2 => by simp [h2]
  rw [readBlocks_spec position data.length (fun i hi => ?_) hw, hvalue]
  rw [h i hi, Nat.add_sub_cancel_left, List.getD_eq_getElem?_getD, List.getElem?_eq_getElem hi,
    Option.getD_some]

end Memory

end Rustorr
