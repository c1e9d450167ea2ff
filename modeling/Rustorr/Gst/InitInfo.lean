import Rustorr.Lib.BigEndian
import Rustorr.Lib.Buffer
import Rustorr.Lib.Percent
import Rustorr.Lib.Text

/-! `mp4init.rs`: codecs, size and range of a variant, read from an init segment. Every read is at a
position of the data and may be a fault. -/

namespace Rustorr.InitInfo

open BigEndian Buffer Text

def fourCc (text : String) : List UInt8 := text.toList.map fun ch => UInt8.ofNat ch.toNat

/-! ### The code -/

/-- `Box`, by its positions. -/
structure Item where
  kind : List UInt8
  payloadStart : ℕ
  end_ : ℕ
  deriving DecidableEq, Repr

structure Track where
  video : Bool
  codec : List Char
  videoRange : List Char
  width : ℕ
  height : ℕ
  deriving DecidableEq, Repr

/-- `VariantInfo`; its frame rate is not read here. -/
structure VariantInfo where
  codecs : List Char := []
  videoRange : List Char := []
  width : ℕ := 0
  height : ℕ := 0
  deriving DecidableEq, Repr

def be16 : List UInt8 → ℕ
  | a :: b :: _ => a.toNat * 2 ^ 8 + b.toNat
  | _ => 0

def u32At (data : List UInt8) (offset : ℕ) : Checked UInt32 := (slice data offset (offset + 4)).map be32

def u16At (data : List UInt8) (offset : ℕ) : Checked ℕ := (slice data offset (offset + 2)).map be16

/-- The size that a box says it has, which may stand after its type, and its header. -/
def boxSize (data : List UInt8) (cursor stop : ℕ) (size32 : UInt32) : Checked (Option (ℕ × ℕ)) :=
  if size32 = 1 then
    if cursor + 16 > stop then .ok none
    else (slice data (cursor + 8) (cursor + 16)).map fun bytes => some (be64 bytes, 16)
  else if size32 = 0 then .ok (some (stop - cursor, 8))
  else .ok (some (size32.toNat, 8))

/-- `read_box`: the box at a position, and where the next one is. -/
def readBox (data : List UInt8) (cursor stop : ℕ) : Checked (Option (Item × ℕ)) :=
  if stop > data.length ∨ cursor + 8 > stop then .ok none
  else do
    let size32 ← u32At data cursor
    let kind ← slice data (cursor + 4) (cursor + 8)
    match ← boxSize data cursor stop size32 with
    | none => .ok none
    | some (size, header) =>
      if size < header ∨ size > stop - cursor then .ok none
      else .ok (some (⟨kind, cursor + header, cursor + size⟩, cursor + size))

def findChildUpTo (data kind : List UInt8) (stop : ℕ) : ℕ → ℕ → Checked (Option Item)
  | 0, _ => .ok none
  | fuel + 1, cursor => do
    match ← readBox data cursor stop with
    | none => .ok none
    | some (item, next) =>
      if item.kind = kind then .ok (some item) else findChildUpTo data kind stop fuel next

/-- `find_child`: every box takes at least its header. -/
def findChild (data : List UInt8) (start stop : ℕ) (kind : String) : Checked (Option Item) :=
  findChildUpTo data (fourCc kind) stop data.length start

/-- `{:02X}`. -/
def hex2 (b : UInt8) : List Char := [Percent.hexDigit (b.toNat / 16), Percent.hexDigit (b.toNat % 16)]

/-- `{:02}`. -/
def decimal2 (n : ℕ) : List Char := List.replicate (2 - (decimal n).length) '0' ++ decimal n

def reverseBits (n : UInt32) : UInt32 := ⟨n.toBitVec.reverse⟩

/-- `last`, counted down over the bytes that are zero. -/
def lastSet (data : List UInt8) : ℕ → Checked ℕ
  | 0 => .ok 0
  | last + 1 =>
    if last + 1 ≥ 6 then do
      if (← get data (last + 1)) = 0 then lastSet data last else .ok (last + 1)
    else .ok (last + 1)

def hevcCodec (sampleEntry : List Char) (data : List UInt8) : Checked (List Char) :=
  if data.length < 13 then .ok []
  else do
    let profileByte ← get data 1
    let space ← get ["", "A", "B", "C"] (profileByte >>> 6).toNat
    let b₂ ← get data 2
    let b₃ ← get data 3
    let b₄ ← get data 4
    let b₅ ← get data 5
    let compatibility := reverseBits (be32 [b₂, b₃, b₄, b₅])
    let tier := if profileByte &&& 0x20 ≠ 0 then 'H' else 'L'
    let level ← get data 12
    let result := sampleEntry ++ '.' :: (space.toList ++ (decimal (profileByte &&& 0x1f).toNat ++
      '.' :: (decimal compatibility.toNat ++ '.' :: tier :: decimal level.toNat)))
    let last ← lastSet data 11
    if last ≥ 6 then do
      let constraints ← slice data 6 (last + 1)
      .ok (result ++ constraints.flatMap fun byte => '.' :: hex2 byte)
    else .ok result

def av1Codec (data : List UInt8) : Checked (List Char) :=
  if data.length < 3 then .ok []
  else do
    if (← get data 0) &&& 0x80 = 0 then .ok []
    else do
      let b₁ ← get data 1
      let b₂ ← get data 2
      let profile := b₁ >>> 5
      let tier := if b₂ &&& 0x80 ≠ 0 then 'H' else 'M'
      let depth := if b₂ &&& 0x40 = 0 then 8 else if profile = 2 ∧ b₂ &&& 0x20 ≠ 0 then 12 else 10
      .ok ("av01.".toList ++ (decimal profile.toNat ++
        '.' :: (decimal2 (b₁ &&& 0x1f).toNat ++ tier :: '.' :: decimal2 depth)))

/-- The data begins with a version and flags. -/
def isVersioned (data : List UInt8) : Checked Bool :=
  if data.length ≥ 7 then do
    if (← get data 0) ≤ 1 then (slice data 1 4).map fun bytes => decide (bytes = [0, 0, 0]) else .ok false
  else .ok false

def vp9Codec (data : List UInt8) : Checked (List Char) := do
  let offset := if ← isVersioned data then 4 else 0
  if data.length < offset + 3 then .ok []
  else do
    let depth ← get data (offset + 2)
    let depth := if depth > 16 then depth >>> 4 else depth
    let profile ← get data offset
    let level ← get data (offset + 1)
    .ok ("vp09.".toList ++ (decimal2 profile.toNat ++
      '.' :: (decimal2 level.toNat ++ '.' :: decimal2 depth.toNat)))

/-- `descriptor_length`: a length in up to four bytes, and where it ends. -/
def descriptorLength (data : List UInt8) : ℕ → ℕ → ℕ → Option (ℕ × ℕ)
  | 0, _, _ => none
  | n + 1, length, cursor =>
    match data[cursor]? with
    | none => none
    | some value =>
      let length := length * 2 ^ 7 + (value &&& 0x7f).toNat
      if value &&& 0x80 = 0 then some (length, cursor + 1) else descriptorLength data n length (cursor + 1)

/-- The object type at the start of a configuration, in 5 bits or in 11. -/
def audioObject (data : List UInt8) (cursor : ℕ) : Checked ℕ := do
  let first ← get data cursor
  if (first >>> 3).toNat = 31 then do
    let second ← get data (cursor + 1)
    .ok (32 + (first &&& 7).toNat * 2 ^ 3 + (second >>> 5).toNat)
  else .ok (first >>> 3).toNat

/-- The loop of `aac_codec`, with the rounds that are left. -/
def aacCodecFrom (data : List UInt8) : ℕ → ℕ → Checked (List Char)
  | 0, _ => .ok []
  | n + 1, index => do
    if (← get data index) ≠ 0x05 then aacCodecFrom data n (index + 1)
    else
      match descriptorLength data 4 0 (index + 1) with
      | none => aacCodecFrom data n (index + 1)
      | some (length, cursor) =>
        if length < 2 ∨ cursor + length > data.length then aacCodecFrom data n (index + 1)
        else (audioObject data cursor).map fun object => "mp4a.40.".toList ++ decimal object

def aacCodec (data : List UInt8) : Checked (List Char) :=
  let start := min data.length 4
  aacCodecFrom data (data.length - 2 - start) start

def videoRange (data : List UInt8) : Checked (List Char) :=
  if data.length < 10 then .ok []
  else do
    let name ← slice data 0 4
    if name ≠ fourCc "nclx" ∧ name ≠ fourCc "nclc" then .ok []
    else do
      let transfer ← u16At data 6
      .ok (if transfer = 16 then "PQ".toList
        else if transfer = 18 then "HLG".toList
        else if transfer ∈ [1, 4, 5, 6, 7, 8, 13, 14, 15] then "SDR".toList
        else [])

/-- The box a sample entry has its configuration in. -/
def configType (kind : List UInt8) : Option String :=
  if kind = fourCc "avc1" ∨ kind = fourCc "avc3" then some "avcC"
  else if kind = fourCc "hvc1" ∨ kind = fourCc "hev1" then some "hvcC"
  else if kind = fourCc "av01" then some "av1C"
  else if kind = fourCc "vp09" then some "vpcC"
  else none

/-- `from_utf8_lossy`, of the types that are looked for. -/
def sampleEntryText (kind : List UInt8) : List Char := kind.map fun b => Char.ofNat b.toNat

def videoCodec (kind payload : List UInt8) : Checked (List Char) :=
  if (kind = fourCc "avc1" ∨ kind = fourCc "avc3") ∧ payload.length ≥ 4 then do
    let b₁ ← get payload 1
    let b₂ ← get payload 2
    let b₃ ← get payload 3
    .ok (sampleEntryText kind ++ '.' :: (hex2 b₁ ++ (hex2 b₂ ++ hex2 b₃)))
  else if kind = fourCc "hvc1" ∨ kind = fourCc "hev1" then hevcCodec (sampleEntryText kind) payload
  else if kind = fourCc "av01" then av1Codec payload
  else if kind = fourCc "vp09" then vp9Codec payload
  else .ok []

/-- The range that a sample entry says in its `colr`, if it has one. -/
def entryRange (data : List UInt8) (start stop : ℕ) : Checked (List Char) := do
  match ← findChild data start stop "colr" with
  | none => .ok []
  | some colr => do videoRange (← slice data colr.payloadStart colr.end_)

def videoEntry (data : List UInt8) (entry : Item) : Checked (Option Track) :=
  let fixedEnd := entry.payloadStart + 78
  if fixedEnd > entry.end_ then .ok none
  else match configType entry.kind with
    | none => .ok none
    | some kind => do
      match ← findChild data fixedEnd entry.end_ kind with
      | none => .ok none
      | some config => do
        let payload ← slice data config.payloadStart config.end_
        let codec ← videoCodec entry.kind payload
        if codec = [] then .ok none
        else do
          let range ← entryRange data fixedEnd entry.end_
          let width ← u16At data (entry.payloadStart + 24)
          let height ← u16At data (entry.payloadStart + 26)
          .ok (some ⟨true, codec, range, width, height⟩)

def audioEntry (data : List UInt8) (entry : Item) : Checked (Option Track) :=
  if entry.kind ≠ fourCc "mp4a" ∨ entry.payloadStart + 28 > entry.end_ then .ok none
  else do
    let version ← u16At data (entry.payloadStart + 8)
    let childStart := if version = 1 then entry.payloadStart + 44
      else if version = 2 then entry.payloadStart + 64 else entry.payloadStart + 28
    match ← findChild data childStart entry.end_ "esds" with
    | none => .ok none
    | some esds => do
      let codec ← aacCodec (← slice data esds.payloadStart esds.end_)
      .ok (if codec = [] then none else some ⟨false, codec, [], 0, 0⟩)

def trackEntry (data : List UInt8) (video : Bool) (entry : Item) : Checked (Option Track) :=
  if video then videoEntry data entry else audioEntry data entry

/-- The sample entries of a `stsd`, up to the first that says something. -/
def readEntries (data : List UInt8) (video : Bool) (stop : ℕ) : ℕ → ℕ → Checked (Option Track)
  | 0, _ => .ok none
  | n + 1, cursor => do
    match ← readBox data cursor stop with
    | none => .ok none
    | some (entry, next) =>
      match ← trackEntry data video entry with
      | some track => .ok (some track)
      | none => readEntries data video stop n next

def readTrack (data : List UInt8) (trak : Item) : Checked (Option Track) := do
  match ← findChild data trak.payloadStart trak.end_ "mdia" with
  | none => .ok none
  | some mdia =>
    match ← findChild data mdia.payloadStart mdia.end_ "hdlr" with
    | none => .ok none
    | some hdlr =>
      if hdlr.payloadStart + 12 > hdlr.end_ then .ok none
      else do
        let handler ← slice data (hdlr.payloadStart + 8) (hdlr.payloadStart + 12)
        let video := decide (handler = fourCc "vide")
        if !video ∧ handler ≠ fourCc "soun" then .ok none
        else
          match ← findChild data mdia.payloadStart mdia.end_ "minf" with
          | none => .ok none
          | some minf =>
            match ← findChild data minf.payloadStart minf.end_ "stbl" with
            | none => .ok none
            | some stbl =>
              match ← findChild data stbl.payloadStart stbl.end_ "stsd" with
              | none => .ok none
              | some stsd =>
                if stsd.payloadStart + 8 > stsd.end_ then .ok none
                else do
                  let count ← u32At data (stsd.payloadStart + 4)
                  readEntries data video stsd.end_ count.toNat (stsd.payloadStart + 8)

/-- What a track adds to what is known of the variant. -/
def VariantInfo.with (result : VariantInfo) (track : Track) : VariantInfo :=
  if track.video ∧ result.codecs = [] then ⟨track.codec, track.videoRange, track.width, track.height⟩
  else if !track.video then
    if result.codecs = [] then { result with codecs := track.codec }
    else if ¬"mp4a.".toList <:+: result.codecs then { result with codecs := result.codecs ++ ',' :: track.codec }
    else result
  else result

/-- The tracks of a `moov`, one after the other. -/
def readTracks (data : List UInt8) (stop : ℕ) : ℕ → ℕ → VariantInfo → Checked VariantInfo
  | 0, _, result => .ok result
  | fuel + 1, cursor, result => do
    match ← readBox data cursor stop with
    | none => .ok result
    | some (item, next) =>
      if item.kind ≠ fourCc "trak" then readTracks data stop fuel next result
      else
        match ← readTrack data item with
        | none => readTracks data stop fuel next result
        | some track =>
          if track.codec = [] then readTracks data stop fuel next result
          else readTracks data stop fuel next (result.with track)

/-- `readMP4InitInfo`. -/
def read (data : List UInt8) : Checked (Option VariantInfo) :=
  if data.length < 8 then .ok none
  else do
    match ← findChild data 0 data.length "moov" with
    | none => .ok none
    | some moov => do
      let result ← readTracks data moov.end_ data.length moov.payloadStart {}
      .ok (if result.codecs = [] then none else some result)

end Rustorr.InitInfo
