import Rustorr.Gst.Mp4.Boxes

/-! `mp4box.rs`: the tracks of an init segment, and the samples of a `moof`. -/

namespace Rustorr.Mp4

open BigEndian Except

namespace TfhdFlag

def baseDataOffset : UInt32 := 0x000001
def sampleDescriptionIndex : UInt32 := 0x000002
def defaultDuration : UInt32 := 0x000008
def defaultSize : UInt32 := 0x000010
def defaultFlags : UInt32 := 0x000020
def durationIsEmpty : UInt32 := 0x010000
def defaultBaseIsMoof : UInt32 := 0x020000

end TfhdFlag

namespace TrunFlag

def dataOffset : UInt32 := 0x000001
def firstSampleFlags : UInt32 := 0x000004
def duration : UInt32 := 0x000100
def size : UInt32 := 0x000200
def flags : UInt32 := 0x000400
def compositionOffset : UInt32 := 0x000800

end TrunFlag

def maxTrunSamples : ℕ := 1000000

def canonicalTfhdSize : ℕ := 20

/-- A number in hexadecimal, six digits at least (`{:06x}`). -/
def hex6 (n : UInt32) : String :=
  let digits := Nat.toDigits 16 n.toNat
  String.ofList (List.replicate (6 - digits.length) '0' ++ digits)

structure Trex where
  descriptionIndex : UInt32 := 0
  duration : UInt32 := 0
  size : UInt32 := 0
  flags : UInt32 := 0
  deriving DecidableEq, Repr

structure TrackIds where
  id : UInt32 := 0
  timescale : UInt32 := 0
  trex : Trex := {}
  deriving DecidableEq, Repr

structure Tfhd where
  trackId : UInt32 := 0
  sampleDescriptionIndex : Option UInt32 := none
  defaultDuration : UInt32 := 0
  defaultSize : UInt32 := 0
  defaultFlags : Option UInt32 := none
  deriving DecidableEq, Repr

structure Sample where
  duration : UInt32
  size : UInt32
  flags : UInt32
  compositionTimeOffsetRaw : UInt32
  deriving DecidableEq, Repr

structure Run where
  sourceDataOffset : Option ℤ := none
  samples : List Sample := []
  version : UInt8 := 0
  hasCompositionTimeOffsets : Bool := false
  duration : ℕ := 0
  dataSize : ℕ := 0
  payloadOffset : ℕ := 0
  outputOffset : ℕ := 0
  startsWithSync : Bool := false
  hasInferredDuration : Bool := false
  deriving DecidableEq, Repr

structure Fragment where
  trackId : UInt32 := 0
  timescale : UInt32 := 0
  decodeTime : ℕ := 0
  duration : ℕ := 0
  startsWithSync : Bool := false
  sampleDescriptionIndex : UInt32 := 0
  tfhd : List UInt8 := List.replicate canonicalTfhdSize 0
  runs : List Run := []
  payloadStart : ℕ := 0
  payloadLen : ℕ := 0
  hasInferredDuration : Bool := false
  deriving DecidableEq, Repr

/-- `decode_time + duration`, in 64 bits. -/
def Fragment.endTime (f : Fragment) : ℕ := (f.decodeTime + f.duration) % 2 ^ 64

/-- `checked_add` on 64 bits. -/
def add64 {ε : Type} (a b : ℕ) (e : ε) : Except ε ℕ :=
  if a + b < 2 ^ 64 then .ok (a + b) else .error e

def has (flags flag : UInt32) : Bool := flags &&& flag != 0

/-- `as i32`. -/
def toI32 (n : UInt32) : ℤ := if n.toNat < 2 ^ 31 then n.toNat else n.toNat - 2 ^ 32

def isSyncSample (flags : UInt32) : Bool :=
  let dependsOn := (flags >>> 24) &&& 0x03
  flags &&& 0x00010000 == 0 && dependsOn != 1

def parseTfhd (data : List UInt8) (header : ℕ) : Except String Tfhd := do
  failIf (data.length < header + 8) "tfhd is too small"
  let body := data.drop header
  let versionFlags := be32 body
  let version := versionFlags >>> 24
  let flags := versionFlags &&& 0x00ffffff
  failIf (version ≠ 0) s!"unsupported tfhd version={version}"
  let known := TfhdFlag.baseDataOffset ||| TfhdFlag.sampleDescriptionIndex |||
    TfhdFlag.defaultDuration ||| TfhdFlag.defaultSize ||| TfhdFlag.defaultFlags |||
    TfhdFlag.durationIsEmpty ||| TfhdFlag.defaultBaseIsMoof
  let unknown := flags &&& ~~~known
  failIf (unknown ≠ 0) s!"unsupported tfhd flags=0x{hex6 unknown}"
  failIf (has flags TfhdFlag.baseDataOffset) "tfhd.base-data-offset-present is not supported"
  failIf (has flags TfhdFlag.durationIsEmpty) "tfhd.duration-is-empty is not supported"
  let trackId := be32 (body.drop 4)
  failIf (trackId = 0) "tfhd track_ID is zero"
  let cursor := body.drop 8
  let (sampleDescriptionIndex, cursor) ←
    if has flags TfhdFlag.sampleDescriptionIndex then
      match readU32 cursor with
      | some (value, cursor) =>
        if value ≠ 0 then .ok (some value, cursor)
        else .error "invalid tfhd sample_description_index"
      | none => .error "invalid tfhd sample_description_index"
    else .ok (none, cursor)
  let (defaultDuration, cursor) ←
    if has flags TfhdFlag.defaultDuration then
      okOr (readU32 cursor) "invalid tfhd default_sample_duration"
    else .ok (0, cursor)
  let (defaultSize, cursor) ←
    if has flags TfhdFlag.defaultSize then
      okOr (readU32 cursor) "invalid tfhd default_sample_size"
    else .ok (0, cursor)
  let (defaultFlags, cursor) ←
    if has flags TfhdFlag.defaultFlags then
      (okOr (readU32 cursor) "invalid tfhd default_sample_flags").map fun (v, cursor) => (some v, cursor)
    else .ok (none, cursor)
  failIf (cursor ≠ []) "invalid tfhd body"
  .ok { trackId, sampleDescriptionIndex, defaultDuration, defaultSize, defaultFlags }

def canonicalTfhd (trackId descriptionIndex : UInt32) : List UInt8 :=
  toBe32 (UInt32.ofNat canonicalTfhdSize) ++ toBe32 Kind.tfhd ++
    toBe32 (TfhdFlag.sampleDescriptionIndex ||| TfhdFlag.defaultBaseIsMoof) ++
    toBe32 trackId ++ toBe32 descriptionIndex

/-- Which fields a `trun` has for each sample, and what stands in for the others. -/
structure TrunFields where
  hasDuration : Bool
  hasSize : Bool
  hasFlags : Bool
  hasOffsets : Bool
  defaultDuration : UInt32
  defaultSize : UInt32
  defaultFlags : UInt32
  deriving DecidableEq, Repr

namespace TrunFields

variable (fields : TrunFields)

def count : ℕ :=
  fields.hasDuration.toNat + fields.hasSize.toNat + fields.hasFlags.toNat + fields.hasOffsets.toNat

/-- One sample; the first one may have flags of its own. -/
def readSample (ownFlags : Option UInt32) (data : List UInt8) : Except String (Sample × List UInt8) := do
  let (duration, data) ←
    if fields.hasDuration then okOr (readU32 data) "invalid trun sample_duration"
    else .ok (fields.defaultDuration, data)
  let (size, data) ←
    if fields.hasSize then okOr (readU32 data) "invalid trun sample_size"
    else .ok (fields.defaultSize, data)
  let (flags, data) ←
    if fields.hasFlags then okOr (readU32 data) "invalid trun sample_flags"
    else .ok (ownFlags.getD fields.defaultFlags, data)
  let (offset, data) ←
    if fields.hasOffsets then okOr (readU32 data) "invalid trun composition_time_offset"
    else .ok (0, data)
  .ok (⟨duration, size, flags, offset⟩, data)

/-- The samples, the sums of their durations and sizes, and what is left. -/
def readSamples : ℕ → Option UInt32 → ℕ → ℕ → List UInt8 →
    Except String (List Sample × ℕ × ℕ × List UInt8)
  | 0, _, duration, dataSize, data => .ok ([], duration, dataSize, data)
  | n + 1, ownFlags, duration, dataSize, data => do
    let (sample, data) ← fields.readSample ownFlags data
    let duration ← add64 duration sample.duration.toNat "trun duration overflow"
    let dataSize ← add64 dataSize sample.size.toNat "trun payload size overflow"
    let (samples, duration, dataSize, data) ← readSamples n none duration dataSize data
    .ok (sample :: samples, duration, dataSize, data)

end TrunFields

def normalizeTrun (data : List UInt8) (header : ℕ) (defaultDuration defaultSize defaultFlags : UInt32)
    (durationIsHint : Bool) : Except String Run := do
  failIf (data.length < header + 8) "trun is too small"
  let body := data.drop header
  let versionFlags := be32 body
  let version := (versionFlags >>> 24).toUInt8
  let flags := versionFlags &&& 0x00ffffff
  failIf (version > 1) s!"unsupported trun version={version}"
  let known := TrunFlag.dataOffset ||| TrunFlag.firstSampleFlags ||| TrunFlag.duration |||
    TrunFlag.size ||| TrunFlag.flags ||| TrunFlag.compositionOffset
  let unknown := flags &&& ~~~known
  failIf (unknown ≠ 0) s!"unsupported trun flags=0x{hex6 unknown}"
  let sampleCount := be32 (body.drop 4)
  failIf (sampleCount = 0) "trun sample_count is zero"
  let cursor := body.drop 8
  let (sourceDataOffset, cursor) ←
    if has flags TrunFlag.dataOffset then
      (okOr (readU32 cursor) "invalid trun data_offset").map fun (v, cursor) => (some (toI32 v), cursor)
    else .ok (none, cursor)
  let hasFirstFlags := has flags TrunFlag.firstSampleFlags
  let hasFlags := has flags TrunFlag.flags
  failIf (hasFirstFlags ∧ hasFlags) "trun first_sample_flags and sample_flags are both present"
  let (firstFlags, cursor) ←
    if hasFirstFlags then
      (okOr (readU32 cursor) "invalid trun first_sample_flags").map fun (v, cursor) => (some v, cursor)
    else .ok (none, cursor)
  let fields : TrunFields := {
    hasDuration := has flags TrunFlag.duration
    hasSize := has flags TrunFlag.size
    hasFlags
    hasOffsets := has flags TrunFlag.compositionOffset
    defaultDuration, defaultSize, defaultFlags }
  failIf (¬fields.hasDuration ∧ defaultDuration = 0) "sample duration is absent"
  failIf (¬fields.hasSize ∧ defaultSize = 0) "sample size is absent"
  failIf (sampleCount.toNat > maxTrunSamples)
    s!"trun sample_count exceeds safety limit: {sampleCount}"
  failIf (sampleCount.toNat * fields.count * 4 ≠ cursor.length) "invalid trun body"
  let (samples, duration, dataSize, cursor) ←
    fields.readSamples sampleCount.toNat firstFlags 0 0 cursor
  failIf (cursor ≠ [] ∨ duration = 0 ∨ dataSize = 0) "invalid trun body"
  .ok {
    sourceDataOffset, samples, version
    hasCompositionTimeOffsets := fields.hasOffsets
    duration, dataSize
    startsWithSync := isSyncSample ((samples.head?.map Sample.flags).getD 0)
    hasInferredDuration := !fields.hasDuration && durationIsHint }

def readTfdt (data : List UInt8) (header : ℕ) : Option ℕ :=
  if data.length < header + 8 then none
  else
    let body := data.drop header
    match body.head? with
    | some 1 => if data.length ≥ header + 12 then some (be64 (body.drop 4)) else none
    | some 0 => some (be32 (body.drop 4)).toNat
    | _ => none

/-- The single boxes of a `traf`: its `tfhd` and `tfdt`, each once, among `trun`s. -/
def readTrafHeaders : List Box → Option Tfhd → Option ℕ → Except String (Option Tfhd × Option ℕ)
  | [], tfhd, decodeTime => .ok (tfhd, decodeTime)
  | b :: rest, tfhd, decodeTime =>
    if b.kind = Kind.tfhd then do
      failIf tfhd.isSome "duplicate tfhd"
      let tfhd ← parseTfhd b.bytes b.header
      readTrafHeaders rest (some tfhd) decodeTime
    else if b.kind = Kind.tfdt then do
      failIf decodeTime.isSome "duplicate tfdt"
      let decodeTime ← okOr (readTfdt b.bytes b.header) "invalid tfdt"
      readTrafHeaders rest tfhd (some decodeTime)
    else if b.kind = Kind.trun then readTrafHeaders rest tfhd decodeTime
    else .error s!"unsupported box {fourCcText b.kind} inside traf"

/-- The `trun`s of a `traf`, and the sum of their durations. -/
def readTruns (defaultDuration defaultSize defaultFlags : UInt32) (durationIsHint : Bool) :
    List Box → ℕ → Except String (List Run × ℕ)
  | [], duration => .ok ([], duration)
  | b :: rest, duration =>
    if b.kind = Kind.trun then do
      let run ← normalizeTrun b.bytes b.header defaultDuration defaultSize defaultFlags durationIsHint
      let duration ← add64 duration run.duration "fragment duration overflow"
      let (runs, duration) ←
        readTruns defaultDuration defaultSize defaultFlags durationIsHint rest duration
      .ok (run :: runs, duration)
    else readTruns defaultDuration defaultSize defaultFlags durationIsHint rest duration

/-- The track of a fragment and the duration its samples have if nothing else tells. -/
def trackOf (trackId : UInt32) (video audio : TrackIds) (videoHint audioHint : UInt32) :
    Except String (TrackIds × UInt32) :=
  if trackId = video.id then .ok (video, videoHint)
  else if audio.id ≠ 0 ∧ trackId = audio.id then .ok (audio, audioHint)
  else .error s!"unsupported track_ID={trackId}"

def parseTraf (traf : List UInt8) (trafHeader : ℕ) (video audio : TrackIds)
    (videoHint audioHint : UInt32) : Except String Fragment := do
  let children := boxes (traf.drop trafHeader)
  let headers ← readTrafHeaders children none none
  match headers with
  | (some tfhd, some decodeTime) => do
    let (track, hint) ← trackOf tfhd.trackId video audio videoHint audioHint
    failIf (track.timescale = 0) s!"timescale is zero for track_ID={tfhd.trackId}"
    let descriptionIndex := tfhd.sampleDescriptionIndex.getD track.trex.descriptionIndex
    failIf (descriptionIndex = 0) s!"sample description index is absent for track_ID={tfhd.trackId}"
    let given := if tfhd.defaultDuration = 0 then track.trex.duration else tfhd.defaultDuration
    let defaultDuration := if given = 0 then hint else given
    let durationIsHint := decide (given = 0 ∧ hint ≠ 0)
    let defaultSize := if tfhd.defaultSize = 0 then track.trex.size else tfhd.defaultSize
    let defaultFlags := tfhd.defaultFlags.getD track.trex.flags
    let (runs, duration) ←
      readTruns defaultDuration defaultSize defaultFlags durationIsHint children 0
    match runs with
    | [] => .error "trun/duration was not found"
    | first :: _ => do
      failIf (duration = 0) "trun/duration was not found"
      .ok {
        trackId := tfhd.trackId
        timescale := track.timescale
        decodeTime, duration
        startsWithSync := first.startsWithSync
        sampleDescriptionIndex := descriptionIndex
        tfhd := canonicalTfhd tfhd.trackId descriptionIndex
        runs
        hasInferredDuration := runs.any Run.hasInferredDuration }
  | _ => .error "tfhd/tfdt was not found"

/-- The `traf` of a `moof`, the only one. -/
def parseTrafs (video audio : TrackIds) (videoHint audioHint : UInt32) :
    List Box → Option Fragment → Except String (Option Fragment)
  | [], found => .ok found
  | b :: rest, found =>
    if b.kind = Kind.traf then do
      failIf found.isSome "source moof must contain one traf"
      let fragment ← parseTraf b.bytes b.header video audio videoHint audioHint
      parseTrafs video audio videoHint audioHint rest (some fragment)
    else parseTrafs video audio videoHint audioHint rest found

def parseSourceMoof (moof : List UInt8) (video audio : TrackIds) (videoHint audioHint : UInt32) :
    Except String Fragment :=
  match tryReadBox moof with
  | none => .error "buffer does not contain exactly one moof"
  | some (b, rest) => do
    failIf (b.kind ≠ Kind.moof ∨ rest ≠ []) "buffer does not contain exactly one moof"
    let found ← parseTrafs video audio videoHint audioHint (boxes b.body) none
    okOr found "traf was not found"

/-! The tracks of an init segment. -/

/-- `readTkhdTrackID` and `readMdhdTimescale`: the field after the times, whose width
depends on the version. -/
def versionedU32 (data : List UInt8) (header : ℕ) : UInt32 :=
  let offset? := match (data.drop header).head? with
    | some 1 => some (header + 20)
    | some 0 => some (header + 12)
    | _ => none
  match offset? with
  | some offset => if data.length ≥ offset + 4 then be32 (data.drop offset) else 0
  | none => 0

/-- A track's number, timescale and handler, each the last one given. -/
structure TrackFields where
  trackId : UInt32 := 0
  timescale : UInt32 := 0
  handler : UInt32 := 0
  deriving DecidableEq, Repr

def readMdia (fields : TrackFields) (b : Box) : TrackFields :=
  if b.kind = Kind.mdhd then { fields with timescale := versionedU32 b.bytes b.header }
  else if b.kind = Kind.hdlr then
    { fields with
      handler := if b.bytes.length ≥ b.header + 12 then be32 (b.bytes.drop (b.header + 8)) else 0 }
  else fields

def readTrack (trak : List UInt8) (header : ℕ) : TrackFields :=
  (boxes (trak.drop header)).foldl (fun fields b =>
    if b.kind = Kind.tkhd then { fields with trackId := versionedU32 b.bytes b.header }
    else if b.kind = Kind.mdia then (boxes b.body).foldl readMdia fields
    else fields) {}

def readTrex (data : List UInt8) (header : ℕ) : Option (UInt32 × Trex) :=
  if data.length < header + 24 then none
  else
    let body := data.drop header
    let trackId := be32 (body.drop 4)
    let descriptionIndex := be32 (body.drop 8)
    if trackId = 0 ∨ descriptionIndex = 0 then none
    else some (trackId, ⟨descriptionIndex, be32 (body.drop 12), be32 (body.drop 16), be32 (body.drop 20)⟩)

/-- The `trex` entries of an `mvex`. -/
def readMvex : List Box → Except String (List (UInt32 × Trex))
  | [] => .ok []
  | b :: rest =>
    if b.kind = Kind.trex then do
      let entry ← okOr (readTrex b.bytes b.header) "invalid trex"
      let entries ← readMvex rest
      .ok (entry :: entries)
    else readMvex rest

/-- What a `moov` tells: the video and the audio track, number and timescale, and the
defaults of the tracks. -/
structure Tracks where
  video : UInt32 × UInt32 := (0, 0)
  audio : UInt32 × UInt32 := (0, 0)
  trexEntries : List (UInt32 × Trex) := []
  deriving DecidableEq, Repr

def readMoov : List Box → Tracks → Except String Tracks
  | [], tracks => .ok tracks
  | b :: rest, tracks =>
    if b.kind = Kind.trak then
      let fields := readTrack b.bytes b.header
      if fields.handler = handlerVideo then do
        failIf (tracks.video.1 ≠ 0) "multiple video tracks in mp4mux output"
        readMoov rest { tracks with video := (fields.trackId, fields.timescale) }
      else if fields.handler = handlerAudio then do
        failIf (tracks.audio.1 ≠ 0) "multiple audio tracks in mp4mux output"
        readMoov rest { tracks with audio := (fields.trackId, fields.timescale) }
      else readMoov rest tracks
    else if b.kind = Kind.mvex then do
      let entries ← readMvex (boxes b.body)
      readMoov rest { tracks with trexEntries := tracks.trexEntries ++ entries }
    else readMoov rest tracks

def Tracks.trex (tracks : Tracks) (id : UInt32) : Trex :=
  ((tracks.trexEntries.find? fun entry => entry.1 = id).map Prod.snd).getD {}

def parseInitTracks (init : List UInt8) : Except String (TrackIds × TrackIds) := do
  let moov ← okOr (findBox init Kind.moov) "moov was not found"
  let tracks ← readMoov (boxes moov.body) {}
  failIf (tracks.video.1 = 0 ∨ tracks.video.2 = 0) "video track was not found through hdlr=vide"
  let video : TrackIds := ⟨tracks.video.1, tracks.video.2, tracks.trex tracks.video.1⟩
  if tracks.audio.1 = 0 then .ok (video, {})
  else do
    failIf (tracks.audio.2 = 0) "audio timescale is zero"
    .ok (video, ⟨tracks.audio.1, tracks.audio.2, tracks.trex tracks.audio.1⟩)

end Rustorr.Mp4
