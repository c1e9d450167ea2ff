import Rustorr.Gst.Mp4.Cutting

/-! `mp4box.rs` `Reader`: the fragments of `mp4mux` are queued by track, and merged into
segments. A failed call leaves a reader that is used no more, so failures carry no
state. -/

namespace Rustorr.Mp4

open BigEndian Except

def maxSampleBytes : ℕ := 256 * 1024 * 1024

structure Segment where
  data : List UInt8
  startNs : ℕ
  endNs : ℕ
  startSeconds : Binary64
  endSeconds : Binary64
  deriving DecidableEq

/-- Where the bytes of the current box go. -/
inductive Target where
  | none
  | init
  | moof
  | payload
  | styp
  | prefixBoxes
  deriving DecidableEq, Repr

/-- The reader. Of the box header the bytes read so far are kept. -/
structure Reader where
  segmentSeconds : Binary64
  segmentDiff : ℤ
  cueMode : Bool
  init : List UInt8 := []
  sourceMoof : List UInt8 := []
  sourceStyp : List UInt8 := []
  deferred : List UInt8 := []
  video : List Fragment := []
  audio : List Fragment := []
  sourcePayload : List UInt8 := []
  prefixBoxes : List UInt8 := []
  prefixActive : Bool := false
  pending : Option Fragment := none
  styp : List UInt8 := []
  boxHeader : List UInt8 := []
  boxHeaderRequired : ℕ := 8
  currentBoxType : UInt32 := 0
  currentBoxRemaining : ℕ := 0
  currentTarget : Target := .none
  initDone : Bool := false
  moovCompleted : Bool := false
  sourceMfraDone : Bool := false
  sourceFinalMoovDone : Bool := false
  sourcePayloadFromMoof : ℕ := 0
  currentPayloadStart : ℕ := 0
  videoTrack : TrackIds := {}
  audioTrack : TrackIds := {}
  videoDurationHint : UInt32 := 0
  videoDurationHintTimescale : UInt32 := 0
  audioDurationHint : UInt32 := 0
  audioDurationHintTimescale : UInt32 := 0
  tfdtOffsetSeconds : Binary64 := .zero
  sequence : UInt32 := 1
  lastVideoEndTime : ℕ := 0
  completedVideoSegments : ℕ := 0
  targetSegment : Option (ℕ × ℕ × ℕ) := none
  newInit : Option (List UInt8) := none
  newSegment : Option Segment := none
  deriving DecidableEq

namespace Reader

def new (segmentSeconds : Binary64) (segmentDiff : ℤ) (cueMode : Bool) : Reader where
  segmentSeconds :=
    if segmentSeconds.isFinite ∧ Binary64.zero.lt segmentSeconds then segmentSeconds else .finite 6
  segmentDiff := max segmentDiff 0
  cueMode

variable (r : Reader)

def hasVideo : Bool := !r.video.isEmpty

def videoStartsWithSync : Bool := r.video.head?.any Fragment.startsWithSync

def clearSource : Reader :=
  { r with
    pending := none, sourcePayload := [], sourcePayloadFromMoof := 0, currentPayloadStart := 0
    sourceMoof := [] }

def resetPrefix : Reader := { r with prefixBoxes := [], prefixActive := false }

def resetBoxState : Reader :=
  { r with
    boxHeader := [], boxHeaderRequired := 8, currentBoxType := 0, currentBoxRemaining := 0
    currentTarget := .none }

def seekReset (seconds : Binary64) : Reader :=
  let r := { r with
    initDone := false, moovCompleted := false, sourceMfraDone := false, sourceFinalMoovDone := false
    videoTrack := {}, audioTrack := {}, sequence := 1, styp := []
    videoDurationHint := 0, videoDurationHintTimescale := 0
    audioDurationHint := 0, audioDurationHintTimescale := 0
    lastVideoEndTime := 0, completedVideoSegments := 0, targetSegment := none
    tfdtOffsetSeconds :=
      if seconds.isFinite ∧ Binary64.zero.lt seconds then seconds else .zero
    init := [], sourceMoof := [], sourceStyp := [], deferred := [] }
  let r := { r.clearSource with video := [], audio := [] }
  { r.resetPrefix.resetBoxState with newInit := none, newSegment := none }

def setTimelineOffsetNs (offsetNs : ℕ) : Reader :=
  { r with
    tfdtOffsetSeconds :=
      if offsetNs = u64Max then .zero else (Binary64.ofNat offsetNs).div (.ofNat 1000000000) }

def setTargetSegment (startNs endNs toleranceNs : ℕ) : Except ReaderError Reader :=
  if ¬r.cueMode then .ok r
  else do
    failIf (endNs ≤ startNs) (other "invalid cue segment range")
    .ok { r with targetSegment := some (startNs, endNs, max toleranceNs 1) }

/-! Which fragments the next segment takes. -/

/-- The walk over the video from `index` on. A segment ends before a sync sample, once it
is long enough; or, to make up for a drift, at the last one before that. -/
def selectFrom (target : ℕ) (takeFirstSyncBoundary : Bool) : List Fragment → ℕ → ℕ → ℕ → ℕ
  | current :: next :: rest, index, duration, selected =>
    let duration := (duration + current.duration) % 2 ^ 64
    let go := selectFrom target takeFirstSyncBoundary (next :: rest) (index + 1) duration
    if ¬takeFirstSyncBoundary then
      if duration ≥ target ∧ next.startsWithSync then index + 1 else go selected
    else if duration ≤ target then
      if next.startsWithSync then if duration = target then index + 1 else go (index + 1)
      else go selected
    else if selected > 0 then selected
    else if next.startsWithSync then index + 1
    else go selected
  | _, _, _, _ => 0

/-- The segments so far are longer than they should be, by more than is allowed. -/
def lagsBehind : Bool :=
  let timescale := r.videoTrack.timescale.toNat
  let expectedEnd := r.completedVideoSegments * r.segmentSeconds.toU64 % 2 ^ 64 * timescale % 2 ^ 64
  let diff := (r.segmentSeconds.add (.ofInt r.segmentDiff)).toU64 * timescale % 2 ^ 64
  r.completedVideoSegments > 0 && decide (r.segmentDiff > 0) &&
    decide (r.lastVideoEndTime > expectedEnd ∧ r.lastVideoEndTime - expectedEnd ≥ diff)

/-- The first sync boundary at the end of the target, by presentation time. -/
def selectCueFrom (first : ℤ) (target toleranceNs : ℕ) :
    List Fragment → ℕ → Except ReaderError ℕ
  | [], _ => .ok 0
  | boundary :: rest, index =>
    if ¬boundary.startsWithSync then selectCueFrom first target toleranceNs rest (index + 1)
    else do
      let presentation ← firstPresentationTime boundary
      failIf (presentation ≤ first) (other "cue presentation timeline is not increasing")
      let duration ← timelineNanoseconds (presentation - first).toNat r.videoTrack.timescale
      if duration < target ∧ target - duration > toleranceNs then
        selectCueFrom first target toleranceNs rest (index + 1)
      else do
        failIf (duration > target ∧ duration - target > toleranceNs)
          (other s!"cue sync boundary duration is {duration}, expected {target}")
        .ok index

def selectCueVideoCount : Except ReaderError ℕ :=
  match r.targetSegment, r.video with
  | some (startNs, endNs, toleranceNs), first :: second :: rest => do
    let time ← firstPresentationTime first
    r.selectCueFrom time (endNs - startNs) toleranceNs (second :: rest) 1
  | _, _ => .ok 0

def selectVideoCount : Except ReaderError ℕ :=
  match r.video with
  | [] => .ok 0
  | first :: _ => do
    failIf (¬first.startsWithSync) (other (
      "video segment starts with a non-sync sample at " ++
        ((Binary64.ofNat first.decodeTime).div (.ofNat r.videoTrack.timescale.toNat)).toFixed6 ++ "s"))
    if r.cueMode then r.selectCueVideoCount
    else do
      let target ← toUnits r.segmentSeconds r.videoTrack.timescale
      .ok (selectFrom target r.lagsBehind r.video 0 0 0)

/-- Samples up to the first one that ends where `reached` says, from a time and a count. -/
def scanSamples (reached : ℕ → Bool) : List Sample → ℕ → ℕ → Except ReaderError (ℕ × ℕ × Bool)
  | [], audioEnd, count => .ok (audioEnd, count, false)
  | sample :: rest, audioEnd, count => do
    let audioEnd ← add64 audioEnd sample.duration.toNat (other "audio sample timeline overflow")
    if reached audioEnd then .ok (audioEnd, count + 1, true)
    else scanSamples reached rest audioEnd (count + 1)

def scanRuns (reached : ℕ → Bool) : List Run → ℕ → ℕ → Except ReaderError (ℕ × ℕ × Bool)
  | [], audioEnd, count => .ok (audioEnd, count, false)
  | run :: rest, audioEnd, count => do
    failIf (run.samples = []) (other "audio trun has no parsed samples")
    let (audioEnd, count, found) ← scanSamples reached run.samples audioEnd count
    if found then .ok (audioEnd, count, true) else scanRuns reached rest audioEnd count

def findAudioSplitSampleCount (fragment : Fragment) (videoEnd : ℕ) :
    Except ReaderError (ℕ × Bool) := do
  failIf (fragment.timescale = 0 ∨ r.videoTrack.timescale = 0) (other "audio/video timescale is zero")
  let reached := fun audioEnd =>
    scaledGreaterOrEqual audioEnd r.videoTrack.timescale videoEnd fragment.timescale
  let (audioEnd, count, found) ← scanRuns reached fragment.runs fragment.decodeTime 0
  if found then .ok (count, true)
  else do
    failIf (audioEnd ≠ fragment.endTime) (other "audio sample durations do not match fragment duration")
    .ok (count, false)

/-- The audio up to the end of the video, and how many fragments it takes; the one that
goes on after it is cut in two. -/
def selectAudioFrom (videoEnd : ℕ) : List Fragment → Except ReaderError (List Fragment × ℕ)
  | [] => .ok ([], 0)
  | fragment :: rest => do
    let (split, reached) ← r.findAudioSplitSampleCount fragment videoEnd
    if ¬reached then do
      let (rest, count) ← selectAudioFrom videoEnd rest
      .ok (fragment :: rest, if count = 0 then 0 else count + 1)
    else do
      let total ← fragmentSampleCount fragment
      failIf (split = 0 ∨ split > total) (other "invalid audio split sample count")
      if split < total then do
        let (left, right) ← splitFragmentAtSample fragment split
        .ok (left :: right :: rest, 1)
      else .ok (fragment :: rest, 1)

def selectAudioCount (videoEnd : ℕ) : Except ReaderError (Reader × ℕ) := do
  let (audio, count) ← r.selectAudioFrom videoEnd r.audio
  .ok ({ r with audio }, count)

/-! A segment of the first fragments. -/

def writeTraf (fragments : List Fragment) (moofSize mdatHeaderSize : ℕ) :
    Except ReaderError (List UInt8) :=
  match fragments with
  | [] => .ok []
  | first :: _ => do
    let size := trafSize fragments
    failIf (size > u32Max) (other "combined traf is too large")
    let decodeTime ← addTfdtOffset first.decodeTime first.timescale r.tfdtOffsetSeconds
    let truns ← writeTruns moofSize mdatHeaderSize (fragments.flatMap Fragment.runs)
    .ok (writeHeader (UInt32.ofNat size) Kind.traf ++ first.tfhd ++ writeTfdt decodeTime ++ truns)

/-- The payload of fragments, one after the other. -/
def writePayload (sourcePayload : List UInt8) : List Fragment → Except ReaderError (List UInt8)
  | [] => .ok []
  | fragment :: rest =>
    if fragment.payloadLen = 0 then writePayload sourcePayload rest
    else do
      failIf (fragment.payloadStart + fragment.payloadLen > sourcePayload.length)
        (other "fragment payload range exceeds storage")
      let payload ← writePayload sourcePayload rest
      .ok ((sourcePayload.drop fragment.payloadStart).take fragment.payloadLen ++ payload)

/-- `reclaim_payloads`: drops payload bytes no queued fragment uses. -/
def reclaimPayloads : Reader :=
  if r.sourcePayload = [] then r
  else
    match (((r.video ++ r.audio).filter fun f => f.payloadLen > 0).map Fragment.payloadStart).min? with
    | none => { r with sourcePayload := [], currentPayloadStart := 0 }
    | some minStart =>
      if minStart = 0 then r
      else
        let rebase := fun f : Fragment =>
          if f.payloadLen > 0 then { f with payloadStart := f.payloadStart - minStart } else f
        { r with
          sourcePayload := r.sourcePayload.drop minStart
          video := r.video.map rebase
          audio := r.audio.map rebase
          currentPayloadStart := r.currentPayloadStart - minStart }

/-- What a segment of these fragments would consist of, or why it cannot be. -/
def checkTracks (video audio : List Fragment) (allowSingleTrack : Bool) : Except ReaderError Unit := do
  let sourceHasAudio := r.audioTrack.id ≠ 0
  failIf (video = [] ∧ audio = []) (other "segment contains no fragments")
  failIf (audio ≠ [] ∧ ¬sourceHasAudio)
    (other "video-only source unexpectedly contains audio fragments")
  failIf (¬allowSingleTrack ∧ video = []) (other "regular segment must contain video")
  failIf (¬allowSingleTrack ∧ sourceHasAudio ∧ audio = [])
    (other "regular segment must contain audio for an audio/video source")
  if video ≠ [] then validateTrack video
  if audio ≠ [] then validateTrack audio

/-- The end of a segment on the timeline, and its start. -/
def segmentTimes (video audio : List Fragment) : Except ReaderError (ℕ × ℕ) := do
  let track := if video ≠ [] then video else audio
  let first := track.head?.getD {}
  let last := track.getLast?.getD {}
  failIf (first.timescale = 0) (other "segment first track has zero timescale")
  failIf (last.timescale = 0) (other "segment last track has zero timescale")
  let startNs ← timelineNanoseconds first.decodeTime first.timescale
  let endNs ← timelineNanoseconds last.endTime last.timescale
  let offsetNs :=
    if Binary64.zero.lt r.tfdtOffsetSeconds then
      (r.tfdtOffsetSeconds.mul (.ofNat 1000000000)).round.toU64
    else 0
  failIf (u64Max - startNs < offsetNs ∨ u64Max - endNs < offsetNs)
    (other "segment timeline offset overflow")
  .ok (startNs + offsetNs, endNs + offsetNs)

/-- The bytes of a segment. -/
def writeSegment (video audio : List Fragment) : Except ReaderError (List UInt8 × ℕ × ℕ) := do
  let (video, length) := assignOffsets video 0
  let (audio, payloadLength) := assignOffsets audio length
  let videoTraf := if video ≠ [] then trafSize video else 0
  let audioTraf := if audio ≠ [] then trafSize audio else 0
  let moofSize := 8 + 16 + videoTraf + audioTraf
  failIf (moofSize > u32Max) (other "combined moof is too large")
  let mdatHeaderSize := if payloadLength + 8 > u32Max then 16 else 8
  let videoBytes ← r.writeTraf video moofSize mdatHeaderSize
  let audioBytes ← r.writeTraf audio moofSize mdatHeaderSize
  let times ← r.segmentTimes video audio
  let payload ← writePayload r.sourcePayload (video ++ audio)
  .ok (r.styp ++ (if r.prefixActive then r.prefixBoxes else []) ++
    writeHeader (UInt32.ofNat moofSize) Kind.moof ++ writeMfhd r.sequence ++ videoBytes ++ audioBytes ++
    writeMdatHeader payloadLength mdatHeaderSize ++ payload, times)

def buildSegment (videoCount audioCount : ℕ) (allowSingleTrack : Bool) : Except ReaderError Reader := do
  failIf (videoCount > r.video.length) (other "invalid video fragment count")
  failIf (audioCount > r.audio.length) (other "invalid audio fragment count")
  let video := r.video.take videoCount
  let audio := r.audio.take audioCount
  r.checkTracks video audio allowSingleTrack
  let (data, startNs, endNs) ← r.writeSegment video audio
  let segment : Segment := {
    data, startNs, endNs
    startSeconds := (Binary64.ofNat startNs).div (.ofNat 1000000000)
    endSeconds := (Binary64.ofNat endNs).div (.ofNat 1000000000) }
  let r := { r with
    sequence := r.sequence + 1
    newSegment := some segment
    targetSegment := if r.cueMode then none else r.targetSegment
    lastVideoEndTime := match video.getLast? with
      | some last => last.endTime
      | none => r.lastVideoEndTime
    completedVideoSegments := if video ≠ [] then r.completedVideoSegments + 1 else r.completedVideoSegments
    video := r.video.drop videoCount
    audio := r.audio.drop audioCount }
  .ok r.resetPrefix.reclaimPayloads

def tryBuildSegment : Except ReaderError (Reader × Bool) := do
  let videoCount ← r.selectVideoCount
  if videoCount = 0 then .ok (r, false)
  else if r.audioTrack.id ≠ 0 then do
    let videoEnd := ((r.video[videoCount - 1]?).map Fragment.endTime).getD 0
    let (r, audioCount) ← r.selectAudioCount videoEnd
    if audioCount = 0 then .ok (r, false)
    else do
      let r ← r.buildSegment videoCount audioCount false
      .ok (r, true)
  else do
    let r ← r.buildSegment videoCount 0 false
    .ok (r, true)

/-- `TryBuildEndOfStreamRemainder`. -/
def tryBuildEndOfStreamRemainder : Except ReaderError (Reader × Bool) :=
  if r.cueMode ∧ r.targetSegment = none then .ok (r, false)
  else if r.video = [] ∧ r.audio = [] then .ok (r, false)
  else if r.video ≠ [] ∧ ¬r.videoStartsWithSync then .ok (r, false)
  else do
    let finalVideoSegment := r.video ≠ []
    let (r, audioCount) ←
      if r.video ≠ [] ∧ r.audio ≠ [] then do
        let videoEnd := (r.video.getLast?.map Fragment.endTime).getD 0
        let audioCount := r.audio.length
        let (r, selected) ← r.selectAudioCount videoEnd
        .ok (r, if selected > 0 then selected else audioCount)
      else .ok (r, r.audio.length)
    let r ← r.buildSegment r.video.length audioCount true
    .ok (if finalVideoSegment ∧ r.video = [] ∧ r.audio ≠ [] then { r with audio := [] } else r, true)

/-- `EndOfStreamError`: anything half-read when the stream ended. -/
def endOfStreamError : Option ReaderError :=
  if r.boxHeader ≠ [] then
    some (.truncatedMp4Fragment
      s!"incomplete top-level box header: have={r.boxHeader.length}, need={r.boxHeaderRequired}")
  else if r.currentBoxRemaining ≠ 0 then
    some (.truncatedMp4Fragment
      s!"incomplete {fourCcText r.currentBoxType} box: missing={r.currentBoxRemaining} body bytes")
  else
    match r.pending with
    | some pending =>
      some (.truncatedMp4Fragment s!"moof for track_ID={pending.trackId} has no complete mdat")
    | none =>
      if r.sourcePayload ≠ [] then
        some (.truncatedMp4Fragment s!"{r.sourcePayload.length} uncommitted mdat payload bytes")
      else if r.sourceMoof ≠ [] then
        some (.truncatedMp4Fragment s!"{r.sourceMoof.length} uncommitted moof bytes")
      else if r.deferred ≠ [] then
        some (.truncatedMp4Fragment s!"{r.deferred.length} unprocessed deferred bytes")
      else none

/-! The boxes of the source. -/

def writeCurrentBoxData (data : List UInt8) : Reader :=
  match r.currentTarget with
  | .init => { r with init := r.init ++ data }
  | .moof => { r with sourceMoof := r.sourceMoof ++ data }
  | .payload => { r with sourcePayload := r.sourcePayload ++ data }
  | .styp => { r with sourceStyp := r.sourceStyp ++ data }
  | .prefixBoxes => { r with prefixBoxes := r.prefixBoxes ++ data }
  | .none => r

def completeInit : Except ReaderError Reader := do
  failIf (¬r.moovCompleted ∨ r.init = []) (other "incomplete mp4 initialization")
  let (video, audio) ← (parseInitTracks r.init).mapError fun error =>
    other s!"unable to parse mp4 initialization: {error}"
  .ok { r with videoTrack := video, audioTrack := audio, initDone := true, newInit := some r.init }

/-- The source may hold a box of this type here, after the init. -/
def beginSourceBox (size headerSize : ℕ) : Except ReaderError Reader :=
  let kind := r.currentBoxType
  if kind = Kind.moof then do
    failIf r.pending.isSome (other "a new moof appeared before the previous mdat")
    let r := { r with sourceMoof := [], sourcePayloadFromMoof := 0, currentTarget := .moof }
    .ok (r.writeCurrentBoxData r.boxHeader)
  else if kind = Kind.mdat then do
    failIf r.pending.isNone (other "mdat does not follow a supported moof")
    .ok { r with
      currentPayloadStart := r.sourcePayload.length
      sourcePayloadFromMoof := r.sourcePayloadFromMoof + headerSize
      currentTarget := .payload }
  else if kind = Kind.sidx then
    .ok { r with
      sourcePayloadFromMoof := r.sourcePayloadFromMoof + if r.pending.isSome then size else 0 }
  else if kind = Kind.styp then do
    failIf r.pending.isSome (other "styp cannot appear between moof and mdat")
    let r := { r with sourceStyp := [], currentTarget := .styp }
    .ok (r.writeCurrentBoxData r.boxHeader)
  else if kind = Kind.emsg ∨ kind = Kind.free ∨ kind = Kind.prft then
    let r := { r with
      sourcePayloadFromMoof := r.sourcePayloadFromMoof + if r.pending.isSome then size else 0
      prefixActive := true
      currentTarget := .prefixBoxes }
    .ok (r.writeCurrentBoxData r.boxHeader)
  else if kind = Kind.mfra then do
    failIf r.pending.isSome (other "mfra cannot appear between moof and mdat")
    failIf r.sourceMfraDone (other "duplicate terminal mfra")
    .ok r
  else if kind = Kind.moov then do
    failIf (¬r.sourceMfraDone) (other "unexpected moov after mp4 initialization")
    failIf r.sourceFinalMoovDone (other "duplicate terminal moov")
    failIf r.pending.isSome (other "final moov cannot appear between moof and mdat")
    .ok r
  else .error (other s!"unsupported top-level mp4 box after init: {fourCcText kind}")

def beginBox (size headerSize : ℕ) : Except ReaderError Reader := do
  failIf (size < headerSize) (other "invalid mp4 box size")
  failIf ((r.currentBoxType = Kind.moof ∨ r.currentBoxType = Kind.mdat) ∧ size > i32Max)
    (other "moof/mdat is too large")
  let r := { r with currentBoxRemaining := size - headerSize, currentTarget := .none }
  let r ←
    if ¬r.initDone ∧ (r.currentBoxType = Kind.styp ∨ r.currentBoxType = Kind.moof) then r.completeInit
    else .ok r
  if ¬r.initDone then do
    failIf (r.currentBoxType = Kind.mdat) (other "mdat appeared before init was completed")
    failIf (r.currentBoxType = Kind.mfra) (other "mfra appeared before init was completed")
    let r := { r with currentTarget := .init }
    .ok (r.writeCurrentBoxData r.boxHeader)
  else do
    failIf r.sourceFinalMoovDone
      (other s!"unexpected top-level mp4 box after terminal moov: {fourCcText r.currentBoxType}")
    failIf (r.sourceMfraDone ∧ r.currentBoxType ≠ Kind.moov)
      (other
        s!"only the rewritten terminal moov is allowed after mfra; got {fourCcText r.currentBoxType}")
    r.beginSourceBox size headerSize

/-- The last duration of the fragment queued last, where it was only inferred, once the
next fragment tells it. -/
def resolveRuns (exact : UInt32) (runs : List Run) (index : ℕ) : List Run :=
  (runs.modify index fun run =>
    { run with
      samples := run.samples.modify (run.samples.length - 1) fun s => { s with duration := exact }
      duration := run.duration - ((run.samples.getLast?.map Sample.duration).getD 0).toNat +
        exact.toNat }).map fun run => { run with hasInferredDuration := false }

def resolveInferredDuration (previous current : Fragment) : Except ReaderError (Fragment × UInt32) := do
  let index := previous.runs.length - 1 - previous.runs.reverse.findIdx Run.hasInferredDuration
  let run := ((previous.runs.reverse.find? Run.hasInferredDuration).filter fun run => run.samples ≠ [])
  let run ← okOr run (other "inferred sample duration marker is missing")
  let old := ((run.samples.getLast?.map Sample.duration).getD 0).toNat
  failIf (previous.duration < old) (other "invalid inferred sample duration")
  let sampleStart := (previous.decodeTime + (previous.duration - old)) % 2 ^ 64
  failIf (current.decodeTime < sampleStart) (other
    s!"inferred sample moves decode time backwards: track={current.trackId} previous_tfdt={previous.decodeTime} next_tfdt={current.decodeTime}")
  let exact := current.decodeTime - sampleStart
  failIf (exact > u32Max) (other "inferred sample duration exceeds uint32")
  .ok ({ previous with
    runs := resolveRuns (UInt32.ofNat exact) previous.runs index
    duration := (previous.duration - old + exact) % 2 ^ 64
    hasInferredDuration := false }, UInt32.ofNat exact)

/-- The last of a queue is changed, or the queue is as it was. -/
def resolveQueue (queue : List Fragment) (current : Fragment) :
    Except ReaderError (List Fragment × Option UInt32) :=
  match queue.getLast? with
  | none => .ok (queue, none)
  | some previous =>
    if ¬previous.hasInferredDuration then .ok (queue, none)
    else do
      let (previous, exact) ← resolveInferredDuration previous current
      .ok (queue.dropLast ++ [previous], if exact = 0 then none else some exact)

def withVideoHint (hint : Option UInt32) (timescale : UInt32) : Reader :=
  match hint with
  | some duration => { r with videoDurationHint := duration, videoDurationHintTimescale := timescale }
  | none => r

def withAudioHint (hint : Option UInt32) (timescale : UInt32) : Reader :=
  match hint with
  | some duration => { r with audioDurationHint := duration, audioDurationHintTimescale := timescale }
  | none => r

def resolvePreviousInferredDuration (current : Fragment) : Except ReaderError Reader :=
  if current.trackId = r.videoTrack.id then do
    let (video, hint) ← resolveQueue r.video current
    let r := { r with video }
    .ok (r.withVideoHint hint current.timescale)
  else if current.trackId = r.audioTrack.id then do
    let (audio, hint) ← resolveQueue r.audio current
    let r := { r with audio }
    .ok (r.withAudioHint hint current.timescale)
  else .ok r

def completeMoof : Except ReaderError Reader := do
  let videoHint :=
    if r.videoDurationHintTimescale = r.videoTrack.timescale then r.videoDurationHint else 0
  let audioHint :=
    if r.audioDurationHintTimescale = r.audioTrack.timescale then r.audioDurationHint else 0
  let fragment ← (parseSourceMoof r.sourceMoof r.videoTrack r.audioTrack videoHint audioHint).mapError
    fun error => other s!"unable to parse source moof: {error}"
  let r ← r.resolvePreviousInferredDuration fragment
  let duration := lastSampleDuration fragment
  let hint := if ¬fragment.hasInferredDuration ∧ duration ≠ 0 then some duration else none
  let r :=
    if fragment.trackId = r.videoTrack.id then r.withVideoHint hint fragment.timescale
    else if fragment.trackId = r.audioTrack.id then r.withAudioHint hint fragment.timescale
    else r
  .ok { r with
    pending := some { fragment with payloadStart := 0 }
    sourcePayloadFromMoof := r.sourceMoof.length }

def completeMdat : Except ReaderError Reader :=
  match r.pending with
  | none => .error (other "completed mdat has no source moof")
  | some pending => do
    let payloadLen := r.sourcePayload.length - r.currentPayloadStart
    let fragment ←
      attachPayload pending r.currentPayloadStart payloadLen r.sourcePayloadFromMoof
    let r : Reader := { r with
      pending := none, sourcePayloadFromMoof := 0, currentPayloadStart := 0, sourceMoof := [] }
    if fragment.trackId = r.videoTrack.id then .ok { r with video := r.video ++ [fragment] }
    else if r.audioTrack.id ≠ 0 ∧ fragment.trackId = r.audioTrack.id then
      .ok { r with audio := r.audio ++ [fragment] }
    else .error (other s!"unsupported track_ID={fragment.trackId}")

/-- The reader after the end of a box, and whether that completed a segment. -/
def completeBox : Except ReaderError (Reader × Bool) :=
  let kind := r.currentBoxType
  if kind = Kind.styp then
    .ok ({ r with
      styp := if r.styp = [] ∧ r.sourceStyp ≠ [] then r.sourceStyp else r.styp
      sourceStyp := [] }, false)
  else if kind = Kind.mfra then .ok ({ r with sourceMfraDone := true }, false)
  else if kind = Kind.moov then
    if r.initDone then do
      failIf (¬r.sourceMfraDone ∨ r.sourceFinalMoovDone)
        (other "unexpected moov after mp4 initialization")
      .ok ({ r with sourceFinalMoovDone := true }, false)
    else .ok ({ r with moovCompleted := true }, false)
  else if kind = Kind.moof then do
    let r ← r.completeMoof
    .ok (r, false)
  else if kind = Kind.mdat then do
    let r ← r.completeMdat
    r.tryBuildSegment
  else .ok (r, false)

/-- The end of a box, if there is nothing left of it. -/
def finishBox : Except ReaderError (Reader × Bool) :=
  if r.currentBoxRemaining = 0 then do
    let (r, completed) ← r.completeBox
    .ok (r.resetBoxState, completed)
  else .ok (r, false)

/-- A header that has the bytes it needs; an extended size needs more. -/
def finishHeader : Except ReaderError (Reader × Bool) :=
  if r.boxHeaderRequired = 8 then
    let size32 := be32 r.boxHeader
    let r := { r with currentBoxType := be32 (r.boxHeader.drop 4) }
    if size32 = 1 then .ok ({ r with boxHeaderRequired := 16 }, false)
    else do
      failIf (size32 = 0) (other "top-level mp4 box size=0 is not supported")
      let r ← r.beginBox size32.toNat 8
      r.finishBox
  else do
    let r ← r.beginBox (be64 (r.boxHeader.drop 8)) 16
    r.finishBox

/-- The loop of `process_bytes`, each round of which takes a byte at least: the reader,
what is left of the data, and whether a segment was completed. -/
def processUpTo : ℕ → Reader → List UInt8 → Except ReaderError (Reader × List UInt8 × Bool)
  | 0, r, data => .ok (r, data, false)
  | fuel + 1, r, data =>
    if data = [] then .ok (r, [], false)
    else if r.boxHeader.length < r.boxHeaderRequired then
      let count := min (r.boxHeaderRequired - r.boxHeader.length) data.length
      let r := { r with boxHeader := r.boxHeader ++ data.take count }
      if r.boxHeader.length < r.boxHeaderRequired then .ok (r, data.drop count, false)
      else do
        let (r, completed) ← r.finishHeader
        if completed then .ok (r, data.drop count, true)
        else processUpTo fuel r (data.drop count)
    else
      let body := min data.length r.currentBoxRemaining
      if body = 0 then .ok (r, data, false)
      else
        let r := r.writeCurrentBoxData (data.take body)
        let r := { r with currentBoxRemaining := r.currentBoxRemaining - body }
        do
        let (r, completed) ← r.finishBox
        if completed then .ok (r, data.drop body, true)
        else processUpTo fuel r (data.drop body)

def processBytes (data : List UInt8) : Except ReaderError (Reader × List UInt8 × Bool) :=
  processUpTo data.length r data

/-- `TryProcessDeferred`. -/
def tryProcessDeferred : Except ReaderError (Reader × Bool) := do
  let (r, built) ← r.tryBuildSegment
  if built then .ok (r, true)
  else if r.deferred = [] then .ok (r, false)
  else do
    let data := r.deferred
    let (r, rest, completed) ← ({ r with deferred := [] } : Reader).processBytes data
    if completed then .ok ({ r with deferred := rest }, true)
    else do
      failIf (rest ≠ [])
        (other s!"mp4 parser consumed {data.length - rest.length} of {data.length} deferred bytes")
      .ok (r, false)

/-- `Push`: at most one segment completes per call; bytes after it wait until the caller
asks again. -/
def push (data : List UInt8) : Except ReaderError Reader :=
  if data = [] then .ok r
  else do
    let (r, completed) ← r.tryProcessDeferred
    if completed then .ok { r with deferred := r.deferred ++ data }
    else do
      let (r, rest, completed) ← r.processBytes data
      .ok (if completed then { r with deferred := r.deferred ++ rest } else r)

end Reader

end Rustorr.Mp4
