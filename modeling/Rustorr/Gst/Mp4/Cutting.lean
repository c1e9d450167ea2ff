import Rustorr.Gst.Mp4.Fragment
import Rustorr.Lib.Binary64

/-! `mp4box.rs`: fragments are given their payload, cut in two, checked to follow each
other, and written as one `traf`. -/

namespace Rustorr.Mp4

open BigEndian Except

/-- `attachPayload`'s walk over the runs: each lies where the one before ends. -/
def attachRuns (payloadFromMoof : ℕ) : List Run → ℕ → Except ReaderError (List Run × ℕ)
  | [], expected => .ok ([], expected)
  | run :: rest, expected => do
    let offset : ℤ := match run.sourceDataOffset with
      | some offset => offset - payloadFromMoof
      | none => expected
    failIf (offset ≠ expected)
      (other s!"non-contiguous source mdat: expected={expected}, actual={offset}")
    failIf (run.dataSize > 2 ^ 63 - 1) (other "trun payload is too large")
    let (runs, expected') ← attachRuns payloadFromMoof rest (expected + run.dataSize)
    .ok ({ run with payloadOffset := expected } :: runs, expected')

def attachPayload (fragment : Fragment) (payloadStart payloadLen payloadFromMoof : ℕ) :
    Except ReaderError Fragment := do
  let (runs, expected) ← attachRuns payloadFromMoof fragment.runs 0
  failIf (expected ≠ payloadLen)
    (other s!"source mdat size mismatch: trun={expected}, mdat={payloadLen}")
  .ok { fragment with runs, payloadStart, payloadLen }

/-- The last duration of a fragment's samples that is not zero. -/
def lastSampleDuration (fragment : Fragment) : UInt32 :=
  (((fragment.runs.flatMap Run.samples).map Sample.duration).reverse.find? fun d => d ≠ 0).getD 0

def firstPresentationTime (fragment : Fragment) : Except ReaderError ℤ :=
  match fragment.runs.head?.bind fun run => run.samples.head?.map fun sample => (run, sample) with
  | none => .error (other "video fragment has no first sample")
  | some (run, sample) => do
    let offset : ℤ :=
      if run.version = 1 then toI32 sample.compositionTimeOffsetRaw
      else sample.compositionTimeOffsetRaw.toNat
    failIf (fragment.decodeTime ≥ 2 ^ 63) (other "video decode time exceeds int64")
    let time := fragment.decodeTime + offset
    failIf (time ≥ 2 ^ 63 ∨ time < -2 ^ 63)
      (other (if offset > 0 then "presentation time overflow" else "presentation time underflow"))
    .ok time

def fragmentSampleCount (fragment : Fragment) : Except ReaderError ℕ := do
  failIf (fragment.runs.any fun run => run.samples.isEmpty) (other "fragment trun has no parsed samples")
  let total := (fragment.runs.map fun run => run.samples.length).sum
  failIf (total = 0) (other "fragment contains no samples")
  .ok total

/-- The sums of the durations and sizes of samples, each within 64 bits. -/
def sumSamples : List Sample → ℕ → ℕ → Except ReaderError (ℕ × ℕ)
  | [], duration, dataSize => .ok (duration, dataSize)
  | sample :: rest, duration, dataSize => do
    let duration ← add64 duration sample.duration.toNat (other "derived trun duration overflow")
    let dataSize ← add64 dataSize sample.size.toNat (other "derived trun payload size overflow")
    sumSamples rest duration dataSize

def buildExplicitRun (template : Run) (samples : List Sample) : Except ReaderError Run :=
  match samples with
  | [] => .error (other "cannot build trun without samples")
  | first :: _ => do
    let (duration, dataSize) ← sumSamples samples 0 0
    failIf (duration = 0 ∨ dataSize = 0) (other "invalid derived trun")
    .ok {
      samples, duration, dataSize
      version := template.version
      hasCompositionTimeOffsets := template.hasCompositionTimeOffsets
      startsWithSync := isSyncSample first.flags }

/-- Runs with the bytes and the duration before them, as a half of a split is filled. -/
structure Half where
  runs : List Run := []
  bytes : ℕ := 0
  duration : ℕ := 0
  deriving DecidableEq, Repr

/-- The samples of a run at the end of a half; none change nothing. -/
def Half.push (half : Half) (source : Run) (samples : List Sample) : Except ReaderError Half :=
  if samples = [] then .ok half
  else do
    let run ← buildExplicitRun source samples
    .ok ⟨half.runs ++ [{ run with payloadOffset := half.bytes }], half.bytes + run.dataSize,
      half.duration + run.duration⟩

/-- The runs of a fragment, the first `remaining` samples to the left. -/
def splitRuns : List Run → ℕ → Half → Half → Except ReaderError (ℕ × Half × Half)
  | [], remaining, left, right => .ok (remaining, left, right)
  | source :: rest, remaining, left, right => do
    failIf (source.samples = []) (other "cannot split a run without parsed samples")
    let take := min remaining source.samples.length
    let left ← left.push source (source.samples.take take)
    let right ← right.push source (source.samples.drop take)
    splitRuns rest (remaining - take) left right

def splitFragmentAtSample (fragment : Fragment) (split : ℕ) :
    Except ReaderError (Fragment × Fragment) := do
  let total ← fragmentSampleCount fragment
  failIf (split = 0 ∨ split ≥ total)
    (other s!"split sample must be inside fragment: split={split} total={total}")
  let (remaining, left, right) ← splitRuns fragment.runs split {} {}
  match left.runs, right.runs with
  | firstLeft :: _, firstRight :: _ => do
    failIf (remaining ≠ 0) (other "failed to partition fragment runs")
    failIf (left.duration + right.duration ≠ fragment.duration) (other "split fragment duration mismatch")
    failIf (left.bytes + right.bytes ≠ fragment.payloadLen)
      (other
        s!"split payload mismatch: left={left.bytes} right={right.bytes} source={fragment.payloadLen}")
    let decodeTime ←
      add64 fragment.decodeTime left.duration (other "right fragment decode time overflow")
    let template : Fragment := {
      trackId := fragment.trackId
      timescale := fragment.timescale
      sampleDescriptionIndex := fragment.sampleDescriptionIndex
      tfhd := fragment.tfhd }
    .ok ({ template with
        decodeTime := fragment.decodeTime
        duration := left.duration
        startsWithSync := firstLeft.startsWithSync
        runs := left.runs
        payloadStart := fragment.payloadStart
        payloadLen := left.bytes },
      { template with
        decodeTime
        duration := right.duration
        startsWithSync := firstRight.startsWithSync
        runs := right.runs
        payloadStart := fragment.payloadStart + left.bytes
        payloadLen := fragment.payloadLen - left.bytes })
  | _, _ => .error (other "failed to partition fragment runs")

/-- Each fragment goes on where the one before ends, on the same track. -/
def follows (first : Fragment) : ℕ → List Fragment → Bool
  | _, [] => true
  | expected, current :: rest =>
    current.trackId = first.trackId && current.timescale = first.timescale &&
      current.decodeTime = expected &&
      current.sampleDescriptionIndex = first.sampleDescriptionIndex &&
      current.tfhd = first.tfhd && follows first current.endTime rest

/-- `validateTrack`, on the fragments that are to be merged. -/
def validateTrack (fragments : List Fragment) : Except ReaderError Unit :=
  match fragments with
  | [] => .error (other "invalid fragment count")
  | first :: rest =>
    failIf (follows first first.endTime rest = false)
      (other s!"track {first.trackId} fragments cannot be merged into one traf")

/-- `assignOffsets`: where the runs lie in the payload of the segment, and its length. -/
def assignOffsets : List Fragment → ℕ → List Fragment × ℕ
  | [], outputOffset => ([], outputOffset)
  | fragment :: rest, outputOffset =>
    let (rest, length) := assignOffsets rest (outputOffset + fragment.payloadLen)
    ({ fragment with
      runs := fragment.runs.map fun run =>
        { run with outputOffset := outputOffset + run.payloadOffset } } :: rest, length)

def canonicalTrunSize (run : Run) : ℕ :=
  20 + run.samples.length * (if run.hasCompositionTimeOffsets then 16 else 12)

def trafSize (fragments : List Fragment) : ℕ :=
  8 + canonicalTfhdSize + 20 + ((fragments.flatMap Fragment.runs).map canonicalTrunSize).sum

def writeSample (hasCompositionTimeOffsets : Bool) (sample : Sample) : List UInt8 :=
  toBe32 sample.duration ++ toBe32 sample.size ++ toBe32 sample.flags ++
    if hasCompositionTimeOffsets then toBe32 sample.compositionTimeOffsetRaw else []

/-- The flags of a canonical `trun`. -/
def canonicalTrunFlags (run : Run) : UInt32 :=
  let flags := TrunFlag.dataOffset ||| TrunFlag.duration ||| TrunFlag.size ||| TrunFlag.flags
  if run.hasCompositionTimeOffsets then flags ||| TrunFlag.compositionOffset else flags

def writeCanonicalTrun (run : Run) (dataOffset : ℕ) : Except ReaderError (List UInt8) := do
  failIf (run.samples = []) (other "cannot write trun without samples")
  failIf (run.version > 1) (other s!"unsupported trun version={run.version}")
  failIf (canonicalTrunSize run > u32Max) (other "canonical trun is too large")
  .ok (toBe32 (UInt32.ofNat (canonicalTrunSize run)) ++ toBe32 Kind.trun ++
    toBe32 (run.version.toUInt32 <<< 24 ||| canonicalTrunFlags run) ++
    toBe32 (UInt32.ofNat run.samples.length) ++ toBe32 (UInt32.ofNat dataOffset) ++
    run.samples.flatMap (writeSample run.hasCompositionTimeOffsets))

/-- The `trun`s of a `traf`, with offsets counted from the `moof`. -/
def writeTruns (moofSize mdatHeaderSize : ℕ) : List Run → Except ReaderError (List UInt8)
  | [] => .ok []
  | run :: rest => do
    let offset := moofSize + mdatHeaderSize + run.outputOffset
    failIf (offset > i32Max) (other "trun.data_offset exceeds int32")
    let trun ← writeCanonicalTrun run offset
    let truns ← writeTruns moofSize mdatHeaderSize rest
    .ok (trun ++ truns)

def timelineNanoseconds (value : ℕ) (timescale : UInt32) : Except ReaderError ℕ := do
  failIf (timescale = 0) (other "timeline timescale is zero")
  let timescale := timescale.toNat
  failIf (value / timescale * 1000000000 > u64Max) (other "timeline nanoseconds overflow")
  add64 (value / timescale * 1000000000) (value % timescale * 1000000000 / timescale)
    (other "timeline nanoseconds overflow")

def toUnits (seconds : Binary64) (timescale : UInt32) : Except ReaderError ℕ := do
  let value := seconds.mul (.ofNat timescale.toNat)
  failIf (¬value.isFinite ∨ value.lt .zero ∨ (Binary64.ofNat u64Max).lt value)
    (other "invalid timeline value")
  .ok value.ceil.toU64

def addTfdtOffset (value : ℕ) (timescale : UInt32) (seconds : Binary64) : Except ReaderError ℕ :=
  if seconds.le .zero then .ok value
  else do
    let units := seconds.mul (.ofNat timescale.toNat)
    failIf (¬units.isFinite ∨ units.lt .zero ∨ (Binary64.ofNat u64Max).lt units)
      (other "invalid tfdt offset")
    add64 value units.round.toU64 (other "tfdt offset overflow")

/-- `scaledGreaterOrEqual`: `left / leftScale ≥ right / rightScale` with the scales
swapped across. -/
def scaledGreaterOrEqual (left : ℕ) (leftScale : UInt32) (right : ℕ) (rightScale : UInt32) : Bool :=
  left * leftScale.toNat ≥ right * rightScale.toNat

end Rustorr.Mp4
