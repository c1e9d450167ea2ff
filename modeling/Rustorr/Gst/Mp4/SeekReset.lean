import Rustorr.Gst.Mp4.Runs
import Rustorr.Lib.Mealy

/-! What a seek forgets: the reader with the whole of its header buffer, of which a reset keeps
the bytes, its calls one after the other, also those that fail, and that no call sees what the
buffer held before. -/

namespace Rustorr.Mp4

open BigEndian Except

namespace Reader

/-- What a failing call may write of a reader: neither its parameters nor its header. -/
def leave (r left : Reader) : Reader :=
  { left with
    segmentSeconds := r.segmentSeconds, segmentDiff := r.segmentDiff, cueMode := r.cueMode
    boxHeader := r.boxHeader, boxHeaderRequired := r.boxHeaderRequired }

end Reader

/-- What the calls that see no header leave of a reader when they fail. -/
structure Leavings where
  beginBox : Reader → ℕ → ℕ → Reader
  completeBox : Reader → Reader
  tryBuildSegment : Reader → Reader
  tryBuildEndOfStreamRemainder : Reader → Reader

/-- A reader and the rest of its header buffer, after the bytes read so far. -/
structure Buffered where
  reader : Reader
  stale : List UInt8
  deriving DecidableEq

namespace Buffered

def new (segmentSeconds : Binary64) (segmentDiff : ℤ) (cueMode : Bool) : Buffered :=
  ⟨Reader.new segmentSeconds segmentDiff cueMode, List.replicate 16 0⟩

variable (l : Leavings) (b : Buffered)

/-- `box_header`, all of it. -/
def boxHeader : List UInt8 := b.reader.boxHeader ++ b.stale

/-- `copy_from_slice` behind the bytes read so far. -/
def copyHeader (bytes : List UInt8) : Buffered :=
  ⟨{ b.reader with boxHeader := b.reader.boxHeader ++ bytes }, b.stale.drop bytes.length⟩

def resetBoxState : Buffered := ⟨b.reader.resetBoxState, b.boxHeader⟩

def seekReset (seconds : Binary64) : Buffered := ⟨b.reader.seekReset seconds, b.boxHeader⟩

/-- `?` after a call that may fail. -/
def andThen {α β : Type} (x : Except ReaderError α × Buffered)
    (f : α → Buffered → Except ReaderError β × Buffered) : Except ReaderError β × Buffered :=
  match x with
  | (.ok a, b) => f a b
  | (.error e, b) => (.error e, b)

/-- A call that sees no header. -/
def lift {α : Type} (call : Reader → Except ReaderError (Reader × α)) (left : Reader → Reader) :
    Except ReaderError α × Buffered :=
  match call b.reader with
  | .ok (r, a) => (.ok a, { b with reader := r })
  | .error e => (.error e, { b with reader := b.reader.leave (left b.reader) })

/-- `begin_box`, to which the first bytes of the buffer are the header. -/
def beginBox (size headerSize : ℕ) : Except ReaderError Unit × Buffered :=
  b.lift
    (fun r =>
      (Reader.beginBox { r with boxHeader := b.boxHeader.take headerSize } size headerSize).map
        fun r' => ({ r' with boxHeader := r.boxHeader }, ()))
    fun r => l.beginBox { r with boxHeader := b.boxHeader.take headerSize } size headerSize

/-- The end of a box, if there is nothing left of it. -/
def finishBox : Except ReaderError Bool × Buffered :=
  if b.reader.currentBoxRemaining = 0 then
    andThen (b.lift Reader.completeBox l.completeBox) fun completed b =>
      (.ok completed, b.resetBoxState)
  else (.ok false, b)

/-- A header that has the bytes it needs; an extended size needs more. -/
def finishHeader : Except ReaderError Bool × Buffered :=
  if b.reader.boxHeaderRequired = 8 then
    let size32 := be32 (b.boxHeader.take 4)
    let b := { b with reader := { b.reader with
      currentBoxType := be32 ((b.boxHeader.drop 4).take 4) } }
    if size32 = 1 then (.ok false, { b with reader := { b.reader with boxHeaderRequired := 16 } })
    else if size32 = 0 then (.error (other "top-level mp4 box size=0 is not supported"), b)
    else andThen (b.beginBox l size32.toNat 8) fun _ b => b.finishBox l
  else
    andThen (b.beginBox l (be64 ((b.boxHeader.drop 8).take 8)) 16) fun _ b => b.finishBox l

/-- The loop of `process_bytes`: what is left of the data, and whether a segment was
completed. -/
def processUpTo : ℕ → Buffered → List UInt8 → Except ReaderError (List UInt8 × Bool) × Buffered
  | 0, b, data => (.ok (data, false), b)
  | fuel + 1, b, data =>
    if data = [] then (.ok ([], false), b)
    else if b.reader.boxHeader.length < b.reader.boxHeaderRequired then
      let count := min (b.reader.boxHeaderRequired - b.reader.boxHeader.length) data.length
      let b := b.copyHeader (data.take count)
      if b.reader.boxHeader.length < b.reader.boxHeaderRequired then (.ok (data.drop count, false), b)
      else andThen (b.finishHeader l) fun completed b =>
        if completed then (.ok (data.drop count, true), b) else processUpTo fuel b (data.drop count)
    else
      let body := min data.length b.reader.currentBoxRemaining
      if body = 0 then (.ok (data, false), b)
      else
        let r := b.reader.writeCurrentBoxData (data.take body)
        let b := { b with reader := { r with currentBoxRemaining := r.currentBoxRemaining - body } }
        andThen (b.finishBox l) fun completed b =>
          if completed then (.ok (data.drop body, true), b) else processUpTo fuel b (data.drop body)

def processBytes (data : List UInt8) : Except ReaderError (List UInt8 × Bool) × Buffered :=
  processUpTo l data.length b data

def withDeferred (deferred : List UInt8) : Buffered := { b with reader := { b.reader with deferred } }

/-- `TryProcessDeferred`; data that was not taken waits as before. -/
def tryProcessDeferred : Except ReaderError Bool × Buffered :=
  andThen (b.lift Reader.tryBuildSegment l.tryBuildSegment) fun built b =>
    if built then (.ok true, b)
    else if b.reader.deferred = [] then (.ok false, b)
    else
      let data := b.reader.deferred
      match (b.withDeferred []).processBytes l data with
      | (.error e, b) => (.error e, b.withDeferred data)
      | (.ok (rest, true), b) => (.ok true, b.withDeferred rest)
      | (.ok (rest, false), b) =>
        if rest ≠ [] then
          (.error (other
            s!"mp4 parser consumed {data.length - rest.length} of {data.length} deferred bytes"),
            b.withDeferred data)
        else (.ok false, b)

def push (data : List UInt8) : Except ReaderError Unit × Buffered :=
  if data = [] then (.ok (), b)
  else andThen (b.tryProcessDeferred l) fun completed b =>
    if completed then (.ok (), b.withDeferred (b.reader.deferred ++ data))
    else andThen (b.processBytes l data) fun (rest, completed) b =>
      (.ok (), if completed then b.withDeferred (b.reader.deferred ++ rest) else b)

/-! ### Calls and their answers -/

inductive Call where
  | push (data : List UInt8)
  | tryProcessDeferred
  | tryBuildEndOfStreamRemainder
  | setTargetSegment (startNs endNs toleranceNs : ℕ)
  | setTimelineOffsetNs (offsetNs : ℕ)
  | seekReset (seconds : Binary64)
  | takeInit
  | takeSegment
  | hasVideo
  | videoStartsWithSync
  | endOfStreamError
  | undecodableRemainderError

inductive Answer where
  | done (result : Except ReaderError Unit)
  | built (result : Except ReaderError Bool)
  | init (bytes : Option (List UInt8))
  | segment (segment : Option Segment)
  | flag (yes : Bool)
  | ended (error : Option ReaderError)
  /-- The time of which the error tells, as the numbers it is worked out from. -/
  | undecodable (start : Option (ℕ × UInt32))

def step : Call → Answer × Buffered
  | .push data =>
    let (result, b) := b.push l data
    (.done result, b)
  | .tryProcessDeferred =>
    let (result, b) := b.tryProcessDeferred l
    (.built result, b)
  | .tryBuildEndOfStreamRemainder =>
    let (result, b) := b.lift Reader.tryBuildEndOfStreamRemainder l.tryBuildEndOfStreamRemainder
    (.built result, b)
  | .setTargetSegment startNs endNs toleranceNs =>
    match b.reader.setTargetSegment startNs endNs toleranceNs with
    | .ok r => (.done (.ok ()), { b with reader := r })
    | .error e => (.done (.error e), b)
  | .setTimelineOffsetNs offsetNs =>
    (.done (.ok ()), { b with reader := b.reader.setTimelineOffsetNs offsetNs })
  | .seekReset seconds => (.done (.ok ()), b.seekReset seconds)
  | .takeInit => (.init b.reader.newInit, { b with reader := { b.reader with newInit := none } })
  | .takeSegment =>
    (.segment b.reader.newSegment, { b with reader := { b.reader with newSegment := none } })
  | .hasVideo => (.flag b.reader.hasVideo, b)
  | .videoStartsWithSync => (.flag b.reader.videoStartsWithSync, b)
  | .endOfStreamError => (.ended b.reader.endOfStreamError, b)
  | .undecodableRemainderError =>
    (.undecodable ((b.reader.video.head?.filter fun f => f.timescale ≠ 0).map
      fun f => (f.decodeTime, f.timescale)), b)

end Buffered

/-! ### What calls leave alone -/

namespace Reader

variable {r r' : Reader}

/-- The parameters are the same, and so is the header. -/
structure SameFrame (r r' : Reader) : Prop where
  segmentSeconds : r'.segmentSeconds = r.segmentSeconds
  segmentDiff : r'.segmentDiff = r.segmentDiff
  cueMode : r'.cueMode = r.cueMode
  boxHeader : r'.boxHeader = r.boxHeader
  boxHeaderRequired : r'.boxHeaderRequired = r.boxHeaderRequired

theorem SameFrame.refl (r : Reader) : SameFrame r r := ⟨rfl, rfl, rfl, rfl, rfl⟩

theorem SameFrame.trans {r₁ : Reader} (h : SameFrame r r₁) (h' : SameFrame r₁ r') : SameFrame r r' :=
  ⟨h'.segmentSeconds.trans h.segmentSeconds, h'.segmentDiff.trans h.segmentDiff,
    h'.cueMode.trans h.cueMode, h'.boxHeader.trans h.boxHeader,
    h'.boxHeaderRequired.trans h.boxHeaderRequired⟩

theorem sameFrame_leave (r left : Reader) : SameFrame r (r.leave left) := ⟨rfl, rfl, rfl, rfl, rfl⟩

theorem sameFrame_writeCurrentBoxData (data : List UInt8) : SameFrame r (r.writeCurrentBoxData data) := by
  unfold writeCurrentBoxData
  split <;> exact ⟨rfl, rfl, rfl, rfl, rfl⟩

theorem sameFrame_selectAudioCount {videoEnd k : ℕ} (h : r.selectAudioCount videoEnd = .ok (r', k)) :
    SameFrame r r' := by
  obtain ⟨audio, -, rfl⟩ := selectAudioCount_cases h
  exact ⟨rfl, rfl, rfl, rfl, rfl⟩

theorem sameFrame_buildSegment {videoCount audioCount : ℕ} {allow : Bool}
    (h : r.buildSegment videoCount audioCount allow = .ok r') : SameFrame r r' := by
  obtain ⟨segment, -, -, -, -, rfl⟩ := buildSegment_cases h
  obtain ⟨start, sourcePayload, currentPayloadStart, hreclaim, -⟩ :=
    reclaimPayloads_cases (r.cutOff videoCount audioCount segment).resetPrefix
  rw [hreclaim]
  exact ⟨rfl, rfl, rfl, rfl, rfl⟩

theorem sameFrame_tryBuildSegment {built : Bool} (h : r.tryBuildSegment = .ok (r', built)) :
    SameFrame r r' := by
  rcases tryBuildSegment_cases h with ⟨-, rfl, -⟩ | ⟨k, -, -, ⟨-, hbuild, -⟩ | ⟨r₁, a, -, hselect, hcase⟩⟩
  · exact SameFrame.refl r'
  · exact sameFrame_buildSegment hbuild
  · rcases hcase with ⟨-, rfl, -⟩ | ⟨-, hbuild, -⟩
    · exact sameFrame_selectAudioCount hselect
    · exact (sameFrame_selectAudioCount hselect).trans (sameFrame_buildSegment hbuild)

theorem sameFrame_completeBox {completed : Bool} (h : r.completeBox = .ok (r', completed)) :
    SameFrame r r' := by
  rcases completeBox_cases h with ⟨-, -, -, hcloses⟩ | ⟨-, -, hmoof⟩ | ⟨-, r₁, hmdat, hbuild⟩
  · obtain ⟨styp, sourceStyp, sourceMfraDone, moovCompleted, sourceFinalMoovDone, rfl⟩ := hcloses
    exact ⟨rfl, rfl, rfl, rfl, rfl⟩
  · obtain ⟨fragment, video, audio, vd, vt, ad, t, -, -, rfl⟩ := completeMoof_cases hmoof
    exact ⟨rfl, rfl, rfl, rfl, rfl⟩
  · have hfirst : SameFrame r r₁ := by
      obtain ⟨pending, fragment, -, -, ⟨-, rfl⟩ | ⟨-, -, rfl⟩⟩ := completeMdat_cases hmdat
      · exact ⟨rfl, rfl, rfl, rfl, rfl⟩
      · exact ⟨rfl, rfl, rfl, rfl, rfl⟩
    exact hfirst.trans (sameFrame_tryBuildSegment hbuild)

theorem sameFrame_begins (h : r.begins r') : SameFrame r r' := by
  rcases h with ⟨-, -, rfl⟩ | ⟨-, -, n, rfl⟩ | ⟨-, -, n, sourceStyp, active, boxes, target, -, rfl⟩
  · exact ⟨rfl, rfl, rfl, rfl, rfl⟩
  · exact ⟨rfl, rfl, rfl, rfl, rfl⟩
  · exact ⟨rfl, rfl, rfl, rfl, rfl⟩

theorem sameFrame_beginBox {size headerSize : ℕ} (h : r.beginBox size headerSize = .ok r') :
    SameFrame r r' := by
  obtain ⟨-, ⟨-, -, -, rfl⟩ | ⟨-, video, audio, newInit, hbegins⟩ | ⟨-, hbegins⟩⟩ := beginBox_cases h
  · exact ⟨rfl, rfl, rfl, rfl, rfl⟩
  · have hframe := sameFrame_begins hbegins
    exact ⟨hframe.1, hframe.2, hframe.3, hframe.4, hframe.5⟩
  · have hframe := sameFrame_begins hbegins
    exact ⟨hframe.1, hframe.2, hframe.3, hframe.4, hframe.5⟩

theorem remainder_false (h : r.tryBuildEndOfStreamRemainder = .ok (r', false)) : r' = r := by
  unfold tryBuildEndOfStreamRemainder at h
  split at h
  · cases h
    rfl
  split at h
  · cases h
    rfl
  split at h
  · cases h
    rfl
  simp only at h
  split at h
  · obtain ⟨⟨r₀, selected⟩, -, h⟩ := bind_eq_ok.mp h
    rw [ok_bind] at h
    obtain ⟨r₂, -, h⟩ := bind_eq_ok.mp h
    cases h
  · rw [ok_bind] at h
    obtain ⟨r₂, -, h⟩ := bind_eq_ok.mp h
    cases h

theorem sameFrame_remainder {built : Bool} (h : r.tryBuildEndOfStreamRemainder = .ok (r', built)) :
    SameFrame r r' := by
  cases built with
  | false =>
    rw [remainder_false h]
    exact SameFrame.refl r
  | true =>
    obtain ⟨r₁, r₂, audioCount, -, hselect, hbuild, rfl⟩ := remainder_cases h
    have hframe : SameFrame r r₂ := by
      rcases hselect with ⟨-, -, selected, hselect, -⟩ | ⟨-, rfl, -⟩
      · exact (sameFrame_selectAudioCount hselect).trans (sameFrame_buildSegment hbuild)
      · exact sameFrame_buildSegment hbuild
    split
    · exact ⟨hframe.1, hframe.2, hframe.3, hframe.4, hframe.5⟩
    · exact hframe

theorem sameFrame_setTargetSegment {startNs endNs toleranceNs : ℕ}
    (h : r.setTargetSegment startNs endNs toleranceNs = .ok r') : SameFrame r r' := by
  unfold setTargetSegment at h
  split at h
  · cases h
    exact SameFrame.refl r
  · obtain ⟨u, -, h⟩ := bind_eq_ok.mp h
    cases h
    exact ⟨rfl, rfl, rfl, rfl, rfl⟩

end Reader

/-! ### Readers that differ in old bytes of the buffer only -/

/-- The parameters of a reader, and the two sizes of a header. -/
structure Fit (segmentSeconds : Binary64) (segmentDiff : ℤ) (cueMode : Bool) (r : Reader) : Prop where
  segmentSeconds : r.segmentSeconds = segmentSeconds
  segmentDiff : r.segmentDiff = segmentDiff
  cueMode : r.cueMode = cueMode
  required : r.boxHeaderRequired = 8 ∨ r.boxHeaderRequired = 16

namespace Buffered

variable {seconds : Binary64} {diff : ℤ} {cue : Bool} {l : Leavings} {b b' : Buffered}

theorem Fit.of_sameFrame {r r' : Reader} (h : Fit seconds diff cue r) (hframe : r.SameFrame r') :
    Fit seconds diff cue r' :=
  ⟨hframe.segmentSeconds.trans h.segmentSeconds, hframe.segmentDiff.trans h.segmentDiff,
    hframe.cueMode.trans h.cueMode, by
      rw [hframe.boxHeaderRequired]
      exact h.required⟩

/-- Two readers that differ in old bytes only. -/
def Alike (seconds : Binary64) (diff : ℤ) (cue : Bool) (b b' : Buffered) : Prop :=
  b.reader = b'.reader ∧ Fit seconds diff cue b.reader

theorem Alike.self (h : Fit seconds diff cue b.reader) : Alike seconds diff cue b b := ⟨rfl, h⟩

/-- Two results that differ in old bytes only. -/
def Agree {α : Type} (seconds : Binary64) (diff : ℤ) (cue : Bool)
    (x y : Except ReaderError α × Buffered) : Prop :=
  x.1 = y.1 ∧ Alike seconds diff cue x.2 y.2

theorem agree_andThen {α β : Type} {x y : Except ReaderError α × Buffered}
    {f g : α → Buffered → Except ReaderError β × Buffered} (h : Agree seconds diff cue x y)
    (hf : ∀ a b b', Alike seconds diff cue b b' → Agree seconds diff cue (f a b) (g a b')) :
    Agree seconds diff cue (andThen x f) (andThen y g) := by
  obtain ⟨result, b⟩ := x
  obtain ⟨result', b'⟩ := y
  obtain ⟨hresult, halike⟩ := h
  simp only at hresult halike
  subst hresult
  cases result with
  | error e => exact ⟨rfl, halike⟩
  | ok a => exact hf a b b' halike

theorem agree_lift {α : Type} {call : Reader → Except ReaderError (Reader × α)} (left : Reader → Reader)
    (hcall : ∀ r r' a, call r = .ok (r', a) → r.SameFrame r') (h : Alike seconds diff cue b b') :
    Agree seconds diff cue (b.lift call left) (b'.lift call left) := by
  obtain ⟨hsame, hfit⟩ := h
  unfold lift
  rw [← hsame]
  cases hresult : call b.reader with
  | error e => exact ⟨rfl, rfl, Fit.of_sameFrame hfit (Reader.sameFrame_leave _ _)⟩
  | ok result =>
    obtain ⟨r, a⟩ := result
    exact ⟨rfl, rfl, Fit.of_sameFrame hfit (hcall _ _ _ hresult)⟩

theorem alike_resetBoxState (h : Alike seconds diff cue b b') :
    Alike seconds diff cue b.resetBoxState b'.resetBoxState := by
  obtain ⟨hsame, hfit⟩ := h
  unfold resetBoxState
  rw [← hsame]
  exact ⟨rfl, hfit.segmentSeconds, hfit.segmentDiff, hfit.cueMode, Or.inl rfl⟩

theorem agree_finishBox (h : Alike seconds diff cue b b') :
    Agree seconds diff cue (b.finishBox l) (b'.finishBox l) := by
  unfold finishBox
  rw [← h.1]
  split
  · apply agree_andThen (agree_lift _ (fun r r' a => Reader.sameFrame_completeBox) h)
    exact fun a b b' h => ⟨rfl, alike_resetBoxState h⟩
  · exact ⟨rfl, h⟩

/-- The first bytes of a buffer are those read so far. -/
theorem take_boxHeader (h : b.reader.boxHeader.length = n) : b.boxHeader.take n = b.reader.boxHeader :=
  List.take_left' h

theorem agree_beginBox {size headerSize : ℕ} (h : Alike seconds diff cue b b')
    (hlength : b.reader.boxHeader.length = headerSize) :
    Agree seconds diff cue (b.beginBox l size headerSize) (b'.beginBox l size headerSize) := by
  have hlength' : b'.reader.boxHeader.length = headerSize := by
    rw [← h.1]
    exact hlength
  unfold beginBox
  rw [take_boxHeader hlength, take_boxHeader hlength', ← h.1]
  apply agree_lift _ _ h
  intro r r' u hbegin
  cases hresult : Reader.beginBox { r with boxHeader := b.reader.boxHeader } size headerSize with
  | error e =>
    rw [hresult] at hbegin
    cases hbegin
  | ok r₁ =>
    rw [hresult] at hbegin
    cases hbegin
    have hframe := Reader.sameFrame_beginBox hresult
    exact ⟨hframe.segmentSeconds, hframe.segmentDiff, hframe.cueMode, rfl, hframe.boxHeaderRequired⟩

/-- The bytes of a header that were read are where the buffer begins. -/
theorem slice_boxHeader {n : ℕ} (k m : ℕ) (hlength : b.reader.boxHeader.length = n)
    (hle : k + m ≤ n) : (b.boxHeader.drop k).take m = (b.reader.boxHeader.drop k).take m := by
  rw [← take_boxHeader hlength, List.drop_take, List.take_take, Nat.min_eq_left (by omega)]

/-- A full header is read from the bytes that were read for it. -/
theorem agree_finishHeader (h : Alike seconds diff cue b b')
    (hfull : b.reader.boxHeader.length = b.reader.boxHeaderRequired) :
    Agree seconds diff cue (b.finishHeader l) (b'.finishHeader l) := by
  have hfinish : ∀ {c c' : Buffered} {size headerSize : ℕ}, Alike seconds diff cue c c' →
      c.reader.boxHeader.length = headerSize →
      Agree seconds diff cue (andThen (c.beginBox l size headerSize) fun _ c => c.finishBox l)
        (andThen (c'.beginBox l size headerSize) fun _ c => c.finishBox l) := fun hc hlength =>
    agree_andThen (agree_beginBox hc hlength) fun _ c c' hc => agree_finishBox hc
  obtain ⟨hsame, hfit⟩ := h
  unfold finishHeader
  rw [← hsame]
  split
  · next hrequired =>
    rw [hrequired] at hfull
    have hfull' : b'.reader.boxHeader.length = 8 := by
      rw [← hsame]
      exact hfull
    have hsize := slice_boxHeader 0 4 hfull (by decide)
    have hsize' := slice_boxHeader 0 4 hfull' (by decide)
    rw [List.drop_zero, List.drop_zero] at hsize hsize'
    simp only
    rw [hsize, slice_boxHeader 4 4 hfull (by decide), slice_boxHeader 4 4 hfull' (by decide), hsize', ← hsame]
    have hnext : ∀ {kind : UInt32}, Alike seconds diff cue
        { b with reader := { b.reader with currentBoxType := kind } }
        { b' with reader := { b.reader with currentBoxType := kind } } := fun {kind} =>
      ⟨rfl, hfit.segmentSeconds, hfit.segmentDiff, hfit.cueMode, hfit.required⟩
    split_ifs
    · exact ⟨rfl, rfl, hfit.segmentSeconds, hfit.segmentDiff, hfit.cueMode, Or.inr rfl⟩
    · exact ⟨rfl, hnext⟩
    · exact hfinish hnext hfull
  · next hrequired =>
    have hlong := hfit.required.resolve_left hrequired
    rw [hlong] at hfull
    have hfull' : b'.reader.boxHeader.length = 16 := by
      rw [← hsame]
      exact hfull
    rw [slice_boxHeader 8 8 hfull (by decide), slice_boxHeader 8 8 hfull' (by decide), ← hsame]
    exact hfinish ⟨hsame, hfit⟩ hfull

theorem alike_copyHeader (h : Alike seconds diff cue b b') (bytes : List UInt8) :
    Alike seconds diff cue (b.copyHeader bytes) (b'.copyHeader bytes) := by
  obtain ⟨hsame, hfit⟩ := h
  unfold copyHeader
  rw [← hsame]
  exact ⟨rfl, hfit.segmentSeconds, hfit.segmentDiff, hfit.cueMode, hfit.required⟩

theorem copyHeader_required (b : Buffered) (bytes : List UInt8) :
    (b.copyHeader bytes).reader.boxHeaderRequired = b.reader.boxHeaderRequired := rfl

/-- No more is copied than a header needs. -/
theorem length_copyHeader {data : List UInt8}
    (hheader : b.reader.boxHeader.length < b.reader.boxHeaderRequired)
    (hfull : ¬(b.copyHeader (data.take (min (b.reader.boxHeaderRequired - b.reader.boxHeader.length)
      data.length))).reader.boxHeader.length < b.reader.boxHeaderRequired) :
    (b.copyHeader (data.take (min (b.reader.boxHeaderRequired - b.reader.boxHeader.length)
      data.length))).reader.boxHeader.length = b.reader.boxHeaderRequired := by
  have hlength : (b.copyHeader (data.take (min (b.reader.boxHeaderRequired - b.reader.boxHeader.length)
      data.length))).reader.boxHeader.length = b.reader.boxHeader.length +
        min (b.reader.boxHeaderRequired - b.reader.boxHeader.length) data.length := by
    show (b.reader.boxHeader ++ _).length = _
    rw [List.length_append, List.length_take, Nat.min_eq_left (Nat.min_le_right _ _)]
  rw [hlength] at hfull ⊢
  omega

theorem alike_withDeferred (h : Alike seconds diff cue b b') (deferred : List UInt8) :
    Alike seconds diff cue (b.withDeferred deferred) (b'.withDeferred deferred) := by
  obtain ⟨hsame, hfit⟩ := h
  unfold withDeferred
  rw [← hsame]
  exact ⟨rfl, hfit.segmentSeconds, hfit.segmentDiff, hfit.cueMode, hfit.required⟩

theorem agree_processUpTo (fuel : ℕ) (data : List UInt8) (h : Alike seconds diff cue b b') :
    Agree seconds diff cue (processUpTo l fuel b data) (processUpTo l fuel b' data) := by
  induction fuel generalizing b b' data with
  | zero => exact ⟨rfl, h⟩
  | succ fuel ih =>
    have hrest : ∀ {x y : Except ReaderError Bool × Buffered} (rest : List UInt8),
        Agree seconds diff cue x y → Agree seconds diff cue
          (andThen x fun completed b =>
            if completed then (.ok (rest, true), b) else processUpTo l fuel b rest)
          (andThen y fun completed b =>
            if completed then (.ok (rest, true), b) else processUpTo l fuel b rest) := by
      intro x y rest hxy
      apply agree_andThen hxy
      intro completed c c' hc
      split
      · exact ⟨rfl, hc⟩
      · exact ih rest hc
    unfold processUpTo
    split
    · exact ⟨rfl, h⟩
    rw [← h.1]
    split
    · next hheader =>
      simp only
      have hcopy := alike_copyHeader h
        (data.take (min (b.reader.boxHeaderRequired - b.reader.boxHeader.length) data.length))
      rw [← hcopy.1]
      split
      · exact ⟨rfl, hcopy⟩
      · next hfull =>
        apply hrest
        apply agree_finishHeader hcopy
        exact length_copyHeader hheader hfull
    · simp only
      split
      · exact ⟨rfl, h⟩
      · apply hrest
        apply agree_finishBox
        have hframe := Reader.sameFrame_writeCurrentBoxData (r := b.reader)
          (data.take (min data.length b.reader.currentBoxRemaining))
        have hfit := Fit.of_sameFrame h.2 hframe
        exact ⟨rfl, hfit.segmentSeconds, hfit.segmentDiff, hfit.cueMode, hfit.required⟩

theorem agree_tryProcessDeferred (h : Alike seconds diff cue b b') :
    Agree seconds diff cue (b.tryProcessDeferred l) (b'.tryProcessDeferred l) := by
  unfold tryProcessDeferred
  apply agree_andThen (agree_lift _ (fun r r' a => Reader.sameFrame_tryBuildSegment) h)
  intro built c c' hc
  split
  · exact ⟨rfl, hc⟩
  rw [← hc.1]
  split
  · exact ⟨rfl, hc⟩
  have hprocess := agree_processUpTo (l := l) c.reader.deferred.length c.reader.deferred
    (alike_withDeferred hc [])
  simp only
  unfold processBytes
  obtain ⟨hresult, halike⟩ := hprocess
  rcases hx : processUpTo l c.reader.deferred.length (c.withDeferred []) c.reader.deferred with ⟨x, d⟩
  rcases hy : processUpTo l c.reader.deferred.length (c'.withDeferred []) c.reader.deferred with ⟨y, d'⟩
  rw [hx, hy] at hresult halike
  simp only at hresult halike
  subst hresult
  cases x with
  | error e => exact ⟨rfl, alike_withDeferred halike _⟩
  | ok result =>
    obtain ⟨rest, completed⟩ := result
    cases completed with
    | true => exact ⟨rfl, alike_withDeferred halike rest⟩
    | false =>
      simp only
      split
      · exact ⟨rfl, alike_withDeferred halike _⟩
      · exact ⟨rfl, halike⟩

theorem agree_push (data : List UInt8) (h : Alike seconds diff cue b b') :
    Agree seconds diff cue (b.push l data) (b'.push l data) := by
  unfold push
  split
  · exact ⟨rfl, h⟩
  apply agree_andThen (agree_tryProcessDeferred h)
  intro completed c c' hc
  split
  · rw [← hc.1]
    exact ⟨rfl, alike_withDeferred hc _⟩
  apply agree_andThen (agree_processUpTo _ data hc)
  rintro ⟨rest, done⟩ d d' hd
  refine ⟨rfl, ?_⟩
  simp only
  split
  · rw [← hd.1]
    exact alike_withDeferred hd _
  · exact hd

theorem alike_seekReset (h : Alike seconds diff cue b b') (offset : Binary64) :
    Alike seconds diff cue (b.seekReset offset) (b'.seekReset offset) := by
  obtain ⟨hsame, hfit⟩ := h
  unfold seekReset
  rw [← hsame]
  exact ⟨rfl, hfit.segmentSeconds, hfit.segmentDiff, hfit.cueMode, Or.inl rfl⟩

theorem agree_step (call : Call) (h : Alike seconds diff cue b b') :
    (b.step l call).1 = (b'.step l call).1 ∧
      Alike seconds diff cue (b.step l call).2 (b'.step l call).2 := by
  cases call with
  | push data =>
    obtain ⟨hresult, halike⟩ := agree_push (l := l) data h
    exact ⟨congrArg Answer.done hresult, halike⟩
  | tryProcessDeferred =>
    obtain ⟨hresult, halike⟩ := agree_tryProcessDeferred (l := l) h
    exact ⟨congrArg Answer.built hresult, halike⟩
  | tryBuildEndOfStreamRemainder =>
    obtain ⟨hresult, halike⟩ := agree_lift l.tryBuildEndOfStreamRemainder
      (fun r r' a => Reader.sameFrame_remainder) h
    exact ⟨congrArg Answer.built hresult, halike⟩
  | setTargetSegment startNs endNs toleranceNs =>
    obtain ⟨hsame, hfit⟩ := h
    simp only [step]
    rw [← hsame]
    cases htarget : b.reader.setTargetSegment startNs endNs toleranceNs with
    | error e => exact ⟨rfl, hsame, hfit⟩
    | ok r => exact ⟨rfl, rfl, Fit.of_sameFrame hfit (Reader.sameFrame_setTargetSegment htarget)⟩
  | setTimelineOffsetNs offsetNs =>
    obtain ⟨hsame, hfit⟩ := h
    refine ⟨rfl, ?_⟩
    simp only [step]
    rw [← hsame]
    exact ⟨rfl, hfit.segmentSeconds, hfit.segmentDiff, hfit.cueMode, hfit.required⟩
  | seekReset offset => exact ⟨rfl, alike_seekReset h offset⟩
  | takeInit =>
    obtain ⟨hsame, hfit⟩ := h
    simp only [step]
    rw [← hsame]
    exact ⟨rfl, rfl, hfit.segmentSeconds, hfit.segmentDiff, hfit.cueMode, hfit.required⟩
  | takeSegment =>
    obtain ⟨hsame, hfit⟩ := h
    simp only [step]
    rw [← hsame]
    exact ⟨rfl, rfl, hfit.segmentSeconds, hfit.segmentDiff, hfit.cueMode, hfit.required⟩
  | hasVideo | videoStartsWithSync | endOfStreamError | undecodableRemainderError =>
    refine ⟨?_, h⟩
    simp only [step]
    rw [h.1]

/-! ### The reader without the old bytes -/

/-- A call does as one does of which only the successes are told. -/
def Matches {α : Type} (x : Except ReaderError α × Buffered) (y : Except ReaderError (Reader × α)) : Prop :=
  match y with
  | .ok (r, a) => x = (.ok a, { x.2 with reader := r })
  | .error e => x.1 = .error e

theorem matches_lift {α : Type} (b : Buffered) (call : Reader → Except ReaderError (Reader × α))
    (left : Reader → Reader) : Matches (b.lift call left) (call b.reader) := by
  unfold Matches lift
  cases call b.reader with
  | error e => rfl
  | ok result => rfl

theorem matches_andThen {α β : Type} {x : Except ReaderError α × Buffered}
    {y : Except ReaderError (Reader × α)} {f : α → Buffered → Except ReaderError β × Buffered}
    {g : Reader × α → Except ReaderError (Reader × β)} (h : Matches x y)
    (hf : ∀ a b, x = (.ok a, b) → Matches (f a b) (g (b.reader, a))) :
    Matches (andThen x f) (y >>= g) := by
  unfold Matches at h
  obtain ⟨result, b⟩ := x
  cases y with
  | error e =>
    simp only at h
    subst h
    rfl
  | ok result' =>
    obtain ⟨r, a⟩ := result'
    simp only [Prod.mk.injEq] at h
    obtain ⟨rfl, hb⟩ := h
    have hnext := hf a b rfl
    rw [hb] at hnext
    rw [hb]
    exact hnext

theorem matches_finishBox (b : Buffered) : Matches (b.finishBox l) b.reader.finishBox := by
  unfold finishBox Reader.finishBox
  split
  · exact matches_andThen (matches_lift b _ _) fun completed c hc => rfl
  · rfl

theorem matches_beginBox (size : ℕ) {headerSize : ℕ} (hlength : b.reader.boxHeader.length = headerSize) :
    Matches (b.beginBox l size headerSize) ((b.reader.beginBox size headerSize).map fun r => (r, ())) := by
  have hmatch := matches_lift b
    (fun r => (Reader.beginBox { r with boxHeader := b.boxHeader.take headerSize } size headerSize).map
      fun r' => ({ r' with boxHeader := r.boxHeader }, ()))
    fun r => l.beginBox { r with boxHeader := b.boxHeader.take headerSize } size headerSize
  unfold beginBox
  rw [take_boxHeader hlength] at hmatch ⊢
  have hsame : ((Reader.beginBox { b.reader with boxHeader := b.reader.boxHeader } size headerSize).map
      fun r' : Reader => (({ r' with boxHeader := b.reader.boxHeader } : Reader), ())) =
        (b.reader.beginBox size headerSize).map fun r => (r, ()) := by
    show (b.reader.beginBox size headerSize).map _ = _
    cases hbegin : b.reader.beginBox size headerSize with
    | error e => rfl
    | ok r =>
      have hframe := Reader.sameFrame_beginBox hbegin
      show Except.ok (({ r with boxHeader := b.reader.boxHeader } : Reader), ()) = .ok (r, ())
      rw [← hframe.boxHeader]
  rwa [hsame] at hmatch

theorem be32_take (bytes : List UInt8) : be32 (bytes.take 4) = be32 bytes := by
  match bytes with
  | [] | [_] | [_, _] | [_, _, _] | _ :: _ :: _ :: _ :: _ => rfl

theorem be64_take (bytes : List UInt8) : be64 (bytes.take 8) = be64 bytes := by
  have hlow : (bytes.take 8).take 4 = bytes.take 4 := by rw [List.take_take]; rfl
  have hhigh : (bytes.take 8).drop 4 = (bytes.drop 4).take 4 := by rw [List.drop_take]
  unfold be64
  rw [← be32_take (bytes.take 8), hlow, hhigh, be32_take, be32_take]

theorem matches_body {size headerSize : ℕ} (hlength : b.reader.boxHeader.length = headerSize) :
    Matches (andThen (b.beginBox l size headerSize) fun _ b => b.finishBox l)
      (b.reader.beginBox size headerSize >>= Reader.finishBox) := by
  have hmatch := matches_andThen (g := fun result : Reader × Unit => result.1.finishBox)
    (matches_beginBox (l := l) size hlength) fun _ c _ => matches_finishBox (l := l) c
  cases hbegin : b.reader.beginBox size headerSize with
  | error e =>
    rw [hbegin] at hmatch
    exact hmatch
  | ok r =>
    rw [hbegin] at hmatch
    exact hmatch

theorem matches_finishHeader (hfit : Fit seconds diff cue b.reader)
    (hfull : b.reader.boxHeader.length = b.reader.boxHeaderRequired) :
    Matches (b.finishHeader l) b.reader.finishHeader := by
  unfold finishHeader Reader.finishHeader
  split
  · next hrequired =>
    rw [hrequired] at hfull
    have hsize := slice_boxHeader 0 4 hfull (by decide)
    rw [List.drop_zero, List.drop_zero] at hsize
    simp only
    rw [hsize, slice_boxHeader 4 4 hfull (by decide), be32_take, be32_take]
    split
    · rfl
    split
    · next hzero =>
      rw [failIf_of_bad hzero]
      rfl
    · next hzero =>
      rw [failIf_of_not hzero, ok_bind]
      exact matches_body hfull
  · next hrequired =>
    have hlong := hfit.required.resolve_left hrequired
    rw [hlong] at hfull
    rw [slice_boxHeader 8 8 hfull (by decide), be64_take]
    exact matches_body hfull

theorem matches_processUpTo (fuel : ℕ) (data : List UInt8) (hfit : Fit seconds diff cue b.reader) :
    Matches (processUpTo l fuel b data) (Reader.processUpTo fuel b.reader data) := by
  induction fuel generalizing b data with
  | zero => rfl
  | succ fuel ih =>
    unfold processUpTo Reader.processUpTo
    split
    · rfl
    split
    · next hheader =>
      simp only
      have hcopy := (alike_copyHeader (Alike.self hfit)
        (data.take (min (b.reader.boxHeaderRequired - b.reader.boxHeader.length) data.length)))
      rw [copyHeader_required]
      by_cases hfull : (b.copyHeader (data.take (min (b.reader.boxHeaderRequired -
          b.reader.boxHeader.length) data.length))).reader.boxHeader.length < b.reader.boxHeaderRequired
      · have hfull' := hfull
        unfold copyHeader at hfull'
        rw [if_pos hfull, if_pos hfull']
        rfl
      · have hlength := length_copyHeader hheader hfull
        have hfull' := hfull
        unfold copyHeader at hfull'
        rw [if_neg hfull, if_neg hfull']
        apply matches_andThen (matches_finishHeader hcopy.2 hlength)
        intro completed c hc
        have hnext := (agree_finishHeader (l := l) hcopy hlength).2.2
        rw [hc] at hnext
        simp only
        split
        · rfl
        · exact ih _ hnext
    · simp only
      split
      · rfl
      · have hfit' : Fit seconds diff cue { b.reader.writeCurrentBoxData
            (data.take (min data.length b.reader.currentBoxRemaining)) with
              currentBoxRemaining := (b.reader.writeCurrentBoxData (data.take
                (min data.length b.reader.currentBoxRemaining))).currentBoxRemaining -
                  min data.length b.reader.currentBoxRemaining } := by
          have hfit := Fit.of_sameFrame hfit (Reader.sameFrame_writeCurrentBoxData
            (data.take (min data.length b.reader.currentBoxRemaining)))
          exact ⟨hfit.segmentSeconds, hfit.segmentDiff, hfit.cueMode, hfit.required⟩
        have hagree := agree_finishBox (l := l)
          (Alike.self (b := { b with reader := _ }) hfit')
        apply matches_andThen (matches_finishBox _)
        intro completed c hc
        rw [hc] at hagree
        simp only
        split
        · rfl
        · exact ih _ hagree.2.2

/-- `TryProcessDeferred` as the reader without the old bytes does it. -/
theorem matches_tryProcessDeferred (hfit : Fit seconds diff cue b.reader) :
    Matches (b.tryProcessDeferred l) b.reader.tryProcessDeferred := by
  unfold tryProcessDeferred Reader.tryProcessDeferred
  have hlift := agree_lift l.tryBuildSegment
    (fun r r' a => Reader.sameFrame_tryBuildSegment) (Alike.self hfit)
  apply matches_andThen (matches_lift b _ _)
  intro built c hc
  rw [hc] at hlift
  have hfit := hlift.2.2
  simp only
  split
  · rfl
  split
  · rfl
  have hprocess := matches_processUpTo (l := l) (b := c.withDeferred []) c.reader.deferred.length
    c.reader.deferred ⟨hfit.segmentSeconds, hfit.segmentDiff, hfit.cueMode, hfit.required⟩
  unfold processBytes Reader.processBytes
  rcases hx : processUpTo l c.reader.deferred.length (c.withDeferred []) c.reader.deferred with ⟨x, d⟩
  rw [hx] at hprocess
  unfold Matches withDeferred at hprocess
  simp only at hprocess ⊢
  cases hmodel : Reader.processUpTo c.reader.deferred.length { c.reader with deferred := [] }
      c.reader.deferred with
  | error e =>
    rw [hmodel] at hprocess
    simp only at hprocess
    rw [hprocess]
    rfl
  | ok result =>
    obtain ⟨r, rest, completed⟩ := result
    rw [hmodel] at hprocess
    simp only [Prod.mk.injEq] at hprocess
    obtain ⟨rfl, hd⟩ := hprocess
    rw [ok_bind, hd]
    cases completed with
    | true => rfl
    | false =>
      simp only
      split
      · next hrest =>
        rw [if_neg Bool.false_ne_true, failIf_of_bad hrest]
        rfl
      · next hrest =>
        rw [if_neg Bool.false_ne_true, failIf_of_not hrest, ok_bind]
        rfl

/-- `Push` as the reader without the old bytes does it. -/
theorem matches_push (data : List UInt8) (hfit : Fit seconds diff cue b.reader) :
    Matches (b.push l data) ((b.reader.push data).map fun r => (r, ())) := by
  unfold push Reader.push
  split
  · rfl
  have hdeferred := agree_tryProcessDeferred (l := l) (Alike.self hfit)
  have hmap : ((b.reader.tryProcessDeferred >>= fun p =>
      if p.2 then Except.ok ({ p.1 with deferred := p.1.deferred ++ data } : Reader)
      else p.1.processBytes data >>= fun q =>
        .ok (if q.2.2 then ({ q.1 with deferred := q.1.deferred ++ q.2.1 } : Reader) else q.1)).map
          fun r => (r, ())) =
      b.reader.tryProcessDeferred >>= fun p =>
        if p.2 then Except.ok (({ p.1 with deferred := p.1.deferred ++ data } : Reader), ())
        else p.1.processBytes data >>= fun q =>
          .ok ((if q.2.2 then ({ q.1 with deferred := q.1.deferred ++ q.2.1 } : Reader) else q.1), ()) := by
    cases b.reader.tryProcessDeferred with
    | error e => rfl
    | ok result =>
      obtain ⟨r, completed⟩ := result
      cases completed with
      | true => rfl
      | false =>
        show Except.map _ (r.processBytes data >>= _) = r.processBytes data >>= _
        cases r.processBytes data <;> rfl
  refine (congrArg (Matches _) hmap).mpr ?_
  apply matches_andThen (matches_tryProcessDeferred hfit)
  intro completed c hc
  rw [hc] at hdeferred
  simp only
  split
  · rfl
  · have hprocess := matches_processUpTo (l := l) data.length data hdeferred.2.2
    apply matches_andThen hprocess
    rintro ⟨rest, done⟩ d hd
    cases done <;> rfl

/-! ### After a seek -/

/-- The clock that a seek sets: a time that is no time counts as none. -/
def timelineOffset (seconds : Binary64) : Binary64 :=
  if seconds.isFinite ∧ Binary64.zero.lt seconds then seconds else .zero

/-- A fresh reader whose clock is set. -/
def newAt (segmentSeconds : Binary64) (segmentDiff : ℤ) (cueMode : Bool) (seconds : Binary64) : Buffered :=
  let b := new segmentSeconds segmentDiff cueMode
  { b with reader := { b.reader with tfdtOffsetSeconds := timelineOffset seconds } }

variable {segmentSeconds : Binary64} {segmentDiff : ℤ} {cueMode : Bool}

/-- The parameters of a fresh reader. -/
def FitNew (segmentSeconds : Binary64) (segmentDiff : ℤ) (cueMode : Bool) : Reader → Prop :=
  let r := Reader.new segmentSeconds segmentDiff cueMode
  Fit r.segmentSeconds r.segmentDiff r.cueMode

theorem fitNew_new : FitNew segmentSeconds segmentDiff cueMode
    (new segmentSeconds segmentDiff cueMode).reader := ⟨rfl, rfl, rfl, Or.inl rfl⟩

/-- Whatever was called, the parameters are those the reader was made with. -/
theorem fitNew_after (calls : List Call) : FitNew segmentSeconds segmentDiff cueMode
    (Mealy.after (step l) (new segmentSeconds segmentDiff cueMode) calls).reader :=
  Mealy.after_invariant (step l)
    (P := fun b => FitNew segmentSeconds segmentDiff cueMode b.reader)
    (fun _ call h => (agree_step call ⟨rfl, h⟩).2.2) fitNew_new calls

theorem alike_newAt (h : FitNew segmentSeconds segmentDiff cueMode b.reader) (offset : Binary64) :
    Alike (Reader.new segmentSeconds segmentDiff cueMode).segmentSeconds
      (Reader.new segmentSeconds segmentDiff cueMode).segmentDiff
      (Reader.new segmentSeconds segmentDiff cueMode).cueMode
      (b.seekReset offset) (newAt segmentSeconds segmentDiff cueMode offset) := by
  have hreader : b.reader.seekReset offset = { Reader.new b.reader.segmentSeconds
      b.reader.segmentDiff b.reader.cueMode with
      segmentSeconds := b.reader.segmentSeconds, segmentDiff := b.reader.segmentDiff
      tfdtOffsetSeconds := timelineOffset offset } := rfl
  refine ⟨?_, h.segmentSeconds, h.segmentDiff, h.cueMode, Or.inl rfl⟩
  show b.reader.seekReset offset = _
  rw [hreader, h.segmentSeconds, h.segmentDiff, h.cueMode]
  rfl

/-- After a seek, whatever was called before it and whatever failed, a reader answers every
later call as a fresh one with its parameters does whose clock is set to the same time. -/
theorem seek_reset_forgets (l : Leavings) (segmentSeconds : Binary64) (segmentDiff : ℤ)
    (cueMode : Bool) (before later : List Call) (seconds : Binary64) :
    (Mealy.run (step l) ((Mealy.after (step l) (new segmentSeconds segmentDiff cueMode)
        before).seekReset seconds) later).1 =
      (Mealy.run (step l) (newAt segmentSeconds segmentDiff cueMode seconds) later).1 :=
  Mealy.run_eq_of_simulation (step l) (step l) (fun _ _ call h => agree_step call h)
    (alike_newAt (fitNew_after before) seconds) later

end Buffered

end Rustorr.Mp4
