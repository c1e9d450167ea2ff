import Rustorr.Gst.Ebml
import Rustorr.Gst.TaskInfo
import Rustorr.Lib.Prog

/-! The cue timeline of a Matroska source (`cue.rs`), read range by range. -/

namespace Rustorr.Gst

open Checked

def EBML : ℕ := 0x1A45DFA3
def SEGMENT : ℕ := 0x18538067
def SEEK_HEAD : ℕ := 0x114D9B74
def SEEK : ℕ := 0x4DBB
def SEEK_ENTRY : ℕ := 0x53AB
def SEEK_POSITION : ℕ := 0x53AC
def INFO : ℕ := 0x1549A966
def TIMESTAMP_SCALE : ℕ := 0x2AD7B1
def TRACKS : ℕ := 0x1654AE6B
def TRACK_ENTRY : ℕ := 0xAE
def TRACK_NUMBER : ℕ := 0xD7
def TRACK_TYPE : ℕ := 0x83
def CUES : ℕ := 0x1C53BB6B
def CUE_POINT : ℕ := 0xBB
def CUE_TIME : ℕ := 0xB3
def CUE_TRACK_POSITIONS : ℕ := 0xB7
def CUE_TRACK : ℕ := 0xF7
def CUE_CLUSTER_POSITION : ℕ := 0xF1

def DEFAULT_TIMESTAMP_SCALE_NS : ℕ := 1000000
def PREFIX_LENGTH : ℕ := 4 * 1024 * 1024
def MAX_METADATA : ℕ := 8 * 1024 * 1024
def MAX_CUES : ℕ := 64 * 1024 * 1024
def MAX_CUE_POINTS : ℕ := 1000000

/-- A call of `read_range`. -/
structure ReadRange where
  offset : ℕ
  length : ℕ
  deriving DecidableEq

abbrev ReadRange.Ans : ReadRange → Type := fun _ => Option Bytes

abbrev SourceM : Type → Type := Prog ReadRange ReadRange.Ans Fault

/-- Where the elements are that a seek head tells of. -/
abbrev Positions : Type := List (ℕ × ℕ)

namespace Positions

def get (positions : Positions) (id : ℕ) : Option ℕ :=
  (positions.find? fun entry => entry.1 = id).map Prod.snd

/-- The first entry for a target wins. -/
def insert (positions : Positions) (id position : ℕ) : Positions :=
  if positions.get id = none then positions ++ [(id, position)] else positions

end Positions

variable (data : Bytes)

/-! ### Metadata -/

def findSegment : Except Fault (Option Element) := do
  match ← readElementAt data 0 with
  | none => .ok none
  | some ebml =>
    let end_ ← ebml.end_
    if ebml.id ≠ EBML ∨ ebml.unknownSize ∨ end_ > data.length then .ok none
    else match ← readElementAt data end_ with
      | none => .ok none
      | some segment => .ok (if segment.id = SEGMENT then some segment else none)

/-- A field of a seek entry. -/
def seekField (s : ℕ × Option ℕ) (child : Element) : Except Fault (ℕ × Option ℕ) := do
  if child.id = SEEK_ENTRY ∧ child.size > 0 ∧ child.size ≤ 4 then
    let target ← unsigned data child
    .ok (target.getD 0, s.2)
  else if child.id = SEEK_POSITION ∧ child.size > 0 ∧ child.size ≤ 8 then
    let position ← unsigned data child
    .ok (s.1, some (position.getD 0))
  else .ok s

def seekEntry (positions : Positions) (entry : Element) : Except Fault Positions := do
  if entry.id ≠ SEEK then .ok positions
  else
    let fields ← children data entry
    let (target, position) ← fields.foldlM (seekField data) (0, none)
    match position with
    | some position => .ok (if target ≠ 0 then positions.insert target position else positions)
    | none => .ok positions

def parseSeekHead (parent : Element) (positions : Positions) : Except Fault Positions := do
  let entries ← children data parent
  entries.foldlM (seekEntry data) positions

def parseTimestampScale (parent : Element) (result : ℕ) : Except Fault ℕ := do
  let fields ← children data parent
  match fields.find? fun child => child.id = TIMESTAMP_SCALE ∧ child.size > 0 ∧ child.size ≤ 8 with
  | none => .ok result
  | some child => match ← unsigned data child with
    | none => .ok result
    | some value => .ok (if value > 0 then value else result)

/-- A field of a track: its number or its type. -/
def trackField (s : ℕ × ℕ) (child : Element) : Except Fault (ℕ × ℕ) := do
  if child.id = TRACK_NUMBER then
    let number ← unsigned data child
    .ok (number.getD 0, s.2)
  else if child.id = TRACK_TYPE then
    let kind ← unsigned data child
    .ok (s.1, kind.getD 0)
  else .ok s

def firstVideoTrack : List Element → Except Fault ℕ
  | [] => .ok 0
  | entry :: rest =>
    if entry.id ≠ TRACK_ENTRY then firstVideoTrack rest
    else do
      let fields ← children data entry
      let (number, kind) ← fields.foldlM (trackField data) (0, 0)
      if kind = 1 ∧ number > 0 then .ok number else firstVideoTrack rest

def videoTrackNumber (tracks : Element) : Except Fault ℕ := do
  let entries ← children data tracks
  firstVideoTrack data entries

/-- What the metadata tells. -/
structure Metadata where
  positions : Positions
  scale : ℕ
  videoTrack : ℕ

def prefixElement (found : Metadata) (element : Element) : Except Fault (Metadata ⊕ Metadata) := do
  if element.id = SEEK_HEAD then
    let positions ← parseSeekHead data element found.positions
    .ok (.inl { found with positions := positions })
  else if element.id = INFO then
    let scale ← parseTimestampScale data element found.scale
    .ok (.inl { found with scale := scale })
  else if element.id = TRACKS then
    let videoTrack ← videoTrackNumber data element
    .ok (.inl { found with videoTrack := videoTrack })
  else .ok (.inl found)

def parsePrefix (offset : ℕ) (found : Metadata) : Except Fault Metadata :=
  scan data data.length id id (prefixElement data) (data.length + 1) offset found

/-! ### Cue points -/

def videoPositionField (s : ℕ × Bool) (child : Element) :
    Except Fault ((ℕ × Bool) ⊕ Bool) := do
  if child.id = CUE_TRACK then
    let track ← unsigned data child
    .ok (.inl (track.getD 0, s.2))
  else if child.id = CUE_CLUSTER_POSITION then
    let position ← unsigned data child
    .ok (.inl (s.1, position.isSome))
  else .ok (.inl s)

def hasVideoPosition (positions : Element) (videoTrack : ℕ) : Except Fault Bool := do
  let end_ ← positions.end_
  scan data end_ (fun _ => false) (fun s => s.1 == videoTrack && s.2)
    (videoPositionField data) (data.length + 1) positions.dataOffset (0, false)

def cueField (videoTrack : ℕ) (s : Option ℕ × Bool) (child : Element) :
    Except Fault ((Option ℕ × Bool) ⊕ Option ℕ) := do
  if child.id = CUE_TIME then
    let time ← unsigned data child
    .ok (.inl (time, s.2))
  else if child.id = CUE_TRACK_POSITIONS then
    let found ← hasVideoPosition data child videoTrack
    .ok (.inl (s.1, if found then true else s.2))
  else .ok (.inl s)

def videoCueTime (point : Element) (videoTrack : ℕ) : Except Fault (Option ℕ) := do
  let end_ ← point.end_
  scan data end_ (fun _ => none) (fun s => s.1.filter fun _ => s.2) (cueField data videoTrack)
    (data.length + 1) point.dataOffset (none, false)

/-- A round of the loop of `parse_timeline`; too many times end it. -/
def cuePoint (videoTrack scale durationNs : ℕ) (times : List ℕ) (point : Element) :
    Except Fault (List ℕ ⊕ Option (List ℕ)) := do
  if point.id ≠ CUE_POINT then .ok (.inl times)
  else match ← videoCueTime data point videoTrack with
    | none => .ok (.inl times)
    | some time =>
      let longest ← div (2 ^ 64 - 1) scale
      if time ≤ longest then
        let timeNs ← mul time scale
        if timeNs < durationNs then
          let times := times ++ [timeNs]
          if times.length > MAX_CUE_POINTS then .ok (.inr none) else .ok (.inl times)
        else .ok (.inl times)
      else .ok (.inl times)

/-- From one time to the next that is later, and in the end to the duration. -/
def segmentsFrom (durationNs previous : ℕ) : List ℕ → List CueSegment
  | [] => if durationNs > previous then [⟨previous, durationNs⟩] else []
  | current :: rest =>
    if current ≤ previous then segmentsFrom durationNs previous rest
    else ⟨previous, current⟩ :: segmentsFrom durationNs current rest

theorem segmentsFrom_nonempty (durationNs previous : ℕ) (times : List ℕ) :
    ∀ s ∈ segmentsFrom durationNs previous times, s.startNs < s.endNs := by
  induction times generalizing previous with
  | nil =>
    intro s hs
    unfold segmentsFrom at hs
    split at hs
    · next h =>
      rw [List.mem_singleton.mp hs]
      exact h
    · cases hs
  | cons current rest ih =>
    intro s hs
    unfold segmentsFrom at hs
    split at hs
    · exact ih previous s hs
    · next h =>
      rcases List.mem_cons.mp hs with rfl | hs
      · exact not_le.mp h
      · exact ih current s hs

theorem head?_segmentsFrom (durationNs previous : ℕ) (times : List ℕ) :
    ∀ s ∈ (segmentsFrom durationNs previous times).head?, s.startNs = previous := by
  induction times generalizing previous with
  | nil =>
    intro s hs
    unfold segmentsFrom at hs
    split at hs
    · cases hs
      rfl
    · cases hs
  | cons current rest ih =>
    intro s hs
    unfold segmentsFrom at hs
    split at hs
    · exact ih previous s hs
    · cases hs
      rfl

theorem segmentsFrom_contiguous (durationNs previous : ℕ) (times : List ℕ) :
    (segmentsFrom durationNs previous times).IsChain fun a b => a.endNs = b.startNs := by
  induction times generalizing previous with
  | nil =>
    unfold segmentsFrom
    split
    · exact List.isChain_singleton _
    · exact List.isChain_nil
  | cons current rest ih =>
    unfold segmentsFrom
    split
    · exact ih previous
    · refine List.isChain_cons.mpr ⟨fun s hs => ?_, ih current⟩
      exact (head?_segmentsFrom durationNs current rest s hs).symm

/-- `CueSegment::duration_ns`. -/
def CueSegment.durationNs (s : CueSegment) : Except Fault ℕ := sub s.endNs s.startNs

/-- The end of `parse_timeline`, from the times in the order of the points. -/
def timelineOf (scale durationNs : ℕ) (times : List ℕ) : Except Fault (Option CueTimeline) :=
  if times.length < 2 then .ok none
  else match times.mergeSort with
    | [] => .error .outOfBounds
    | first :: rest =>
      if segmentsFrom durationNs first rest = [] then .ok none
      else do
        let durations ← (segmentsFrom durationNs first rest).mapM CueSegment.durationNs
        .ok (some {
          segments := segmentsFrom durationNs first rest
          timestampScaleNs := scale
          maxDurationNs := durations.max?.getD 0
          nonempty := segmentsFrom_nonempty durationNs first rest
          contiguous := segmentsFrom_contiguous durationNs first rest })

def parseTimeline (cues : Element) (videoTrack scale durationNs : ℕ) :
    Except Fault (Option CueTimeline) := do
  let end_ ← cues.end_
  match ← scan data end_ (fun _ => none) some (cuePoint data videoTrack scale durationNs)
    (data.length + 1) cues.dataOffset [] with
  | none => .ok none
  | some times => timelineOf scale durationNs times

/-! ### Reading -/

/-- `as i64`. -/
def asI64 (n : ℕ) : ℤ := if n < 2 ^ 63 then n else (n : ℤ) - 2 ^ 64

def readElement (segmentOffset relative expected maxLength : ℕ) (contentLength : I64) :
    SourceM (Option Bytes) :=
  match U64.checkedAdd segmentOffset relative with
  | none => pure none
  | some offset =>
    if offset > 2 ^ 63 - 1 then pure none
    else do
      let left ← Prog.ofExcept
        (if contentLength.val > 0 then subI64 contentLength.val (asI64 offset) else .ok 16)
      let headerLength : ℤ := if left < 16 then left else 16
      if headerLength ≤ 0 then pure none
      else
        match ← Prog.perform (⟨offset, headerLength.toNat⟩ : ReadRange) with
        | none => pure none
        | some header => match ← Prog.ofExcept (readElementAt header 0) with
          | none => pure none
          | some element =>
            if element.id ≠ expected ∨ element.unknownSize ∨ element.size > maxLength then pure none
            else
              let headerSize ← Prog.ofExcept (sub element.dataOffset element.offset)
              let total ← Prog.ofExcept (add headerSize element.size)
              let most ← Prog.ofExcept (add maxLength 16)
              if total > most then pure none
              else
                let past ← Prog.ofExcept (if contentLength.val > 0 then
                    if asI64 offset > contentLength.val then .ok true
                    else do
                      let left ← subI64 contentLength.val (asI64 offset)
                      .ok (decide (asI64 total > left))
                  else .ok false)
                if past then pure none
                else Prog.perform (⟨offset, total⟩ : ReadRange)

/-- `element` of `read_timeline`. -/
def readAt (segmentData : ℕ) (positions : Positions) (id max : ℕ) (contentLength : I64) :
    SourceM (Option Bytes) :=
  match positions.get id with
  | none => pure none
  | some position => readElement segmentData position id max contentLength

/-- The tracks are read where the prefix told of no video track. -/
def readTracks (segmentData : ℕ) (found : Metadata) (contentLength : I64) : SourceM ℕ :=
  if found.videoTrack ≠ 0 then pure found.videoTrack
  else do
    match ← readAt segmentData found.positions TRACKS MAX_METADATA contentLength with
    | none => pure found.videoTrack
    | some data => match ← Prog.ofExcept (readElementAt data 0) with
      | none => pure found.videoTrack
      | some tracks => Prog.ofExcept (videoTrackNumber data tracks)

def readScale (segmentData : ℕ) (found : Metadata) (contentLength : I64) : SourceM ℕ := do
  match ← readAt segmentData found.positions INFO MAX_METADATA contentLength with
  | none => pure found.scale
  | some data => match ← Prog.ofExcept (readElementAt data 0) with
    | none => pure found.scale
    | some info => Prog.ofExcept (parseTimestampScale data info found.scale)

/-- What `read_timeline` reads before the cues: where the segment's data begin, and the
metadata. -/
def readMetadata (contentLength : I64) : SourceM (Option (ℕ × Metadata)) := do
  let prefixLength :=
    if contentLength.val > 0 ∧ contentLength.val.toNat < PREFIX_LENGTH then contentLength.val.toNat
    else PREFIX_LENGTH
  match ← Prog.perform (⟨0, prefixLength⟩ : ReadRange) with
  | none => pure none
  | some data => match ← Prog.ofExcept (findSegment data) with
    | none => pure none
    | some segment =>
      let found ← Prog.ofExcept
        (parsePrefix data segment.dataOffset ⟨[], DEFAULT_TIMESTAMP_SCALE_NS, 0⟩)
      let videoTrack ← readTracks segment.dataOffset found contentLength
      let scale ← readScale segment.dataOffset found contentLength
      if found.positions.get CUES = none ∨ videoTrack = 0 ∨ scale = 0 then pure none
      else pure (some (segment.dataOffset, ⟨found.positions, scale, videoTrack⟩))

def readTimeline (contentLength durationNs : I64) : SourceM (Option CueTimeline) :=
  if durationNs.val ≤ 0 then pure none
  else do
    match ← readMetadata contentLength with
    | none => pure none
    | some (segmentData, found) =>
      match ← readAt segmentData found.positions CUES MAX_CUES contentLength with
      | none => pure none
      | some cues =>
        match ← Prog.ofExcept (readElementAt cues 0) with
        | none => pure none
        | some root =>
          Prog.ofExcept
            (parseTimeline cues root found.videoTrack found.scale durationNs.val.toNat)

end Rustorr.Gst
