import Rustorr.Gst.TaskInfo
import Rustorr.Lib.Mealy

/-! `service.rs` `Task`: segment requests over a pipeline runner that behaves as it
should. The task knows where its runner stands only from the number of the segment
it sent last. -/

namespace Rustorr.Gst

/-- How a read of the pipeline ends: with what it waits for, or cancelled or timed
out. On the way it may publish the init segment. -/
structure Read where
  failure : Option TaskError
  publishes : Bool

/-- A runner that does what is asked: it stands on a segment, and keeps the one it
completed last under the number it was asked for. -/
structure Runner (α : Type) where
  position : ℤ := 0
  isFrozen : Bool := false
  statePlaying : Bool := false
  ready : Option (ℤ × α) := none

namespace Runner

variable {α : Type} (media : ℤ → α) (info : TaskInfo) (r : Runner α)

def startAt (position : ℤ) : Runner α :=
  { position, isFrozen := false, statePlaying := true, ready := none }

def seek (ns : ℤ) : Runner α := startAt (info.segmentAt ns)

def frozen : Runner α := { r with isFrozen := true, statePlaying := false, ready := none }

/-- `ensure_init`, on a task that has its init segment or still waits for it. -/
def ensureInit (hasInit : Bool) (startIndex : ℤ) (read : Read) : Except TaskError Unit × Runner α :=
  let r := if r.isFrozen ∨ ¬r.statePlaying ∨ r.position ≠ startIndex then startAt startIndex else r
  if hasInit then (.ok (), r)
  else
    match read.failure with
    | some e => (.error e, r)
    | none => (.ok (), r)

/-- The runner as `get_segment` finds it, started where it is not running. -/
def running (index : ℤ) : Runner α :=
  if r.isFrozen then startAt r.position
  else if ¬r.statePlaying then { r with position := index, statePlaying := true }
  else r

/-- The segment, the runner after it, and whether the read published an init segment. -/
def getSegment (index : ℤ) (read : Read) : Except TaskError α × Runner α × Bool :=
  let r := r.running index
  match r.ready.filter fun s => s.1 = index with
  | some s => (.ok s.2, r, false)
  | none =>
    match read.failure with
    | some e => (.error e, r, read.publishes)
    | none =>
      let segment := media r.position
      (.ok segment, { r with position := r.position + 1, ready := some (index, segment) }, true)

end Runner

/-- What the world does during one call to `segment`: what each look at the request's
cancellation finds, how each read ends, and whether the request is gone when its
segment is there. -/
structure Call where
  cancelled : ℕ → Bool
  reads : ℕ → Read
  gone : Bool

structure Task (α : Type) where
  hasInit : Bool := false
  lastSentSegment : ℤ := -1
  runner : Option (Runner α) := some {}
  lastActive : ℕ := 0
  disposed : Bool := false

namespace Task

variable {α : Type} (media : ℤ → α) (info : TaskInfo) (t : Task α)

def maxSegmentCatchupSeconds : ℤ := 60

def ensureInit (startIndex : ℤ) (read : Read) : Except TaskError Unit × Task α :=
  let startIndex := max startIndex 0
  match info.validateSegmentIndex startIndex with
  | .error e => (.error e, t)
  | .ok () =>
    if t.hasInit ∧ (startIndex = 0 ∨ t.lastSentSegment ≠ -1) then (.ok (), t)
    else
      match t.runner with
      | none => (.error .taskNotFound, t)
      | some runner =>
        let lastSent := t.lastSentSegment
        let (result, runner) := runner.ensureInit t.hasInit startIndex read
        match result with
        | .error e => (.error e, { t with runner := some runner })
        | .ok () =>
          (.ok (), { t with
            runner := some runner
            hasInit := true
            lastSentSegment :=
              if startIndex > 0 ∧ lastSent = -1 then startIndex - 1 else t.lastSentSegment })

/-- `runner.get_segment`, and the init segment it may publish in the task's facts. -/
def getSegment (index : ℤ) (read : Read) : Except TaskError α × Task α :=
  match t.runner with
  | none => (.error .taskNotFound, t)
  | some runner =>
    let (result, runner, published) := runner.getSegment media index read
    (result, { t with runner := some runner, hasInit := t.hasInit || published })

def seekToSegment (index : ℤ) : Except TaskError Unit × Task α :=
  match t.runner with
  | none => (.error .taskNotFound, t)
  | some _ =>
    match info.seekNs index with
    | .error e => (.error e, t)
    | .ok ns => (.ok (), { t with runner := some (Runner.seek info ns) })

/-- The segments before a requested one, read and dropped; `k` counts the looks at
the cancellation and the reads so far. -/
def catchUp (call : Call) : ℕ → ℕ → Task α → Except TaskError Unit × Task α
  | 0, _, t => (.ok (), t)
  | n + 1, k, t =>
    if call.cancelled k then (.error .canceled, t)
    else
      let t := { t with lastSentSegment := t.lastSentSegment + 1 }
      match t.getSegment media t.lastSentSegment (call.reads k) with
      | (.error e, t) => (.error e, { t with lastSentSegment := t.lastSentSegment - 1 })
      | (.ok _, t) => catchUp call n (k + 1) t

/-- Whether a segment further on is reached by reading up to it. -/
def catchesUp (index : ℤ) : Bool :=
  info.cue.isNone ∧ 0 < index - t.lastSentSegment ∧
    index - t.lastSentSegment ≤ maxSegmentCatchupSeconds / info.segmentSeconds

/-- The way to a requested segment, before it is read: a seek, the segments in
between, or nothing. The number of reads it made comes last. -/
def moveTo (runner : Runner α) (index : ℤ) (call : Call) : Except TaskError Unit × Task α × ℕ :=
  let last := t.lastSentSegment
  if runner.isFrozen ∨ (last = -1 ∧ index > 0) then
    let (result, t) := t.seekToSegment info index
    (result, t, 0)
  else if last ≠ -1 ∧ last ≠ index ∧ index ≠ last + 1 then
    if t.catchesUp info index then
      let between := (index - last - 1).toNat
      let (result, t) := catchUp media call between 0 t
      (result, t, between)
    else
      let (result, t) := t.seekToSegment info index
      (result, t, 0)
  else (.ok (), t, 0)

/-- The requested segment itself, from where the runner stands. -/
def sendSegment (index : ℤ) (read : Read) : Except TaskError α × Task α :=
  match t.getSegment media index read with
  | (.error e, t) => (.error e, t)
  | (.ok segment, t) => (.ok segment, { t with lastSentSegment := index })

def segmentLocked (index : ℤ) (call : Call) : Except TaskError α × Task α :=
  match t.runner with
  | none => (.error .taskNotFound, t)
  | some runner =>
    match info.validateSegmentIndex index with
    | .error e => (.error e, t)
    | .ok () =>
      match t.moveTo media info runner index call with
      | (.error e, t, _) => (.error e, t)
      | (.ok (), t, k) => t.sendSegment media index (call.reads k)

def segment (index : ℤ) (call : Call) : Except TaskError α × Task α :=
  match t.segmentLocked media info index call with
  | (.error e, t) => (.error e, t)
  | (.ok segment, t) => if call.gone then (.error .canceled, t) else (.ok segment, t)

def freezeIfInactive (cutoff : ℕ) : Bool × Task α :=
  if t.lastActive ≥ cutoff then (false, t)
  else if t.disposed then (false, t)
  else
    match t.runner with
    | none => (false, t)
    | some runner =>
      if runner.isFrozen then (false, t)
      else (true, { t with runner := some runner.frozen, hasInit := false })

def dispose : Task α :=
  if t.disposed then t else { t with disposed := true, runner := none, hasInit := false }

end Task

/-- What happens to a task. A request that goes away or times out is part of the call
it interrupts. -/
inductive TaskEvent where
  | ensureInit (startIndex : ℤ) (read : Read)
  | segment (index : ℤ) (call : Call)
  | freezeIfInactive (cutoff : ℕ)
  | updateLastActive (now : ℕ)
  | dispose

inductive TaskAnswer (α : Type) where
  | init (result : Except TaskError Unit)
  | segment (result : Except TaskError α)
  | froze (frozen : Bool)
  | done

namespace Task

variable {α : Type} (media : ℤ → α) (info : TaskInfo)

def step (t : Task α) : TaskEvent → TaskAnswer α × Task α
  | .ensureInit startIndex read =>
    let (result, t) := t.ensureInit info startIndex read
    (.init result, t)
  | .segment index call =>
    let (result, t) := t.segment media info index call
    (.segment result, t)
  | .freezeIfInactive cutoff =>
    let (frozen, t) := t.freezeIfInactive cutoff
    (.froze frozen, t)
  | .updateLastActive now => (.done, { t with lastActive := now })
  | .dispose => (.done, t.dispose)

/-- The task after some events, from a new one. -/
def after (events : List TaskEvent) : Task α := Mealy.after (step media info) {} events

/-- The answers to some events, from a new task. -/
def answers (events : List TaskEvent) : List (TaskAnswer α) :=
  (Mealy.run (step media info) {} events).1

end Task

end Rustorr.Gst
