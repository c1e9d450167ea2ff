import Mathlib.Data.List.Basic
import Mathlib.Data.List.Chain
import Mathlib.Data.List.Pairwise
import Mathlib.Algebra.Order.Group.Int
import Mathlib.Tactic.Ring

/-! A transcoder task's fixed facts (`service.rs`, `cue.rs`): the segment length, the
cue timeline and the source's duration. Times are whole nanoseconds, to which the
runner rounds the seconds it is given. -/

namespace Rustorr.Gst

inductive TaskError where
  | taskNotFound
  | invalidIdentifier
  | endOfStreamExhausted
  | segmentNotReady
  | canceled
  deriving DecidableEq, Repr

def i64Max : ℤ := 2 ^ 63 - 1

def nsPerSecond : ℤ := 1000000000

structure CueSegment where
  startNs : ℕ
  endNs : ℕ
  deriving DecidableEq, Repr

/-- `CueTimeline`, as `parse_timeline` builds it: the segments are not empty and
each begins where the one before ends. -/
structure CueTimeline where
  segments : List CueSegment
  timestampScaleNs : ℕ
  maxDurationNs : ℕ
  nonempty : ∀ segment ∈ segments, segment.startNs < segment.endNs
  contiguous : segments.IsChain fun a b => a.endNs = b.startNs

namespace CueTimeline

def segment (cue : CueTimeline) (index : ℤ) : Option CueSegment :=
  if 0 ≤ index then cue.segments[index.toNat]? else none

/-- Segments further on lie after the end of earlier ones. -/
theorem ordered (cue : CueTimeline) : cue.segments.Pairwise fun a b => a.endNs ≤ b.startNs := by
  obtain ⟨segments, scale, longest, hne, hchain⟩ := cue
  show segments.Pairwise fun a b => a.endNs ≤ b.startNs
  induction segments with
  | nil => exact List.Pairwise.nil
  | cons a rest ih =>
    have hrest := ih (fun s hs => hne s (List.mem_cons_of_mem a hs)) hchain.tail
    refine List.pairwise_cons.mpr ⟨?_, hrest⟩
    cases rest with
    | nil => exact fun b hb => absurd hb List.not_mem_nil
    | cons c rest =>
      have hac : a.endNs = c.startNs := (List.isChain_cons_cons.mp hchain).1
      have hc : c.startNs < c.endNs := hne c (List.mem_cons_of_mem a List.mem_cons_self)
      intro b hb
      rcases List.mem_cons.mp hb with rfl | hb
      · exact hac.le
      · have := (List.pairwise_cons.mp hrest).1 b hb
        omega

end CueTimeline

/-- The facts that number and time the segments. The configuration was normalized,
so the segment length is positive. -/
structure TaskInfo where
  cue : Option CueTimeline
  segmentSeconds : ℤ
  durationNs : ℤ
  segmentSeconds_pos : 0 < segmentSeconds

namespace TaskInfo

variable (info : TaskInfo)

def validateSegmentIndex (index : ℤ) : Except TaskError Unit :=
  if index < 0 then .error .invalidIdentifier
  else
    match info.cue with
    | some cue => if index ≥ cue.segments.length then .error .endOfStreamExhausted else .ok ()
    | none =>
      if info.segmentSeconds ≤ 0 ∨ info.segmentSeconds > i64Max / nsPerSecond then
        .error .invalidIdentifier
      else
        let segmentNs := info.segmentSeconds * nsPerSecond
        if index > i64Max / segmentNs then .error .invalidIdentifier
        else if info.durationNs > 0 ∧ index ≥ 1 + (info.durationNs - 1) / segmentNs then
          .error .endOfStreamExhausted
        else .ok ()

/-- Where `seek_to_segment` sends the runner. -/
def seekNs (index : ℤ) : Except TaskError ℤ :=
  match info.cue with
  | some cue =>
    match cue.segment index with
    | some segment => .ok segment.startNs
    | none => .error .endOfStreamExhausted
  | none => .ok (index * info.segmentSeconds * nsPerSecond)

/-- The segment that contains a time; past a timeline's end, the one after its last. -/
def segmentAt (ns : ℤ) : ℤ :=
  match info.cue with
  | some cue => cue.segments.findIdx fun s => decide (s.startNs ≤ ns ∧ ns < s.endNs)
  | none => ns / (info.segmentSeconds * nsPerSecond)

variable {info}

theorem validateSegmentIndex_nonneg {index : ℤ} (h : info.validateSegmentIndex index = .ok ()) :
    0 ≤ index := by
  unfold validateSegmentIndex at h
  split at h
  · exact nomatch h
  · omega

theorem validateSegmentIndex_cue {cue : CueTimeline} {index : ℤ}
    (h : info.validateSegmentIndex index = .ok ()) (hcue : info.cue = some cue) :
    index.toNat < cue.segments.length := by
  have hnonneg := validateSegmentIndex_nonneg h
  unfold validateSegmentIndex at h
  rw [if_neg (not_lt.mpr hnonneg), hcue] at h
  dsimp only at h
  split at h
  · exact nomatch h
  · omega

/-- No other segment of a timeline contains the start of one. -/
theorem findIdx_startNs (cue : CueTimeline) {i : ℕ} (hi : i < cue.segments.length) :
    (cue.segments.findIdx fun s =>
      decide ((s.startNs : ℤ) ≤ cue.segments[i].startNs ∧ (cue.segments[i].startNs : ℤ) < s.endNs)) =
      i := by
  rw [List.findIdx_eq hi]
  have hpos := cue.nonempty _ (List.getElem_mem hi)
  refine ⟨by simpa using hpos, fun j hj => ?_⟩
  have hbefore := List.pairwise_iff_getElem.mp cue.ordered j i (by omega) hi hj
  simp only [decide_eq_false_iff_not, not_and, not_lt, Nat.cast_le]
  exact fun _ => hbefore

/-- A seek to a valid segment is to a time inside it. -/
theorem segmentAt_seekNs {index : ℤ} (h : info.validateSegmentIndex index = .ok ()) :
    ∃ ns, info.seekNs index = .ok ns ∧ info.segmentAt ns = index := by
  have hnonneg := validateSegmentIndex_nonneg h
  unfold seekNs segmentAt
  cases hcue : info.cue with
  | none =>
    have hlength : 0 < info.segmentSeconds * nsPerSecond :=
      Int.mul_pos info.segmentSeconds_pos (by decide)
    refine ⟨_, rfl, ?_⟩
    dsimp only
    rw [Int.mul_assoc, Int.mul_ediv_cancel _ hlength.ne']
  | some cue =>
    have hi := validateSegmentIndex_cue h hcue
    have hsegment : cue.segment index = some cue.segments[index.toNat] := by
      unfold CueTimeline.segment
      rw [if_pos hnonneg, List.getElem?_eq_getElem hi]
    dsimp only
    rw [hsegment]
    refine ⟨_, rfl, ?_⟩
    rw [findIdx_startNs cue hi, Int.toNat_of_nonneg hnonneg]

end TaskInfo

end Rustorr.Gst
