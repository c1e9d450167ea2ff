import Rustorr.Gst.CueTimes
import Rustorr.Lib.Binary64
import Mathlib.Data.List.DropRight

/-! The media playlist (`playlist.rs`) and the endpoints that number segments (`service.rs`).
What overflows is a fault. -/

namespace Rustorr.Gst

open Checked

structure MediaPlaylist where
  targetDuration : ℤ
  mediaSequence : ℤ
  /-- `seconds` in the URI of the init segment. -/
  seconds : Option ℕ
  /-- The listed segments, with their durations in nanoseconds. -/
  items : List (ℤ × ℕ)
  deriving DecidableEq

namespace MediaPlaylist

/-- `trim_decimal`. -/
def trimDecimal (value : String) : String :=
  String.ofList ((value.toList.rdropWhile (· = '0')).rdropWhile (· = '.'))

def itemText (item : ℤ × ℕ) : String :=
  "#EXTINF:" ++ trimDecimal (Binary64.toFixed6 (.div (.ofNat item.2) (.ofNat 1000000000))) ++
    ",\nseg/" ++ toString item.1 ++ ".m4s\n"

def text (p : MediaPlaylist) (audio : ℤ) : String :=
  "#EXTM3U\n#EXT-X-PLAYLIST-TYPE:VOD\n#EXT-X-VERSION:7\n#EXT-X-TARGETDURATION:" ++
    toString p.targetDuration ++ "\n#EXT-X-MEDIA-SEQUENCE:" ++ toString p.mediaSequence ++
    "\n#EXT-X-MAP:URI=\"init.mp4?audio=" ++ toString audio ++
    (match p.seconds with
      | some seconds => "&seconds=" ++ toString seconds
      | none => "") ++
    "\"\n" ++ String.join (p.items.map itemText) ++ "#EXT-X-ENDLIST\n"

end MediaPlaylist

namespace TaskInfo

variable (info : TaskInfo)

def effectiveDurationNs : ℤ :=
  if info.durationNs > 0 then info.durationNs else 200 * 60 * nsPerSecond

def segmentCount : Except Fault ℤ :=
  match info.cue with
  | some cue => .ok cue.segments.length
  | none => do
    let segmentNs ← mulI64 (max info.segmentSeconds 1) nsPerSecond
    .ok (1 + (info.effectiveDurationNs - 1) / segmentNs)

def segmentStartNs (index : ℤ) : Except Fault ℕ :=
  match info.cue.bind fun cue => cue.segment index with
  | some segment => .ok segment.startNs
  | none =>
    if index ≤ 0 then .ok 0
    else do
      let seconds ← mul index.toNat (max info.segmentSeconds 1).toNat
      mul seconds 1000000000

/-- The duration that is listed for a segment. -/
def itemNs (segmentNs : ℕ) (count index : ℤ) : Except Fault ℕ :=
  match info.cue.bind fun cue => cue.segment index with
  | some segment => segment.durationNs
  | none =>
    if index = count - 1 then do
      let startNs ← mul index.toNat segmentNs
      if info.effectiveDurationNs.toNat > startNs then sub info.effectiveDurationNs.toNat startNs
      else .ok segmentNs
    else .ok segmentNs

/-- The `seconds` of the init segment, where the playlist does not start with the first. -/
def initSeconds (start : ℤ) : Except Fault (Option ℕ) :=
  if start > 0 then (info.segmentStartNs start).map fun ns => some (ns / 1000000000) else .ok none

/-- `start..count`. -/
def indices (start count : ℤ) : List ℤ :=
  (List.range (count - start).toNat).map fun k : ℕ => start + k

def mediaPlaylist (startIndex : ℤ) : Except Fault MediaPlaylist := do
  let segmentSeconds := max info.segmentSeconds 1
  let count ← info.segmentCount
  let targetDuration := match info.cue with
    | some cue => (U64.divCeil cue.maxDurationNs 1000000000 : ℤ)
    | none => segmentSeconds
  let start := max 0 (min startIndex count)
  let seconds ← info.initSeconds start
  let segmentNs ← mul segmentSeconds.toNat 1000000000
  let durations ← (indices start count).mapM (info.itemNs segmentNs count)
  .ok {
    targetDuration := max targetDuration 1
    mediaSequence := start
    seconds := seconds
    items := (indices start count).zip durations }

/-- `duration_seconds`. -/
def durationSeconds : ℤ := if info.durationNs ≤ 0 then 0 else info.durationNs / nsPerSecond

def startIndexForSeconds (seconds : ℤ) : Except Fault ℤ :=
  if seconds ≤ 0 then .ok 0
  else
    let segmentSeconds := max info.segmentSeconds 1
    match info.cue with
    | some cue => do
      let target ← mul seconds.toNat 1000000000
      .ok (cue.segments.findIdx fun segment => target < segment.endNs)
    | none =>
      let duration := info.durationSeconds
      let count := if duration > 0 then 1 + (duration - 1) / segmentSeconds else 0
      let index := seconds / segmentSeconds
      .ok (if count > 0 ∧ index > count then count else index)

end TaskInfo

/-- A medium of known duration. Its timeline was read from the source. -/
structure Media where
  info : TaskInfo
  duration_pos : 0 < info.durationNs
  duration_lt : info.durationNs < 2 ^ 63
  described : ∀ cue, info.cue = some cue →
    ∃ starts scale, Describes starts scale info.durationNs.toNat cue

namespace Media

variable (m : Media)

/-- The playlist lists the valid segments from the index on, with durations that reach to the
end of the source and stay under the target, and its init segment is that of the first. -/
structure Agrees (startIndex count : ℤ) (p : MediaPlaylist) : Prop where
  indices : p.items.map Prod.fst = TaskInfo.indices (max 0 (min startIndex count)) count
  valid : ∀ index, max 0 (min startIndex count) ≤ index →
    (index ∈ p.items.map Prod.fst ↔ m.info.validateSegmentIndex index = .ok ())
  total : ∀ index, (p.items.map Prod.fst).head? = some index → ∃ ns, m.info.seekNs index = .ok ns ∧
    ((p.items.map Prod.snd).sum : ℤ) = m.info.durationNs - ns
  within : ∀ ns ∈ p.items.map Prod.snd, (ns : ℤ) ≤ p.targetDuration * nsPerSecond
  mapped : m.info.startIndexForSeconds (p.seconds.getD 0 : ℕ) = .ok (max 0 (min startIndex count))

/-! ### Boundaries of the listed segments -/

/-- The number of segments. -/
def count : ℕ :=
  match m.info.cue with
  | some cue => cue.segments.length
  | none => 1 + (m.info.durationNs.toNat - 1) / (m.info.segmentSeconds.toNat * 1000000000)

/-- Where a segment begins; behind the last one, where the source ends. -/
def boundary (i : ℕ) : ℕ :=
  match m.info.cue with
  | some cue => (cue.segments[i]?.map CueSegment.startNs).getD m.info.durationNs.toNat
  | none => min (i * (m.info.segmentSeconds.toNat * 1000000000)) m.info.durationNs.toNat

variable {m} {cue : CueTimeline}

theorem segmentNs_pos (m : Media) : 0 < m.info.segmentSeconds.toNat * 1000000000 := by
  have hpos := m.info.segmentSeconds_pos
  omega

theorem effectiveDurationNs_eq (m : Media) : m.info.effectiveDurationNs = m.info.durationNs :=
  if_pos m.duration_pos

theorem max_segmentSeconds (m : Media) : max m.info.segmentSeconds 1 = m.info.segmentSeconds :=
  max_eq_left m.info.segmentSeconds_pos

/-- The source ends in the last segment of fixed length. -/
theorem count_bounds (hcue : m.info.cue = none) :
    (m.count - 1) * (m.info.segmentSeconds.toNat * 1000000000) < m.info.durationNs.toNat ∧
      m.info.durationNs.toNat ≤ m.count * (m.info.segmentSeconds.toNat * 1000000000) ∧
      0 < m.count := by
  have hd := m.duration_pos
  have hpos := m.segmentNs_pos
  unfold count
  rw [hcue]
  dsimp only
  generalize m.info.segmentSeconds.toNat * 1000000000 = segmentNs at hpos ⊢
  obtain ⟨d, hd'⟩ : ∃ d, m.info.durationNs.toNat = d + 1 := ⟨m.info.durationNs.toNat - 1, by omega⟩
  rw [hd', Nat.add_sub_cancel, Nat.add_sub_cancel_left, Nat.add_mul, Nat.one_mul]
  have hdiv := Nat.div_add_mod d segmentNs
  have hmod := Nat.mod_lt d hpos
  rw [Nat.mul_comm] at hdiv
  refine ⟨?_, ?_, Nat.add_pos_left Nat.one_pos _⟩ <;> omega

theorem boundary_fixed (hcue : m.info.cue = none) {i : ℕ} (hi : i < m.count) :
    m.boundary i = i * (m.info.segmentSeconds.toNat * 1000000000) := by
  obtain ⟨hlast, -, -⟩ := count_bounds hcue
  have hle : i * (m.info.segmentSeconds.toNat * 1000000000) ≤
      (m.count - 1) * (m.info.segmentSeconds.toNat * 1000000000) :=
    Nat.mul_le_mul_right _ (Nat.le_sub_one_of_lt hi)
  unfold boundary
  rw [hcue]
  exact min_eq_left (hle.trans hlast.le)

theorem count_cue (hcue : m.info.cue = some cue) : m.count = cue.segments.length := by
  unfold count
  rw [hcue]

theorem boundary_cue (hcue : m.info.cue = some cue) {i : ℕ} (hi : i < cue.segments.length) :
    m.boundary i = cue.segments[i].startNs := by
  unfold boundary
  rw [hcue]
  dsimp only
  rw [List.getElem?_eq_getElem hi]
  rfl

theorem boundary_count (m : Media) : m.boundary m.count = m.info.durationNs.toNat := by
  cases hcue : m.info.cue with
  | none =>
    obtain ⟨-, hle, -⟩ := count_bounds hcue
    unfold boundary
    rw [hcue]
    exact min_eq_right hle
  | some cue =>
    rw [count_cue hcue]
    unfold boundary
    rw [hcue]
    dsimp only
    rw [List.getElem?_eq_none (Nat.le_refl _)]
    rfl

/-- A segment of a timeline ends where the next one begins. -/
theorem boundary_succ_cue (hcue : m.info.cue = some cue) {i : ℕ} (hi : i < cue.segments.length) :
    m.boundary (i + 1) = cue.segments[i].endNs := by
  by_cases hnext : i + 1 < cue.segments.length
  · rw [boundary_cue hcue hnext]
    exact (List.isChain_iff_getElem.mp cue.contiguous i hnext).symm
  · obtain ⟨starts, scale, hdescribes⟩ := m.described cue hcue
    have hcount : i + 1 = m.count := by
      rw [count_cue hcue]
      omega
    rw [hcount, boundary_count]
    have hlast := hdescribes.last
    have hlen : cue.segments.length - 1 = i := by omega
    rw [List.getLast?_eq_getElem?, hlen, List.getElem?_eq_getElem hi] at hlast
    exact (Option.some.inj hlast).symm

theorem boundary_lt {i : ℕ} (hi : i < m.count) : m.boundary i < m.boundary (i + 1) := by
  cases hcue : m.info.cue with
  | none =>
    obtain ⟨hlast, -, -⟩ := count_bounds hcue
    by_cases hnext : i + 1 < m.count
    · rw [boundary_fixed hcue hi, boundary_fixed hcue hnext, Nat.add_mul, Nat.one_mul]
      exact Nat.lt_add_of_pos_right m.segmentNs_pos
    · have hcount : i + 1 = m.count := by omega
      rw [boundary_fixed hcue hi, hcount, boundary_count]
      rwa [← hcount] at hlast
  | some cue =>
    rw [count_cue hcue] at hi
    rw [boundary_cue hcue hi, boundary_succ_cue hcue hi]
    exact cue.nonempty _ (List.getElem_mem hi)

/-- Consecutive segments reach from the first boundary to the last. -/
theorem sum_boundaries (start n : ℕ) (h : start + n ≤ m.count) :
    ((List.range n).map fun k => m.boundary (start + k + 1) - m.boundary (start + k)).sum +
      m.boundary start = m.boundary (start + n) := by
  induction n with
  | zero => simp
  | succ n ih =>
    have hlt := boundary_lt (m := m) (show start + n < m.count by omega)
    have hsum := ih (by omega)
    rw [List.range_succ, List.map_append, List.sum_append, List.map_singleton, List.sum_singleton,
      ← Nat.add_assoc start n 1]
    omega

/-! ### The code on a medium -/

theorem segment_cue (hcue : m.info.cue = some cue) (i : ℕ) :
    (m.info.cue.bind fun cue => cue.segment i) = cue.segments[i]? := by
  rw [hcue, Option.bind_some]
  exact if_pos (Int.natCast_nonneg i)

theorem segmentCount_cue (hcue : m.info.cue = some cue) : m.info.segmentCount = .ok (m.count : ℤ) := by
  unfold TaskInfo.segmentCount
  rw [hcue, count_cue hcue]

theorem segmentCount_fixed (hcue : m.info.cue = none) :
    m.info.segmentCount = if m.info.segmentSeconds * nsPerSecond < 2 ^ 63 then .ok (m.count : ℤ)
      else .error .overflow := by
  have hpos := m.info.segmentSeconds_pos
  have hd := m.duration_pos
  have hlow : -2 ^ 63 ≤ m.info.segmentSeconds * nsPerSecond := by
    unfold nsPerSecond
    omega
  unfold TaskInfo.segmentCount mulI64
  rw [hcue, max_segmentSeconds, effectiveDurationNs_eq]
  dsimp only
  by_cases hfit : m.info.segmentSeconds * nsPerSecond < 2 ^ 63
  · rw [if_pos ⟨hlow, hfit⟩, if_pos hfit, Except.ok_bind]
    congr 1
    unfold count
    rw [hcue]
    have hseconds : m.info.segmentSeconds * nsPerSecond =
        ((m.info.segmentSeconds.toNat * 1000000000 : ℕ) : ℤ) := by
      unfold nsPerSecond
      omega
    have hduration : m.info.durationNs - 1 = ((m.info.durationNs.toNat - 1 : ℕ) : ℤ) := by omega
    rw [hseconds, hduration]
    push_cast
    rfl
  · rw [if_neg fun h => hfit h.2, if_neg hfit]
    rfl

theorem seekNs_listed {i : ℕ} (hi : i < m.count) :
    m.info.seekNs i = .ok (m.boundary i : ℤ) := by
  unfold TaskInfo.seekNs
  cases hcue : m.info.cue with
  | none =>
    have hpos := m.info.segmentSeconds_pos
    rw [boundary_fixed hcue hi]
    dsimp only
    have hseconds : (m.info.segmentSeconds.toNat : ℤ) = m.info.segmentSeconds :=
      Int.toNat_of_nonneg hpos.le
    push_cast
    rw [hseconds, Int.mul_assoc]
    rfl
  | some cue =>
    rw [count_cue hcue] at hi
    dsimp only
    rw [show cue.segment i = cue.segments[i]? from if_pos (Int.natCast_nonneg i),
      List.getElem?_eq_getElem hi, boundary_cue hcue hi]

theorem segmentNs_eq (m : Media) : (max m.info.segmentSeconds 1).toNat = m.info.segmentSeconds.toNat := by
  rw [max_segmentSeconds]

theorem boundary_le_duration (m : Media) {i : ℕ} (hi : i < m.count) :
    m.boundary i < m.info.durationNs.toNat := by
  have hgrows : ∀ n, i + n ≤ m.count → m.boundary i + n ≤ m.boundary (i + n) := by
    intro n
    induction n with
    | zero => exact fun _ => Nat.le_refl _
    | succ n ih =>
      intro hn
      have hlt := boundary_lt (m := m) (show i + n < m.count by omega)
      have hle := ih (by omega)
      show m.boundary i + (n + 1) ≤ m.boundary (i + n + 1)
      omega
  have hend := hgrows (m.count - i) (by omega)
  rw [show i + (m.count - i) = m.count from by omega, boundary_count] at hend
  omega

theorem segmentStartNs_listed {i : ℕ} (hi : i < m.count) :
    m.info.segmentStartNs i = .ok (m.boundary i) := by
  have hlt := m.boundary_le_duration hi
  have hd := m.duration_lt
  unfold TaskInfo.segmentStartNs
  cases hcue : m.info.cue with
  | none =>
    rw [boundary_fixed hcue hi] at hlt ⊢
    dsimp only [Option.bind_none]
    by_cases hzero : (i : ℤ) ≤ 0
    · rw [if_pos hzero, show i = 0 by omega, Nat.zero_mul]
    · have hbound : i * m.info.segmentSeconds.toNat * 1000000000 < 2 ^ 64 := by
        rw [Nat.mul_assoc]
        omega
      rw [if_neg hzero, segmentNs_eq, Int.toNat_natCast, mul_of_lt (by omega), Except.ok_bind,
        mul_of_lt hbound, Nat.mul_assoc]
  | some cue =>
    rw [← hcue, segment_cue hcue]
    rw [count_cue hcue] at hi
    rw [List.getElem?_eq_getElem hi, boundary_cue hcue hi]

theorem itemNs_listed {i : ℕ} (hi : i < m.count) :
    m.info.itemNs (m.info.segmentSeconds.toNat * 1000000000) m.count i =
      .ok (m.boundary (i + 1) - m.boundary i) := by
  have hd := m.duration_lt
  have hlt := m.boundary_le_duration hi
  unfold TaskInfo.itemNs
  cases hcue : m.info.cue with
  | none =>
    obtain ⟨hlast, -, -⟩ := count_bounds hcue
    rw [boundary_fixed hcue hi] at hlt ⊢
    dsimp only [Option.bind_none]
    by_cases hend : i + 1 = m.count
    · rw [if_pos (by omega), Int.toNat_natCast, mul_of_lt (by omega), Except.ok_bind,
        effectiveDurationNs_eq, if_pos hlt, sub_of_le hlt.le, hend, boundary_count]
    · rw [if_neg (by omega), boundary_fixed hcue (by omega), Nat.add_mul, Nat.one_mul,
        Nat.add_sub_cancel_left]
  | some cue =>
    rw [← hcue, segment_cue hcue]
    rw [count_cue hcue] at hi
    rw [List.getElem?_eq_getElem hi, boundary_succ_cue hcue hi, boundary_cue hcue hi]
    exact sub_of_le (cue.nonempty _ (List.getElem_mem hi)).le

theorem validateSegmentIndex_iff (hfit : m.info.cue = none → m.info.segmentSeconds * nsPerSecond < 2 ^ 63)
    {index : ℤ} (hindex : 0 ≤ index) :
    m.info.validateSegmentIndex index = .ok () ↔ index < m.count := by
  unfold TaskInfo.validateSegmentIndex
  rw [if_neg (not_lt.mpr hindex)]
  cases hcue : m.info.cue with
  | some cue =>
    rw [count_cue hcue]
    dsimp only
    split
    · next h => exact iff_of_false (fun h => nomatch h) (not_lt.mpr h)
    · next h => exact iff_of_true rfl (not_le.mp h)
  | none =>
    have hpos := m.info.segmentSeconds_pos
    have hns := hfit hcue
    have hsegment : 0 < m.info.segmentSeconds * nsPerSecond := by
      unfold nsPerSecond
      omega
    have hfew : ¬(m.info.segmentSeconds ≤ 0 ∨ m.info.segmentSeconds > i64Max / nsPerSecond) := by
      unfold nsPerSecond at hns
      unfold i64Max nsPerSecond
      omega
    have hcount : 1 + (m.info.durationNs - 1) / (m.info.segmentSeconds * nsPerSecond) = m.count := by
      have hok := segmentCount_fixed hcue
      rw [if_pos hns] at hok
      unfold TaskInfo.segmentCount at hok
      rw [hcue, max_segmentSeconds, effectiveDurationNs_eq] at hok
      unfold mulI64 at hok
      dsimp only at hok
      rw [if_pos ⟨by omega, hns⟩] at hok
      exact Except.ok.inj hok
    dsimp only
    rw [if_neg hfew, hcount]
    by_cases hlt : index < m.count
    · have hle : ¬index > i64Max / (m.info.segmentSeconds * nsPerSecond) := by
        rw [not_lt]
        have hd := m.duration_lt
        have hmono : (m.info.durationNs - 1) / (m.info.segmentSeconds * nsPerSecond) ≤
            i64Max / (m.info.segmentSeconds * nsPerSecond) :=
          Int.ediv_le_ediv hsegment (by unfold i64Max; omega)
        omega
      rw [if_neg hle, if_neg fun h => not_le.mpr hlt h.2]
      exact iff_of_true rfl hlt
    · refine iff_of_false (fun h => ?_) hlt
      split at h
      · cases h
      · rw [if_pos ⟨m.duration_pos, not_lt.mp hlt⟩] at h
        cases h

end Media

end Rustorr.Gst
