import Rustorr.Gst.Playlist

/-! The seconds that a playlist hands to its init segment (`playlist.rs`), and the way back from
them to the index (`service.rs`). -/

namespace Rustorr.Gst

open Checked

namespace Media

variable {m : Media} {cue : CueTimeline}

/-! ### From seconds back to the index -/

/-- The segments of fixed length in the whole seconds of the duration. -/
def wholeCount (m : Media) : ℤ :=
  if 0 < m.info.durationSeconds then 1 + (m.info.durationSeconds - 1) / m.info.segmentSeconds else 0

theorem durationSeconds_eq (m : Media) : m.info.durationSeconds = m.info.durationNs / nsPerSecond :=
  if_neg (not_le.mpr m.duration_pos)

theorem startIndexForSeconds_zero (m : Media) : m.info.startIndexForSeconds 0 = .ok 0 := rfl

theorem startIndexForSeconds_fixed (hcue : m.info.cue = none) {k : ℕ} (hk : 0 < k) :
    m.info.startIndexForSeconds (k * m.info.segmentSeconds.toNat : ℕ) =
      .ok (if 0 < m.wholeCount ∧ m.wholeCount < k then m.wholeCount else k) := by
  have hpos := m.info.segmentSeconds_pos
  have hseconds : 0 < k * m.info.segmentSeconds.toNat := Nat.mul_pos hk (by omega)
  have hindex : ((k * m.info.segmentSeconds.toNat : ℕ) : ℤ) / m.info.segmentSeconds = k := by
    push_cast
    rw [Int.toNat_of_nonneg hpos.le, Int.mul_ediv_cancel _ hpos.ne']
  unfold TaskInfo.startIndexForSeconds
  rw [if_neg (by omega), hcue, max_segmentSeconds]
  dsimp only
  rw [hindex]
  rfl

/-- Only past the last segment the whole seconds may count one segment less. -/
theorem wholeCount_lt_iff (hcue : m.info.cue = none) {k : ℕ} (hk : k ≤ m.count) :
    (0 < m.wholeCount ∧ m.wholeCount < k) ↔ k = m.count ∧ 0 < m.info.durationSeconds ∧
      m.info.segmentSeconds ∣ m.info.durationSeconds ∧
      m.info.durationSeconds * nsPerSecond < m.info.durationNs := by
  obtain ⟨hlast, hend, -⟩ := count_bounds hcue
  have hpos := m.info.segmentSeconds_pos
  have hd := m.duration_pos
  unfold wholeCount
  rw [durationSeconds_eq]
  unfold nsPerSecond
  obtain ⟨S, hS⟩ : ∃ S : ℕ, m.info.segmentSeconds = S :=
    ⟨m.info.segmentSeconds.toNat, (Int.toNat_of_nonneg hpos.le).symm⟩
  obtain ⟨d, hd'⟩ : ∃ d : ℕ, m.info.durationNs = d :=
    ⟨m.info.durationNs.toNat, (Int.toNat_of_nonneg hd.le).symm⟩
  rw [hS, hd', Int.toNat_natCast] at hlast hend
  rw [Int.toNat_natCast] at hlast hend
  rw [hS] at hpos ⊢
  rw [hd']
  generalize m.count = c at hlast hend hk ⊢
  -- everything is a natural number now
  have hseconds : ((d : ℤ) / 1000000000) = ((d / 1000000000 : ℕ) : ℤ) := by push_cast; rfl
  rw [hseconds]
  generalize hw : d / 1000000000 = w
  have hwd : w * 1000000000 ≤ d ∧ d < (w + 1) * 1000000000 := by omega
  have hfull : (c - 1) * S ≤ w := by
    have hnat : (c - 1) * S * 1000000000 < d := by rwa [Nat.mul_assoc]
    omega
  have hover : d ≤ c * S * 1000000000 := by rwa [Nat.mul_assoc]
  by_cases hwpos : (0 : ℤ) < w
  · have hwnat : 0 < w := by omega
    have hcast : 1 + ((w : ℤ) - 1) / S = ((1 + (w - 1) / S : ℕ) : ℤ) := by
      rw [show (w : ℤ) - 1 = ((w - 1 : ℕ) : ℤ) by omega]
      push_cast
      rfl
    rw [if_pos hwpos, hcast, Int.natCast_dvd_natCast]
    constructor
    · rintro ⟨-, hlt⟩
      have hlt' : 1 + (w - 1) / S < k := Int.ofNat_lt.mp hlt
      have hquot : w - 1 < (k - 1) * S := by
        have hdiv : (w - 1) / S < k - 1 := by
          generalize (w - 1) / S = q at hlt' ⊢
          omega
        exact (Nat.div_lt_iff_lt_mul (by omega)).mp hdiv
      have hmono : (k - 1) * S ≤ (c - 1) * S := Nat.mul_le_mul_right S (by omega)
      have hw' : (c - 1) * S = w := by omega
      have hkc : (k - 1) * S = (c - 1) * S := by omega
      have hk1 : k - 1 = c - 1 := Nat.eq_of_mul_eq_mul_right (by omega) hkc
      have hk2 : 1 ≤ k := (Nat.le_add_right 1 _).trans hlt'.le
      refine ⟨by omega, hwpos, ⟨c - 1, by rw [Nat.mul_comm, hw']⟩, ?_⟩
      rw [← Nat.mul_assoc, hw'] at hlast
      omega
    · rintro ⟨rfl, -, ⟨q, hq⟩, hrest⟩
      have hqc : q < k := by
        have hqk : S * q * 1000000000 < k * S * 1000000000 := by
          rw [← hq]
          omega
        have hqk' : S * q < S * k := by
          rw [Nat.mul_comm S k]
          omega
        exact Nat.lt_of_mul_lt_mul_left hqk'
      have hdiv : (w - 1) / S < q := by
        rw [Nat.div_lt_iff_lt_mul (by omega), Nat.mul_comm q S, ← hq]
        omega
      refine ⟨Int.natCast_pos.mpr (Nat.add_pos_left Nat.one_pos _), Int.ofNat_lt.mpr ?_⟩
      generalize (w - 1) / S = p at hdiv ⊢
      omega
  · rw [if_neg hwpos]
    exact iff_of_false (fun h => lt_irrefl _ h.1) fun h => hwpos h.2.1

theorem startIndexForSeconds_cue (hcue : m.info.cue = some cue) {seconds : ℕ} (hpos : 0 < seconds)
    (hfit : seconds * 1000000000 < 2 ^ 64) :
    m.info.startIndexForSeconds seconds =
      .ok ((cue.segments.findIdx fun segment => seconds * 1000000000 < segment.endNs : ℕ) : ℤ) := by
  unfold TaskInfo.startIndexForSeconds
  rw [if_neg (by omega), hcue]
  dsimp only
  rw [Int.toNat_natCast, mul_of_lt hfit, Except.ok_bind]

/-- The start of a segment, in whole seconds, is in that segment only if nothing is cut off. -/
theorem startIndexForSeconds_boundary (hcue : m.info.cue = some cue) {k : ℕ} (hk : 0 < k)
    (hlt : k < cue.segments.length) :
    m.info.startIndexForSeconds (m.boundary k / 1000000000 : ℕ) = .ok (k : ℤ) ↔
      1000000000 ∣ m.boundary k := by
  have hbefore : m.boundary (k - 1) < m.boundary k := by
    have hprev := boundary_lt (m := m) (i := k - 1) (by rw [count_cue hcue]; omega)
    rwa [show k - 1 + 1 = k by omega] at hprev
  have hd := m.duration_lt
  have hle := m.boundary_le_duration (i := k) (by rw [count_cue hcue]; exact hlt)
  have hprev : cue.segments[k - 1].endNs = m.boundary k := by
    rw [← boundary_succ_cue hcue (by omega), show k - 1 + 1 = k by omega]
  constructor
  · intro h
    by_contra hcut
    by_cases hzero : m.boundary k / 1000000000 = 0
    · rw [hzero] at h
      have hk0 := Except.ok.inj ((startIndexForSeconds_zero m).symm.trans h)
      omega
    · rw [startIndexForSeconds_cue hcue (by omega) (by omega)] at h
      have hidx := Int.natCast_inj.mp (Except.ok.inj h)
      have hnot := List.not_of_lt_findIdx (show k - 1 < cue.segments.findIdx fun segment =>
        decide (m.boundary k / 1000000000 * 1000000000 < segment.endNs) by omega)
      rw [decide_eq_false_iff_not, hprev] at hnot
      omega
  · intro hdvd
    rw [startIndexForSeconds_cue hcue (by omega) (by omega), Nat.div_mul_cancel hdvd]
    congr 2
    rw [List.findIdx_eq hlt]
    refine ⟨?_, fun j hj => ?_⟩
    · rw [decide_eq_true_eq, ← boundary_succ_cue hcue hlt]
      exact boundary_lt (by rw [count_cue hcue]; exact hlt)
    · have hbound := List.pairwise_iff_getElem.mp cue.ordered j k (by omega) hlt hj
      rw [decide_eq_false_iff_not, boundary_cue hcue hlt]
      omega

/-- A time is past the timeline exactly if it is not before the end of the source. -/
theorem startIndexForSeconds_end (hcue : m.info.cue = some cue) {seconds : ℕ}
    (hfit : seconds * 1000000000 < 2 ^ 64) (hpos : 0 < seconds) :
    m.info.startIndexForSeconds seconds = .ok (cue.segments.length : ℤ) ↔
      m.info.durationNs.toNat ≤ seconds * 1000000000 := by
  rw [startIndexForSeconds_cue hcue hpos hfit, Except.ok.injEq, Int.natCast_inj,
    List.findIdx_eq_length]
  obtain ⟨starts, scale, hdescribes⟩ := m.described cue hcue
  obtain ⟨last, hlast, hend⟩ := Option.map_eq_some_iff.mp hdescribes.last
  constructor
  · intro h
    have hfalse := h last (List.mem_of_getLast? hlast)
    rw [decide_eq_false_iff_not, hend] at hfalse
    exact not_lt.mp hfalse
  · intro hle segment hsegment
    rw [decide_eq_false_iff_not, not_lt]
    obtain ⟨i, hi, rfl⟩ := List.getElem_of_mem hsegment
    refine le_trans ?_ hle
    rw [← boundary_succ_cue hcue hi]
    by_cases hnext : i + 1 < m.count
    · exact (m.boundary_le_duration hnext).le
    · rw [count_cue hcue] at hnext
      rw [show i + 1 = m.count by rw [count_cue hcue]; omega, boundary_count]

/-! ### The playlist -/

theorem divCeil_bound (a : ℕ) : a ≤ U64.divCeil a 1000000000 * 1000000000 := by
  unfold U64.divCeil
  split <;> omega

/-- No segment is longer than the target. -/
theorem within_target (m : Media) {i : ℕ} (hi : i < m.count) :
    ((m.boundary (i + 1) - m.boundary i : ℕ) : ℤ) ≤
      max (match m.info.cue with
        | some cue => (U64.divCeil cue.maxDurationNs 1000000000 : ℤ)
        | none => max m.info.segmentSeconds 1) 1 * nsPerSecond := by
  have hmax : ∀ target : ℤ, ((m.boundary (i + 1) - m.boundary i : ℕ) : ℤ) ≤ target * nsPerSecond →
      ((m.boundary (i + 1) - m.boundary i : ℕ) : ℤ) ≤ max target 1 * nsPerSecond := by
    intro target h
    refine h.trans ?_
    unfold nsPerSecond
    omega
  apply hmax
  cases hcue : m.info.cue with
  | none =>
    have hpos := m.info.segmentSeconds_pos
    dsimp only
    rw [max_segmentSeconds, boundary_fixed hcue hi]
    have hnext : m.boundary (i + 1) ≤ (i + 1) * (m.info.segmentSeconds.toNat * 1000000000) := by
      unfold boundary
      rw [hcue]
      exact min_le_left _ _
    rw [Nat.add_mul, Nat.one_mul] at hnext
    generalize i * (m.info.segmentSeconds.toNat * 1000000000) = start at hnext ⊢
    unfold nsPerSecond
    omega
  | some cue =>
    obtain ⟨starts, scale, hdescribes⟩ := m.described cue hcue
    rw [count_cue hcue] at hi
    have hbound := hdescribes.bound _ (List.getElem_mem hi)
    have hceil := divCeil_bound cue.maxDurationNs
    rw [boundary_cue hcue hi, boundary_succ_cue hcue hi]
    unfold nsPerSecond
    dsimp only
    omega

/-- The first listed segment. -/
def start (m : Media) (startIndex : ℤ) : ℕ := (min startIndex m.count).toNat

theorem start_le (m : Media) (startIndex : ℤ) : m.start startIndex ≤ m.count := by
  unfold start
  omega

theorem start_eq (m : Media) (startIndex : ℤ) :
    max 0 (min startIndex m.count) = (m.start startIndex : ℤ) := by
  unfold start
  omega

/-- The arithmetic of the segment length does not overflow. -/
def Fits (m : Media) : Prop :=
  match m.info.cue with
  | some _ => m.info.segmentSeconds * nsPerSecond < 2 ^ 64
  | none => m.info.segmentSeconds * nsPerSecond < 2 ^ 63

/-- The playlist, where nothing overflows and the start is known. -/
def listed (m : Media) (startIndex : ℤ) (startNs : ℕ) : MediaPlaylist where
  targetDuration := max (match m.info.cue with
    | some cue => (U64.divCeil cue.maxDurationNs 1000000000 : ℤ)
    | none => max m.info.segmentSeconds 1) 1
  mediaSequence := m.start startIndex
  seconds := if 0 < m.start startIndex then some (startNs / 1000000000) else none
  items := (List.range (m.count - m.start startIndex)).map fun k =>
    (((m.start startIndex + k : ℕ) : ℤ),
      m.boundary (m.start startIndex + k + 1) - m.boundary (m.start startIndex + k))

theorem indices_eq (start count : ℕ) :
    TaskInfo.indices start count =
      (List.range (count - start)).map fun k => ((start + k : ℕ) : ℤ) := by
  unfold TaskInfo.indices
  rw [show ((count : ℤ) - start).toNat = count - start by omega]
  refine List.map_congr_left fun k _ => ?_
  push_cast
  rfl

theorem mediaPlaylist_eq (hfits : m.Fits) {startIndex : ℤ} {startNs : ℕ}
    (hstart : 0 < m.start startIndex → m.info.segmentStartNs (m.start startIndex) = .ok startNs) :
    m.info.mediaPlaylist startIndex = .ok (m.listed startIndex startNs) := by
  have hpos := m.info.segmentSeconds_pos
  have hcount : m.info.segmentCount = .ok (m.count : ℤ) := by
    unfold Fits at hfits
    cases hcue : m.info.cue with
    | some cue => exact segmentCount_cue hcue
    | none =>
      rw [hcue] at hfits
      rw [segmentCount_fixed hcue, if_pos hfits]
  have hsegment : mul (max m.info.segmentSeconds 1).toNat 1000000000 =
      .ok (m.info.segmentSeconds.toNat * 1000000000) := by
    rw [segmentNs_eq]
    refine mul_of_lt ?_
    unfold Fits nsPerSecond at hfits
    cases hcue : m.info.cue <;> rw [hcue] at hfits <;> dsimp only at hfits <;> omega
  have hseconds : m.info.initSeconds (m.start startIndex) =
      .ok (m.listed startIndex startNs).seconds := by
    unfold TaskInfo.initSeconds listed
    dsimp only
    by_cases hzero : 0 < m.start startIndex
    · rw [if_pos (by omega), if_pos hzero, hstart hzero]
      rfl
    · rw [if_neg (by omega), if_neg hzero]
  have hitems : (TaskInfo.indices (m.start startIndex) m.count).mapM
      (m.info.itemNs (m.info.segmentSeconds.toNat * 1000000000) m.count) =
      .ok ((TaskInfo.indices (m.start startIndex) m.count).map fun index =>
        m.boundary (index.toNat + 1) - m.boundary index.toNat) := by
    refine Except.mapM_eq_ok fun index hindex => ?_
    rw [indices_eq] at hindex
    obtain ⟨k, hk, rfl⟩ := List.mem_map.mp hindex
    rw [Int.toNat_natCast]
    exact itemNs_listed (by rw [List.mem_range] at hk; omega)
  unfold TaskInfo.mediaPlaylist
  rw [hcount, Except.ok_bind, start_eq]
  dsimp only
  rw [hseconds, Except.ok_bind, hsegment, Except.ok_bind, hitems, Except.ok_bind, indices_eq,
    List.map_map, List.zip_map']
  rfl

/-- Everything but the way back from seconds agrees. -/
theorem agrees_iff_start (hfits : m.Fits) {startIndex : ℤ} {startNs : ℕ} :
    m.Agrees startIndex m.count (m.listed startIndex startNs) ↔
      m.info.startIndexForSeconds ((m.listed startIndex startNs).seconds.getD 0 : ℕ) =
        .ok (m.start startIndex : ℤ) := by
  have hle := m.start_le startIndex
  have hfst : (m.listed startIndex startNs).items.map Prod.fst =
      TaskInfo.indices (m.start startIndex) m.count := by
    rw [indices_eq]
    unfold listed
    rw [List.map_map]
    rfl
  have hsnd : (m.listed startIndex startNs).items.map Prod.snd =
      (List.range (m.count - m.start startIndex)).map fun k =>
        m.boundary (m.start startIndex + k + 1) - m.boundary (m.start startIndex + k) := by
    unfold listed
    rw [List.map_map]
    rfl
  constructor
  · intro h
    rw [← start_eq]
    exact h.mapped
  · intro hmapped
    refine ⟨?_, fun index hindex => ?_, fun index hindex => ?_, fun ns hns => ?_, ?_⟩
    · rw [hfst, start_eq]
    · rw [start_eq] at hindex
      rw [hfst, indices_eq, validateSegmentIndex_iff (fun hcue => ?_) (by omega)]
      · rw [List.mem_map]
        constructor
        · rintro ⟨k, hk, rfl⟩
          rw [List.mem_range] at hk
          omega
        · intro hlt
          exact ⟨(index - m.start startIndex).toNat, List.mem_range.mpr (by omega), by omega⟩
      · unfold Fits at hfits
        rwa [hcue] at hfits
    · rw [hfst, indices_eq] at hindex
      have hsome : m.start startIndex < m.count := by
        by_contra hnot
        rw [show m.count - m.start startIndex = 0 by omega] at hindex
        cases hindex
      obtain ⟨n, hn⟩ : ∃ n, m.count - m.start startIndex = n + 1 :=
        ⟨m.count - m.start startIndex - 1, by omega⟩
      rw [hn, List.range_succ_eq_map] at hindex
      obtain rfl : (m.start startIndex : ℤ) = index := Option.some.inj hindex
      refine ⟨_, seekNs_listed hsome, ?_⟩
      have hsum := sum_boundaries (m := m) (m.start startIndex) (m.count - m.start startIndex)
        (by omega)
      have hd := m.duration_pos
      rw [show m.start startIndex + (m.count - m.start startIndex) = m.count by omega,
        boundary_count] at hsum
      rw [hsnd]
      omega
    · rw [hsnd] at hns
      obtain ⟨k, hk, rfl⟩ := List.mem_map.mp hns
      rw [List.mem_range] at hk
      exact m.within_target (by omega)
    · rw [hmapped, start_eq]

/-- The start of the first listed segment is a whole second; where nothing is listed, the seconds
that are written are past the source also in whole seconds. -/
def Aligned (m : Media) (startIndex : ℤ) : Prop :=
  match m.info.cue with
  | none =>
    m.count ≤ startIndex → 0 < m.info.durationSeconds →
      m.info.segmentSeconds ∣ m.info.durationSeconds →
      m.info.durationNs ≤ m.info.durationSeconds * nsPerSecond
  | some cue =>
    (0 < startIndex → ∀ segment, cue.segment startIndex = some segment →
      1000000000 ∣ segment.startNs) ∧
    (cue.segments.length ≤ startIndex →
      cue.segments.length * m.info.segmentSeconds * nsPerSecond < 2 ^ 64 ∧
      m.info.durationNs ≤ cue.segments.length * m.info.segmentSeconds * nsPerSecond)

/-- The endpoints agree on the playlist from this index. -/
def EndpointsAgree (m : Media) (startIndex : ℤ) : Prop :=
  ∃ (count : ℤ) (p : MediaPlaylist), m.info.segmentCount = .ok count ∧
    m.info.mediaPlaylist startIndex = .ok p ∧ m.Agrees startIndex count p

theorem endpointsAgree_iff (hfits : m.Fits) {startIndex : ℤ} {startNs : ℕ}
    (hstart : 0 < m.start startIndex → m.info.segmentStartNs (m.start startIndex) = .ok startNs) :
    m.EndpointsAgree startIndex ↔
      (0 < m.start startIndex → m.info.startIndexForSeconds (startNs / 1000000000 : ℕ) =
        .ok (m.start startIndex : ℤ)) := by
  have hcount : m.info.segmentCount = .ok (m.count : ℤ) := by
    unfold Fits at hfits
    cases hcue : m.info.cue with
    | some cue => exact segmentCount_cue hcue
    | none =>
      rw [hcue] at hfits
      rw [segmentCount_fixed hcue, if_pos hfits]
  have hmapped : m.info.startIndexForSeconds ((m.listed startIndex startNs).seconds.getD 0 : ℕ) =
      .ok (m.start startIndex : ℤ) ↔
      (0 < m.start startIndex → m.info.startIndexForSeconds (startNs / 1000000000 : ℕ) =
        .ok (m.start startIndex : ℤ)) := by
    unfold listed
    dsimp only
    by_cases hzero : 0 < m.start startIndex
    · rw [if_pos hzero]
      exact ⟨fun h _ => h, fun h => h hzero⟩
    · rw [if_neg hzero, show m.start startIndex = 0 by omega]
      exact iff_of_true m.startIndexForSeconds_zero fun h => absurd h (lt_irrefl 0)
  rw [← hmapped, ← agrees_iff_start hfits]
  constructor
  · rintro ⟨count, p, hcount', hp, hagrees⟩
    cases hcount.symm.trans hcount'
    cases (mediaPlaylist_eq hfits hstart).symm.trans hp
    exact hagrees
  · intro h
    exact ⟨m.count, _, hcount, mediaPlaylist_eq hfits hstart, h⟩

theorem not_endpointsAgree_of_overflow (hfits : ¬m.Fits) (startIndex : ℤ) :
    ¬m.EndpointsAgree startIndex := by
  have hpos := m.info.segmentSeconds_pos
  rintro ⟨count, p, hcount, hp, -⟩
  unfold Fits at hfits
  cases hcue : m.info.cue with
  | none =>
    rw [hcue] at hfits
    rw [segmentCount_fixed hcue, if_neg hfits] at hcount
    cases hcount
  | some cue =>
    rw [hcue] at hfits
    have hsegment : mul (max m.info.segmentSeconds 1).toNat 1000000000 = .error .overflow := by
      rw [segmentNs_eq]
      refine if_neg ?_
      unfold nsPerSecond at hfits
      omega
    unfold TaskInfo.mediaPlaylist at hp
    obtain ⟨_, -, hp⟩ := Except.bind_eq_ok.mp hp
    obtain ⟨_, -, hp⟩ := Except.bind_eq_ok.mp hp
    rw [hsegment] at hp
    cases hp

theorem endpointsAgree_fixed (hcue : m.info.cue = none) (hfits : m.Fits) (startIndex : ℤ) :
    m.EndpointsAgree startIndex ↔ m.Aligned startIndex := by
  have hle := m.start_le startIndex
  have hd := m.duration_lt
  obtain ⟨hlast, hend, hcount⟩ := count_bounds hcue
  have hfit : m.info.segmentSeconds.toNat * 1000000000 < 2 ^ 63 := by
    unfold Fits nsPerSecond at hfits
    rw [hcue] at hfits
    dsimp only at hfits
    omega
  have hstartNs : m.info.segmentStartNs (m.start startIndex) =
      .ok (m.start startIndex * m.info.segmentSeconds.toNat * 1000000000) := by
    have hbound : m.start startIndex * (m.info.segmentSeconds.toNat * 1000000000) < 2 ^ 64 := by
      have hmono := Nat.mul_le_mul_right (m.info.segmentSeconds.toNat * 1000000000) hle
      have hsplit : m.count * (m.info.segmentSeconds.toNat * 1000000000) =
          (m.count - 1) * (m.info.segmentSeconds.toNat * 1000000000) +
            m.info.segmentSeconds.toNat * 1000000000 := by
        rw [← Nat.succ_mul, Nat.succ_eq_add_one, Nat.sub_add_cancel hcount]
      omega
    rw [← Nat.mul_assoc] at hbound
    unfold TaskInfo.segmentStartNs
    rw [hcue]
    dsimp only [Option.bind_none]
    by_cases hzero : (m.start startIndex : ℤ) ≤ 0
    · rw [if_pos hzero, show m.start startIndex = 0 by omega, Nat.zero_mul, Nat.zero_mul]
    · rw [if_neg hzero, segmentNs_eq, Int.toNat_natCast, mul_of_lt (by omega), Except.ok_bind,
        mul_of_lt hbound]
  rw [endpointsAgree_iff hfits fun _ => hstartNs, Nat.mul_div_cancel _ (by decide)]
  unfold Aligned
  rw [hcue]
  dsimp only
  have hwhole := wholeCount_lt_iff hcue hle
  by_cases hzero : 0 < m.start startIndex
  · rw [startIndexForSeconds_fixed hcue hzero]
    have hmapped : (Except.ok (if 0 < m.wholeCount ∧ m.wholeCount < m.start startIndex then
        m.wholeCount else (m.start startIndex : ℤ)) : Except Fault ℤ) = .ok (m.start startIndex : ℤ) ↔
        ¬(0 < m.wholeCount ∧ m.wholeCount < m.start startIndex) := by
      rw [Except.ok.injEq]
      split
      · next h => exact iff_of_false (by omega) (not_not.mpr h)
      · next h => exact iff_of_true rfl h
    rw [hmapped, hwhole]
    have hstart : m.start startIndex = m.count ↔ (m.count : ℤ) ≤ startIndex := by
      unfold start
      omega
    rw [hstart]
    constructor
    · intro h hcount' hseconds hdvd
      by_contra hlt
      exact h hzero ⟨hcount', hseconds, hdvd, not_le.mp hlt⟩
    · rintro h - ⟨hcount', hseconds, hdvd, hlt⟩
      exact not_le.mpr hlt (h hcount' hseconds hdvd)
  · refine iff_of_true (fun h => absurd h hzero) fun hcount' => ?_
    unfold start at hzero
    omega

theorem endpointsAgree_cue (hcue : m.info.cue = some cue) (hfits : m.Fits) (startIndex : ℤ) :
    m.EndpointsAgree startIndex ↔ m.Aligned startIndex := by
  have hpos := m.info.segmentSeconds_pos
  have hcount := count_cue hcue
  obtain ⟨starts, scale, hdescribes⟩ := m.described cue hcue
  have hsome : 0 < cue.segments.length := by
    obtain ⟨s, hs, -⟩ := hdescribes.longest
    exact List.length_pos_of_mem hs
  unfold Aligned
  rw [hcue]
  dsimp only
  by_cases hnone : startIndex ≤ 0
  · have hzero : m.start startIndex = 0 := by
      unfold start
      omega
    have hagree : m.EndpointsAgree startIndex ↔ (0 < m.start startIndex →
        m.info.startIndexForSeconds (0 / 1000000000 : ℕ) = .ok (m.start startIndex : ℤ)) :=
      endpointsAgree_iff hfits fun h => absurd h (by omega)
    rw [hagree]
    exact iff_of_true (fun h => absurd h (by omega))
      ⟨fun h => absurd h (by omega), fun h => absurd h (by omega)⟩
  obtain ⟨k, rfl⟩ : ∃ k : ℕ, startIndex = k := ⟨startIndex.toNat, by omega⟩
  have hk : 0 < k := by omega
  have hsegment : cue.segment k = cue.segments[k]? := if_pos (Int.natCast_nonneg k)
  by_cases hlt : k < cue.segments.length
  · have hstart : m.start k = k := by
      unfold start
      omega
    have hstartNs : m.info.segmentStartNs (m.start k) = .ok (m.boundary k) := by
      rw [hstart]
      exact segmentStartNs_listed (by omega)
    rw [endpointsAgree_iff hfits fun _ => hstartNs, hstart,
      startIndexForSeconds_boundary hcue hk hlt, hsegment, List.getElem?_eq_getElem hlt,
      boundary_cue hcue hlt]
    constructor
    · intro h
      refine ⟨fun _ segment hs => ?_, fun hlen => absurd hlt (by omega)⟩
      cases hs
      exact h hk
    · exact fun h _ => h.1 (by omega) _ rfl
  · -- nothing is listed, and the seconds are those of segments of fixed length
    have hstart : m.start k = cue.segments.length := by
      unfold start
      omega
    have hprod : (cue.segments.length * m.info.segmentSeconds * nsPerSecond : ℤ) =
        (cue.segments.length * m.info.segmentSeconds.toNat * 1000000000 : ℕ) := by
      unfold nsPerSecond
      push_cast
      rw [Int.toNat_of_nonneg hpos.le]
    have hcode : m.info.segmentStartNs (m.start k) =
        mul cue.segments.length m.info.segmentSeconds.toNat >>= fun seconds =>
          mul seconds 1000000000 := by
      unfold TaskInfo.segmentStartNs
      rw [hstart, segment_cue hcue, List.getElem?_eq_none (Nat.le_refl _)]
      dsimp only
      rw [if_neg (by omega), segmentNs_eq, Int.toNat_natCast]
    rw [hprod, hsegment, List.getElem?_eq_none (by omega)]
    by_cases hfit : cue.segments.length * m.info.segmentSeconds.toNat * 1000000000 < 2 ^ 64
    · have hseconds : 0 < cue.segments.length * m.info.segmentSeconds.toNat :=
        Nat.mul_pos hsome (by omega)
      have hstartNs : m.info.segmentStartNs (m.start k) =
          .ok (cue.segments.length * m.info.segmentSeconds.toNat * 1000000000) := by
        rw [hcode, mul_of_lt (by omega), Except.ok_bind, mul_of_lt hfit]
      rw [endpointsAgree_iff hfits fun _ => hstartNs, Nat.mul_div_cancel _ (by decide), hstart,
        startIndexForSeconds_end hcue hfit hseconds]
      constructor
      · intro h
        have hend := h hsome
        exact ⟨(fun _ _ hs => nomatch hs), fun _ => ⟨by omega, by omega⟩⟩
      · intro h _
        have hend := (h.2 (by omega)).2
        omega
    · refine iff_of_false ?_ fun h => ?_
      swap
      · have hbound := (h.2 (by omega)).1
        omega
      rintro ⟨count, p, hcount', hp, -⟩
      have hfault : m.info.initSeconds (m.start k) = .error .overflow := by
        unfold TaskInfo.initSeconds
        rw [if_pos (by omega), hcode]
        unfold mul
        by_cases hlow : cue.segments.length * m.info.segmentSeconds.toNat < 2 ^ 64
        · rw [if_pos hlow, Except.ok_bind, if_neg hfit]
          rfl
        · rw [if_neg hlow]
          rfl
      unfold TaskInfo.mediaPlaylist at hp
      rw [segmentCount_cue hcue, Except.ok_bind, start_eq] at hp
      dsimp only at hp
      rw [hfault] at hp
      cases hp

/-- From every start index, the listed segments, their durations and the way back from seconds
agree exactly where nothing overflows and whole seconds cut nothing off. -/
theorem endpoints_agree_iff (m : Media) (startIndex : ℤ) :
    m.EndpointsAgree startIndex ↔ m.Fits ∧ m.Aligned startIndex := by
  by_cases hfits : m.Fits
  · cases hcue : m.info.cue with
    | none => exact (endpointsAgree_fixed hcue hfits startIndex).trans (and_iff_right hfits).symm
    | some cue => exact (endpointsAgree_cue hcue hfits startIndex).trans (and_iff_right hfits).symm
  · exact iff_of_false (not_endpointsAgree_of_overflow hfits startIndex) fun h => hfits h.1

theorem halfSeconds_pos : (0 : ℤ) < 6 := by decide

/-- Two segments, of two and a half seconds each. -/
def halfSeconds : Media where
  info := {
    cue := some {
      segments := [⟨0, 2500000000⟩, ⟨2500000000, 5000000000⟩]
      timestampScaleNs := 1000000
      maxDurationNs := 2500000000
      nonempty := by decide
      contiguous := by decide }
    segmentSeconds := 6
    durationNs := 5000000000
    segmentSeconds_pos := halfSeconds_pos }
  duration_pos := by decide
  duration_lt := by decide
  described := by
    rintro cue ⟨⟩
    exact ⟨_, 1000000,
      { starts_iff := fun _ => Iff.rfl
        nonempty := by decide
        contiguous := by decide
        increasing := by decide
        last := rfl
        longest := by decide
        bound := by decide
        scale := rfl }⟩

/-- The second segment is asked for by a second of the first. -/
theorem half_seconds_map_back :
    halfSeconds.info.mediaPlaylist 1 = .ok ⟨3, 1, some 2, [(1, 2500000000)]⟩ ∧
      halfSeconds.info.startIndexForSeconds 2 = .ok 0 ∧ ¬halfSeconds.EndpointsAgree 1 := by
  have hp' : halfSeconds.info.mediaPlaylist 1 = .ok ⟨3, 1, some 2, [(1, 2500000000)]⟩ := by
    decide +kernel
  refine ⟨hp', by decide +kernel, ?_⟩
  rintro ⟨count, p, hcount, hp, hagrees⟩
  obtain rfl : _ = p := Except.ok.inj (hp'.symm.trans hp)
  have hcount' : halfSeconds.info.segmentCount = .ok 2 := rfl
  obtain rfl : 2 = count := Except.ok.inj (hcount'.symm.trans hcount)
  exact absurd hagrees.mapped (by decide +kernel)

end Media

end Rustorr.Gst
