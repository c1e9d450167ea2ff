import Rustorr.Gst.Task

/-! Which segment a task hands out. A task that always knows where its runner stands
hands out the segment it was asked for; it loses track when the runner moves and the
number of the segment sent last stays. -/

namespace Rustorr.Gst

namespace Runner

variable {α : Type} {media : ℤ → α} {info : TaskInfo} {r : Runner α}

@[simp] theorem startAt_position (p : ℤ) : (startAt p : Runner α).position = p := rfl

@[simp] theorem startAt_isFrozen (p : ℤ) : (startAt p : Runner α).isFrozen = false := rfl

@[simp] theorem startAt_statePlaying (p : ℤ) : (startAt p : Runner α).statePlaying = true := rfl

@[simp] theorem startAt_ready (p : ℤ) : (startAt p : Runner α).ready = none := rfl

theorem running_of_playing {index : ℤ} (hfrozen : r.isFrozen = false)
    (hplaying : r.statePlaying = true) : r.running index = r := by
  simp [running, hfrozen, hplaying]

/-- The runner stands on `position`, and what it has ready it can repeat as `last`. -/
structure At (media : ℤ → α) (r : Runner α) (position last : ℤ) : Prop where
  position_eq : r.position = position
  awake : r.isFrozen = false
  playing : r.statePlaying = true
  ready_eq : ∀ index segment, r.ready = some (index, segment) → index = last ∧ segment = media last

theorem startAt_at (media : ℤ → α) (p last : ℤ) : At media (startAt p) p last :=
  ⟨rfl, rfl, rfl, fun _ _ h => nomatch h⟩

/-- The runner after it gave the segment at `p` under the number `index`. -/
structure Gave (r : Runner α) (p index : ℤ) (segment : α) : Prop where
  position_eq : r.position = p + 1
  awake : r.isFrozen = false
  playing : r.statePlaying = true
  ready_eq : r.ready = some (index, segment)

/-- A segment that is not repeated: a failed read leaves the runner as it was, a good
one gives the segment the runner stands on. -/
theorem At.getSegment_of_not_ready {p last index : ℤ} (h : At media r p last)
    (hready : ∀ s, r.ready = some s → s.1 ≠ index) (read : Read) :
    (∃ e published, read.failure = some e ∧
      r.getSegment media index read = (.error e, r, published)) ∨
    ∃ r', read.failure = none ∧ r.getSegment media index read = (.ok (media p), r', true) ∧
      r'.Gave p index (media p) := by
  have hnone : (r.ready.filter fun s => s.1 = index) = none := by
    cases hr : r.ready with
    | none => rfl
    | some s => simp [Option.filter, hready s hr]
  unfold Runner.getSegment
  rw [running_of_playing h.awake h.playing]
  dsimp only
  rw [hnone]
  cases hread : read.failure with
  | some e => exact .inl ⟨e, read.publishes, rfl, rfl⟩
  | none =>
    rw [h.position_eq]
    exact .inr ⟨_, rfl, rfl, rfl, h.awake, h.playing, rfl⟩

/-- After the segment that was asked for, the runner stands behind it. -/
theorem Gave.at_next {index : ℤ} (h : r.Gave index index (media index)) :
    At media r (index + 1) index := by
  refine ⟨h.position_eq, h.awake, h.playing, fun i s hready => ?_⟩
  obtain ⟨rfl, rfl⟩ := Prod.mk.inj (Option.some.inj (h.ready_eq.symm.trans hready))
  exact ⟨rfl, rfl⟩

/-- What is ready is repeated, whatever the read would have done. -/
theorem At.getSegment_of_ready {p last : ℤ} (h : At media r p last) (hready : r.ready ≠ none)
    (read : Read) : r.getSegment media last read = (.ok (media last), r, false) := by
  obtain ⟨⟨index, segment⟩, hr⟩ := Option.ne_none_iff_exists'.mp hready
  obtain ⟨rfl, rfl⟩ := h.ready_eq index segment hr
  unfold Runner.getSegment
  rw [running_of_playing h.awake h.playing]
  dsimp only
  rw [hr]
  simp [Option.filter]

/-- A new runner starts at the segment it is asked for first. -/
theorem getSegment_new (index : ℤ) (read : Read) :
    ({} : Runner α).getSegment media index read = (startAt index).getSegment media index read := rfl

/-- The task knows where its runner stands: after the segment `last`. A frozen runner
is sought before it is read. -/
inductive Tracked (media : ℤ → α) (r : Runner α) (last : ℤ) : Prop
  | asleep (h : r.isFrozen = true)
  | new (hr : r = {}) (hlast : last = -1)
  | behind (h : At media r (last + 1) last)

/-- A runner that plays is tracked only where it stands. -/
theorem Tracked.position_eq {last : ℤ} (h : Tracked media r last) (hawake : r.isFrozen = false)
    (hplaying : r.statePlaying = true) : r.position = last + 1 := by
  cases h with
  | asleep h => simp [hawake] at h
  | new hr => simp [hr] at hplaying
  | behind h => exact h.position_eq

/-- An init is read from the start it is asked for, where a tracked runner may stand
already. -/
theorem Tracked.ensureInit {last : ℤ} (h : Tracked media r last) (hasInit : Bool) (startIndex : ℤ)
    (read : Read) :
    (r.ensureInit hasInit startIndex read).2 = startAt startIndex ∨
      startIndex = last + 1 ∧ (r.ensureInit hasInit startIndex read).2 = r ∧
        At media r (last + 1) last := by
  have hrunner : (r.ensureInit hasInit startIndex read).2 =
      if r.isFrozen ∨ ¬r.statePlaying ∨ r.position ≠ startIndex then startAt startIndex else r := by
    unfold Runner.ensureInit
    dsimp only
    cases hasInit <;> cases read.failure <;> rfl
  rw [hrunner]
  split
  · exact .inl rfl
  · rename_i hstay
    simp only [not_or, not_not, Bool.not_eq_true] at hstay
    obtain ⟨hawake, hplaying, hposition⟩ := hstay
    have hnext := h.position_eq hawake (Bool.eq_true_of_not_eq_false hplaying)
    refine .inr ⟨hposition.symm.trans hnext, rfl, ?_⟩
    cases h with
    | asleep h => simp [hawake] at h
    | new hr => simp [hr] at hplaying
    | behind h => exact h

theorem ensureInit_result (hasInit : Bool) (startIndex : ℤ) (read : Read) :
    (r.ensureInit hasInit startIndex read).1 = .ok () ∧ (hasInit = true ∨ read.failure = none) ∨
      ∃ e, (r.ensureInit hasInit startIndex read).1 = .error e ∧ hasInit = false ∧
        read.failure = some e := by
  unfold Runner.ensureInit
  cases hasInit
  · cases hread : read.failure with
    | none => exact .inl ⟨rfl, .inr rfl⟩
    | some e => exact .inr ⟨e, rfl, rfl, rfl⟩
  · exact .inl ⟨rfl, .inl rfl⟩

end Runner

open Runner (Tracked At startAt)

namespace Task

variable {α : Type} (media : ℤ → α) (info : TaskInfo)

structure Tracks (t : Task α) : Prop where
  last_ge : -1 ≤ t.lastSentSegment
  tracked : ∀ r, t.runner = some r → Tracked media r t.lastSentSegment

/-- The call moves the runner by a seek. -/
def Seeks (t : Task α) (r : Runner α) (index : ℤ) : Prop :=
  r.isFrozen = true ∨ (t.lastSentSegment = -1 ∧ index > 0) ∨
    (t.lastSentSegment ≠ -1 ∧ t.lastSentSegment ≠ index ∧ index ≠ t.lastSentSegment + 1 ∧
      t.catchesUp info index = false)

/-- The step loses track of the runner. A request seeks away and its read fails; or it
asks again for the segment counted as sent last, which the runner has not got, and is
given the next. An init is asked of the runner when segments were sent, away from the
next one; or before any was sent, from a later start, and its read fails. -/
def Slips (t : Task α) : TaskEvent → Prop
  | .segment index call => ∃ r, t.runner = some r ∧ info.validateSegmentIndex index = .ok () ∧
      ((t.Seeks info r index ∧ index ≠ t.lastSentSegment + 1 ∧ (call.reads 0).failure ≠ none) ∨
        (r.isFrozen = false ∧ t.lastSentSegment ≠ -1 ∧ index = t.lastSentSegment ∧
          r.ready = none ∧ (call.reads 0).failure = none))
  | .ensureInit startIndex read => ∃ r, t.runner = some r ∧
      info.validateSegmentIndex (max startIndex 0) = .ok () ∧
      ¬(t.hasInit = true ∧ (max startIndex 0 = 0 ∨ t.lastSentSegment ≠ -1)) ∧
      ((t.lastSentSegment ≠ -1 ∧ max startIndex 0 ≠ t.lastSentSegment + 1) ∨
        (t.lastSentSegment = -1 ∧ 0 < startIndex ∧ t.hasInit = false ∧ read.failure ≠ none))
  | _ => False

variable {media info} {t : Task α}

theorem tracks_new : Tracks media ({} : Task α) :=
  ⟨le_refl _, fun _ hr => .new (Option.some.inj hr).symm rfl⟩

theorem Tracks.of_runner_none (hlast : -1 ≤ t.lastSentSegment) (h : t.runner = none) :
    Tracks media t :=
  ⟨hlast, fun _ hr => by rw [h] at hr; exact nomatch hr⟩

/-- The runner plays and stands after the last segment. -/
def Standing (media : ℤ → α) (t : Task α) : Prop :=
  -1 ≤ t.lastSentSegment ∧
    ∃ r, t.runner = some r ∧ At media r (t.lastSentSegment + 1) t.lastSentSegment

theorem Standing.tracks (h : Standing media t) : Tracks media t := by
  obtain ⟨hlast, r, hr, hat⟩ := h
  refine ⟨hlast, fun r' hr' => ?_⟩
  rw [hr] at hr'
  exact .behind (Option.some.inj hr' ▸ hat)

theorem getSegment_of_not_ready {r : Runner α} {p last : ℤ} (index : ℤ) (hr : t.runner = some r)
    (h : At media r p last) (hready : ∀ s, r.ready = some s → s.1 ≠ index) (read : Read) :
    (∃ e hasInit, read.failure = some e ∧
      t.getSegment media index read = (.error e, { t with hasInit := hasInit })) ∨
    ∃ r', read.failure = none ∧ r'.Gave p index (media p) ∧
      t.getSegment media index read =
        (.ok (media p), { t with runner := some r', hasInit := true }) := by
  unfold Task.getSegment
  rw [hr]
  dsimp only
  rcases h.getSegment_of_not_ready hready read with
    ⟨e, published, hread, heq⟩ | ⟨r', hread, heq, hgave⟩
  · refine .inl ⟨e, t.hasInit || published, hread, ?_⟩
    rw [heq, ← hr]
  · refine .inr ⟨r', hread, hgave, ?_⟩
    rw [heq]
    simp

/-- Catching up keeps the task at its runner's side, however it ends. -/
theorem catchUp_standing (call : Call) (n k : ℕ) (h : Standing media t) :
    Standing media (catchUp media call n k t).2 ∧
      ((catchUp media call n k t).1 = .ok () →
        (catchUp media call n k t).2.lastSentSegment = t.lastSentSegment + n) := by
  induction n generalizing k t with
  | zero => exact ⟨h, fun _ => (Int.add_zero _).symm⟩
  | succ n ih =>
    obtain ⟨hlast, r, hr, hat⟩ := h
    unfold catchUp
    by_cases hcancel : call.cancelled k = true
    · rw [if_pos hcancel]
      exact ⟨⟨hlast, r, hr, hat⟩, fun h => nomatch h⟩
    · rw [if_neg hcancel]
      dsimp only
      have hready : ∀ s, r.ready = some s → s.1 ≠ t.lastSentSegment + 1 := by
        intro s hs
        have := (hat.ready_eq s.1 s.2 hs).1
        omega
      rcases getSegment_of_not_ready (t := { t with lastSentSegment := t.lastSentSegment + 1 })
        _ hr hat hready (call.reads k) with ⟨e, hasInit, -, heq⟩ | ⟨r', -, hgave, heq⟩
      · rw [heq]
        refine ⟨⟨?_, r, hr, ?_⟩, fun h => nomatch h⟩
        · show -1 ≤ t.lastSentSegment + 1 - 1
          omega
        · show At media r (t.lastSentSegment + 1 - 1 + 1) (t.lastSentSegment + 1 - 1)
          rw [Int.add_sub_cancel]
          exact hat
      · rw [heq]
        have hnext : Standing media
            { t with lastSentSegment := t.lastSentSegment + 1, runner := some r', hasInit := true } :=
          ⟨by show -1 ≤ t.lastSentSegment + 1; omega, r', rfl, hgave.at_next⟩
        refine ⟨(ih (k + 1) hnext).1, fun hok => ?_⟩
        rw [(ih (k + 1) hnext).2 hok]
        push_cast
        omega

/-- A seek puts a runner at the segment it is for. -/
theorem seekToSegment_of_valid {r : Runner α} {index : ℤ} (hr : t.runner = some r)
    (hvalid : info.validateSegmentIndex index = .ok ()) :
    t.seekToSegment info index = (.ok (), { t with runner := some (startAt index) }) := by
  obtain ⟨ns, hns, hat⟩ := TaskInfo.segmentAt_seekNs hvalid
  unfold seekToSegment
  rw [hr, hns]
  dsimp only
  rw [Runner.seek, hat]

/-- A segment that is not repeated is sent, or its read fails and only the init segment
may have changed. -/
theorem sendSegment_of_not_ready {r : Runner α} (last : ℤ) {index : ℤ} (hr : t.runner = some r)
    (h : At media r index last) (hready : ∀ s, r.ready = some s → s.1 ≠ index) (read : Read) :
    (∃ e hasInit, read.failure = some e ∧
      t.sendSegment media index read = (.error e, { t with hasInit := hasInit })) ∨
    ∃ r', read.failure = none ∧ r'.Gave index index (media index) ∧
      t.sendSegment media index read = (.ok (media index),
        { t with runner := some r', hasInit := true, lastSentSegment := index }) := by
  unfold sendSegment
  rcases getSegment_of_not_ready index hr h hready read with
    ⟨e, hasInit, hread, heq⟩ | ⟨r', hread, hgave, heq⟩
  · exact .inl ⟨e, hasInit, hread, by rw [heq]⟩
  · exact .inr ⟨r', hread, hgave, by rw [heq]⟩

theorem sendSegment_of_ready {r : Runner α} {p : ℤ} (hr : t.runner = some r)
    (h : At media r p t.lastSentSegment) (hready : r.ready ≠ none) (read : Read) :
    t.sendSegment media t.lastSentSegment read = (.ok (media t.lastSentSegment), t) := by
  unfold sendSegment Task.getSegment
  rw [hr]
  dsimp only
  rw [h.getSegment_of_ready hready]
  dsimp only
  rw [Bool.or_false, ← hr]

/-- A new runner is at any segment that is asked of it. -/
theorem sendSegment_new (index : ℤ) (read : Read) (hr : t.runner = some {}) :
    t.sendSegment media index read =
      ({ t with runner := some (startAt index) } : Task α).sendSegment media index read := by
  unfold sendSegment Task.getSegment
  rw [hr]
  dsimp only
  rw [Runner.getSegment_new]

theorem moveTo_of_seeks {r : Runner α} {index : ℤ} (hr : t.runner = some r)
    (hvalid : info.validateSegmentIndex index = .ok ()) (hseeks : t.Seeks info r index) (call : Call) :
    t.moveTo media info r index call = (.ok (), { t with runner := some (startAt index) }, 0) := by
  have hseek := seekToSegment_of_valid hr hvalid
  unfold moveTo
  dsimp only
  rw [hseek]
  rcases hseeks with h | h | ⟨h₁, h₂, h₃, h₄⟩
  · rw [if_pos (Or.inl h)]
  · rw [if_pos (Or.inr h)]
  · split
    · rfl
    · rw [if_pos ⟨h₁, h₂, h₃⟩, h₄]
      rfl

variable (media) in
/-- The requests that do not seek: the next segment, the last one again, or one that is
caught up with. -/
theorem moveTo_of_not_seeks {r : Runner α} {index : ℤ} (hindex : 0 ≤ index)
    (hseeks : ¬t.Seeks info r index) (call : Call) :
    r.isFrozen = false ∧
      ((index = t.lastSentSegment + 1 ∨ (t.lastSentSegment ≠ -1 ∧ index = t.lastSentSegment)) ∧
          t.moveTo media info r index call = (.ok (), t, 0) ∨
        ∃ n : ℕ, t.lastSentSegment ≠ -1 ∧ index = t.lastSentSegment + n + 1 ∧
          t.moveTo media info r index call =
            ((catchUp media call n 0 t).1, (catchUp media call n 0 t).2, n)) := by
  unfold Seeks at hseeks
  simp only [not_or, not_and, Bool.not_eq_true, Bool.not_eq_false] at hseeks
  obtain ⟨hawake, hfirst, hfar⟩ := hseeks
  refine ⟨hawake, ?_⟩
  have hstay : ¬(r.isFrozen = true ∨ t.lastSentSegment = -1 ∧ index > 0) := by
    rintro (h | ⟨h₁, h₂⟩)
    · simp [hawake] at h
    · exact hfirst h₁ h₂
  unfold moveTo
  dsimp only
  rw [if_neg hstay]
  by_cases hjump : t.lastSentSegment ≠ -1 ∧ t.lastSentSegment ≠ index ∧ index ≠ t.lastSentSegment + 1
  · have hcatch := hfar hjump.1 hjump.2.1 hjump.2.2
    rw [if_pos hjump, if_pos hcatch]
    refine .inr ⟨(index - t.lastSentSegment - 1).toNat, hjump.1, ?_, rfl⟩
    have hafter : 0 < index - t.lastSentSegment := by
      unfold catchesUp at hcatch
      exact (of_decide_eq_true hcatch).2.1
    omega
  · rw [if_neg hjump]
    refine .inl ⟨?_, rfl⟩
    by_cases hlast : t.lastSentSegment = -1
    · have := hfirst hlast
      omega
    · simp only [ne_eq, not_and, not_not] at hjump
      by_cases hsame : t.lastSentSegment = index
      · exact .inr ⟨hlast, hsame.symm⟩
      · exact .inl (hjump hlast hsame)

theorem Tracks.of_sent {r : Runner α} {index : ℤ} (hindex : 0 ≤ index)
    (hlast : t.lastSentSegment = index) (hr : t.runner = some r) (h : r.Gave index index (media index)) : Tracks media t := by
  refine Standing.tracks ⟨by omega, r, hr, ?_⟩
  rw [hlast]
  exact h.at_next

theorem not_tracks_of_position_ne {r : Runner α} (hr : t.runner = some r) (hawake : r.isFrozen = false)
    (hplaying : r.statePlaying = true) (h : r.position ≠ t.lastSentSegment + 1) :
    ¬Tracks media t :=
  fun htracks => h ((htracks.tracked r hr).position_eq hawake hplaying)

/-- A segment read from where the runner stands keeps the task at its side, unless the
runner was moved there and the read fails. -/
theorem sendSegment_tracks {r : Runner α} (last : ℤ) {index : ℤ} (hindex : 0 ≤ index)
    (hr : t.runner = some r) (hat : At media r index last)
    (hready : ∀ s, r.ready = some s → s.1 ≠ index) (read : Read) (hfail : read.failure ≠ none → Tracks media t) :
    Tracks media (t.sendSegment media index read).2 ∧
      ∀ s, (t.sendSegment media index read).1 = .ok s → s = media index := by
  rcases sendSegment_of_not_ready last hr hat hready read with
    ⟨e, hasInit, hread, heq⟩ | ⟨r', -, hgave, heq⟩
  · rw [heq]
    have htracks := hfail (by simp [hread])
    exact ⟨⟨htracks.last_ge, htracks.tracked⟩, fun _ h => nomatch h⟩
  · rw [heq]
    exact ⟨.of_sent hindex rfl rfl hgave, fun _ h => (Except.ok.inj h).symm⟩

/-- Once a segment counts as sent, a runner that is awake stands after it. -/
theorem Tracks.at_of_sent {r : Runner α} (h : Tracks media t) (hr : t.runner = some r)
    (hawake : r.isFrozen = false) (hlast : t.lastSentSegment ≠ -1) :
    At media r (t.lastSentSegment + 1) t.lastSentSegment := by
  cases h.tracked r hr with
  | asleep hasleep => simp [hawake] at hasleep
  | new _ hnew => exact absurd hnew hlast
  | behind hat => exact hat

theorem sendSegment_next {r : Runner α} (h : Tracks media t) (hr : t.runner = some r)
    (hawake : r.isFrozen = false) (read : Read) :
    Tracks media (t.sendSegment media (t.lastSentSegment + 1) read).2 ∧
      ∀ s, (t.sendSegment media (t.lastSentSegment + 1) read).1 = .ok s →
        s = media (t.lastSentSegment + 1) := by
  have hindex : 0 ≤ t.lastSentSegment + 1 := by
    have := h.last_ge
    omega
  cases h.tracked r hr with
  | asleep hasleep => simp [hawake] at hasleep
  | new hnew hlast =>
    rw [sendSegment_new _ _ (hnew ▸ hr)]
    exact sendSegment_tracks t.lastSentSegment hindex rfl
      (Runner.startAt_at media _ _) (fun _ h => nomatch h) _
      fun _ => Standing.tracks ⟨h.last_ge, _, rfl, Runner.startAt_at media _ _⟩
  | behind hat =>
    refine sendSegment_tracks _ hindex hr hat (fun s hs => ?_) _ fun _ => h
    have := (hat.ready_eq s.1 s.2 hs).1
    omega

theorem sendSegment_again {r : Runner α} (h : Tracks media t) (hr : t.runner = some r)
    (hawake : r.isFrozen = false) (hlast : t.lastSentSegment ≠ -1) (read : Read)
    (hread : r.ready = none → read.failure ≠ none) :
    Tracks media (t.sendSegment media t.lastSentSegment read).2 ∧
      ∀ s, (t.sendSegment media t.lastSentSegment read).1 = .ok s → s = media t.lastSentSegment := by
  have hat := h.at_of_sent hr hawake hlast
  by_cases hready : r.ready = none
  · rcases getSegment_of_not_ready t.lastSentSegment hr hat
      (fun s hs => by simp [hready] at hs) read with ⟨e, hasInit, -, heq⟩ | ⟨r', hok, -, -⟩
    · unfold sendSegment
      rw [heq]
      exact ⟨⟨h.last_ge, h.tracked⟩, fun _ h => nomatch h⟩
    · exact absurd hok (hread hready)
  · rw [sendSegment_of_ready hr hat hready]
    exact ⟨h, fun _ h => (Except.ok.inj h).symm⟩

theorem segmentLocked_of_not_slips (h : Tracks media t) {index : ℤ} {call : Call}
    (hslip : ¬t.Slips info (.segment index call)) :
    Tracks media (t.segmentLocked media info index call).2 ∧
      ∀ s, (t.segmentLocked media info index call).1 = .ok s → s = media index := by
  unfold segmentLocked
  cases hr : t.runner with
  | none => exact ⟨h, fun _ h => nomatch h⟩
  | some r =>
    dsimp only
    cases hvalid : info.validateSegmentIndex index with
    | error e => exact ⟨h, fun _ h => nomatch h⟩
    | ok =>
      have hindex := TaskInfo.validateSegmentIndex_nonneg hvalid
      dsimp only
      by_cases hseeks : t.Seeks info r index
      · rw [moveTo_of_seeks hr hvalid hseeks]
        refine sendSegment_tracks t.lastSentSegment hindex rfl
          (Runner.startAt_at media index _) (fun _ h => nomatch h) _
          fun hread => ⟨h.last_ge, fun r' hr' => ?_⟩
        -- the read fails: the runner was not moved away
        have hnext : index = t.lastSentSegment + 1 := by
          by_contra hne
          exact hslip ⟨r, hr, hvalid, .inl ⟨hseeks, hne, hread⟩⟩
        rw [← Option.some.inj hr', hnext]
        exact .behind (Runner.startAt_at media _ _)
      · obtain ⟨hawake, ⟨hat, hmove⟩ | ⟨n, hlast, hn, hmove⟩⟩ :=
          moveTo_of_not_seeks media hindex hseeks call
        · rw [hmove]
          dsimp only
          rcases hat with rfl | ⟨hlast, rfl⟩
          · exact sendSegment_next h hr hawake _
          · exact sendSegment_again h hr hawake hlast _ fun hready hread =>
              hslip ⟨r, hr, hvalid, .inr ⟨hawake, hlast, rfl, hready, hread⟩⟩
        · have hstanding : Standing media t := ⟨h.last_ge, r, hr, h.at_of_sent hr hawake hlast⟩
          obtain ⟨hafter, hcount⟩ := catchUp_standing call n 0 hstanding
          have htracks := hafter.tracks
          rw [hmove]
          cases hresult : (catchUp media call n 0 t).1 with
          | error e => exact ⟨htracks, fun _ h => nomatch h⟩
          | ok =>
            obtain ⟨-, r', hr', hat⟩ := hafter
            have hnext : index = (catchUp media call n 0 t).2.lastSentSegment + 1 := by
              rw [hcount hresult, hn]
            dsimp only
            rw [hnext]
            exact sendSegment_next htracks hr' hat.awake _

theorem segmentLocked_of_slips (h : Tracks media t) {index : ℤ} {call : Call}
    (hslip : t.Slips info (.segment index call)) :
    ¬Tracks media (t.segmentLocked media info index call).2 := by
  obtain ⟨r, hr, hvalid, ⟨hseeks, hne, hread⟩ | ⟨hawake, hlast, rfl, hready, hread⟩⟩ := hslip
  · unfold segmentLocked
    rw [hr, hvalid]
    dsimp only
    rw [moveTo_of_seeks hr hvalid hseeks]
    dsimp only
    rcases sendSegment_of_not_ready (t := { t with runner := some (startAt index) })
      t.lastSentSegment rfl (Runner.startAt_at media index _) (fun _ h => nomatch h)
      (call.reads 0) with ⟨e, hasInit, -, heq⟩ | ⟨r', hok, -, -⟩
    · rw [heq]
      exact not_tracks_of_position_ne rfl rfl rfl hne
    · exact absurd hok hread
  · have hat := h.at_of_sent hr hawake hlast
    have hindex := TaskInfo.validateSegmentIndex_nonneg hvalid
    have hseeks : ¬t.Seeks info r t.lastSentSegment := by
      rintro (h | ⟨h, -⟩ | ⟨-, h, -⟩)
      · simp [hawake] at h
      · exact hlast h
      · exact h rfl
    have hmove : t.moveTo media info r t.lastSentSegment call = (.ok (), t, 0) := by
      obtain ⟨-, ⟨-, hmove⟩ | ⟨n, -, hn, -⟩⟩ := moveTo_of_not_seeks media hindex hseeks call
      · exact hmove
      · omega
    unfold segmentLocked
    rw [hr, hvalid]
    dsimp only
    rw [hmove]
    dsimp only
    unfold sendSegment
    rcases getSegment_of_not_ready t.lastSentSegment hr hat
      (fun s hs => by simp [hready] at hs) (call.reads 0) with ⟨e, hasInit, hfail, -⟩ | ⟨r', -, hgave, heq⟩
    · simp [hread] at hfail
    · rw [heq]
      refine not_tracks_of_position_ne rfl hgave.awake hgave.playing ?_
      rw [hgave.position_eq]
      show t.lastSentSegment + 1 + 1 ≠ t.lastSentSegment + 1
      omega

variable (info) in
/-- Either `ensure_init` changes nothing, or it asks the runner: then the runner stands
on the start, and a start before anything was sent is counted if it succeeds. -/
theorem ensureInit_cases (startIndex : ℤ) (read : Read) :
    (t.ensureInit info startIndex read).2 = t ∧
        ¬(∃ r, t.runner = some r ∧ info.validateSegmentIndex (max startIndex 0) = .ok () ∧
          ¬(t.hasInit = true ∧ (max startIndex 0 = 0 ∨ t.lastSentSegment ≠ -1))) ∨
      ∃ r, t.runner = some r ∧ info.validateSegmentIndex (max startIndex 0) = .ok () ∧
        ¬(t.hasInit = true ∧ (max startIndex 0 = 0 ∨ t.lastSentSegment ≠ -1)) ∧
        (t.ensureInit info startIndex read).2.runner =
          some (r.ensureInit t.hasInit (max startIndex 0) read).2 ∧
        (t.ensureInit info startIndex read).2.lastSentSegment =
          if 0 < startIndex ∧ t.lastSentSegment = -1 ∧ (t.hasInit = true ∨ read.failure = none) then
            startIndex - 1
          else t.lastSentSegment := by
  unfold Task.ensureInit
  dsimp only
  cases hvalid : info.validateSegmentIndex (max startIndex 0) with
  | error e => exact .inl ⟨rfl, fun ⟨_, _, h, _⟩ => nomatch h⟩
  | ok =>
    by_cases hready : t.hasInit = true ∧ (max startIndex 0 = 0 ∨ t.lastSentSegment ≠ -1)
    · dsimp only
      rw [if_pos hready]
      exact .inl ⟨rfl, fun ⟨_, _, _, h⟩ => h hready⟩
    · dsimp only
      rw [if_neg hready]
      cases hr : t.runner with
      | none => exact .inl ⟨rfl, fun ⟨_, h, _⟩ => nomatch h⟩
      | some r =>
        refine .inr ⟨r, rfl, rfl, hready, ?_⟩
        dsimp only
        rcases Runner.ensureInit_result (r := r) t.hasInit (max startIndex 0) read with
          ⟨hresult, hgood⟩ | ⟨e, hresult, hinit, hread⟩
        · rw [hresult]
          refine ⟨rfl, ?_⟩
          dsimp only
          by_cases hfirst : 0 < startIndex ∧ t.lastSentSegment = -1
          · rw [if_pos ⟨by omega, hfirst.2⟩, if_pos ⟨hfirst.1, hfirst.2, hgood⟩]
            omega
          · rw [if_neg fun h => hfirst ⟨by omega, h.2⟩, if_neg fun h => hfirst ⟨h.1, h.2.1⟩]
        · rw [hresult]
          refine ⟨rfl, ?_⟩
          dsimp only
          rw [if_neg]
          simp [hinit, hread]

/-- A task whose runner was asked for an init has track of it if the start is the next
segment. -/
theorem tracks_iff_of_asked {t' : Task α} {r : Runner α} {hasInit : Bool} {startIndex : ℤ} {read : Read}
    (h : Tracks media t) (hr : t.runner = some r) (hstart : 0 ≤ startIndex)
    (hrunner : t'.runner = some (r.ensureInit hasInit startIndex read).2) :
    Tracks media t' ↔ startIndex = t'.lastSentSegment + 1 := by
  have hplace := (h.tracked r hr).ensureInit hasInit startIndex read
  constructor
  · intro htracks
    rcases hplace with hmoved | ⟨hnext, hstayed, hat⟩
    · rw [hmoved] at hrunner
      exact (htracks.tracked _ hrunner).position_eq rfl rfl
    · rw [hstayed] at hrunner
      rw [hnext, ← hat.position_eq]
      exact (htracks.tracked _ hrunner).position_eq hat.awake hat.playing
  · intro hnext
    refine Standing.tracks ⟨by omega, _, hrunner, ?_⟩
    rcases hplace with hmoved | ⟨hbehind, hstayed, hat⟩
    · rw [hmoved, hnext]
      exact Runner.startAt_at media _ _
    · rw [hstayed, show t'.lastSentSegment = t.lastSentSegment by omega]
      exact hat

theorem ensureInit_tracks_iff (h : Tracks media t) (startIndex : ℤ) (read : Read) :
    Tracks media (t.ensureInit info startIndex read).2 ↔
      ¬t.Slips info (.ensureInit startIndex read) := by
  rcases ensureInit_cases info (t := t) startIndex read with
    ⟨hsame, hquiet⟩ | ⟨r, hr, hvalid, hready, hrunner, hcount⟩
  · rw [hsame]
    exact iff_of_true h fun ⟨r, hr, hvalid, hready, _⟩ => hquiet ⟨r, hr, hvalid, hready⟩
  · rw [tracks_iff_of_asked h hr (le_max_right _ _) hrunner, hcount]
    constructor
    · rintro hnext ⟨-, -, -, -, ⟨hsent, haway⟩ | ⟨hfirst, hstart, hinit, hread⟩⟩
      · rw [if_neg fun h => hsent h.2.1] at hnext
        exact haway hnext
      · rw [if_neg (by simp [hinit, hread])] at hnext
        omega
    · intro hslip
      by_cases hsent : t.lastSentSegment = -1
      · by_cases hstart : 0 < startIndex
        · have hgood : t.hasInit = true ∨ read.failure = none := by
            by_contra hbad
            simp only [not_or, Bool.not_eq_true] at hbad
            exact hslip ⟨r, hr, hvalid, hready, .inr ⟨hsent, hstart, hbad.1, hbad.2⟩⟩
          rw [if_pos ⟨hstart, hsent, hgood⟩]
          omega
        · rw [if_neg fun h => hstart h.1]
          omega
      · rw [if_neg fun h => hsent h.2.1]
        by_contra haway
        exact hslip ⟨r, hr, hvalid, hready, .inl ⟨hsent, haway⟩⟩

theorem freezeIfInactive_tracks (h : Tracks media t) (cutoff : ℕ) :
    Tracks media (t.freezeIfInactive cutoff).2 := by
  unfold freezeIfInactive
  split
  · exact h
  · split
    · exact h
    · cases hr : t.runner with
      | none => exact h
      | some r =>
        dsimp only
        split
        · exact h
        · exact ⟨h.last_ge, fun r' hr' => .asleep (Option.some.inj hr' ▸ rfl)⟩

theorem dispose_tracks (h : Tracks media t) : Tracks media t.dispose := by
  unfold dispose
  split
  · exact h
  · exact .of_runner_none h.last_ge rfl

theorem segment_state (index : ℤ) (call : Call) :
    (t.segment media info index call).2 = (t.segmentLocked media info index call).2 := by
  unfold segment
  rcases t.segmentLocked media info index call with ⟨_ | s, t'⟩
  · rfl
  · dsimp only
    split <;> rfl

theorem segment_ok {index : ℤ} {call : Call} {s : α} (h : (t.segment media info index call).1 = .ok s) :
    (t.segmentLocked media info index call).1 = .ok s := by
  unfold segment at h
  rcases hlocked : t.segmentLocked media info index call with ⟨_ | s', t'⟩
  · rw [hlocked] at h
    exact nomatch h
  · rw [hlocked] at h
    dsimp only at h
    split at h
    · exact nomatch h
    · exact h

/-- A step loses track of the runner exactly where it slips. -/
theorem step_tracks_iff (h : Tracks media t) (event : TaskEvent) :
    Tracks media (t.step media info event).2 ↔ ¬t.Slips info event := by
  cases event with
  | ensureInit startIndex read => exact ensureInit_tracks_iff h startIndex read
  | segment index call =>
    show Tracks media (t.segment media info index call).2 ↔ _
    rw [segment_state]
    exact ⟨fun htracks hslip => segmentLocked_of_slips h hslip htracks,
      fun hslip => (segmentLocked_of_not_slips h hslip).1⟩
  | freezeIfInactive cutoff => exact iff_of_true (freezeIfInactive_tracks h cutoff) id
  | updateLastActive now => exact iff_of_true ⟨h.last_ge, h.tracked⟩ id
  | dispose => exact iff_of_true (dispose_tracks h) id

variable (media info) in
/-- A task keeps track of its runner throughout a run exactly if no step of it slips. -/
theorem tracks_throughout_iff (events : List TaskEvent) :
    (∀ k, Tracks media (after media info (events.take k))) ↔
      ∀ k event, events[k]? = some event → ¬(after media info (events.take k)).Slips info event :=
  Mealy.forall_after_iff (step media info) (P := Tracks media) (Q := Tracks media)
    (B := fun t event => t.Slips info event) (fun _ h => h)
    (fun _ event h hslip => (step_tracks_iff h event).mpr hslip)
    (fun _ event h hslip htracks => (step_tracks_iff h event).mp htracks hslip) tracks_new events

/-- In a run in which no step slips, every segment handed out is the one asked for. -/
theorem segments_are_numbered (media : ℤ → α) (info : TaskInfo) (events : List TaskEvent)
    (hslip : ∀ k event, events[k]? = some event →
      ¬(after media info (events.take k)).Slips info event)
    (k : ℕ) (index : ℤ) (call : Call) (s : α) (hk : events[k]? = some (.segment index call))
    (hs : (answers media info events)[k]? = some (.segment (.ok s))) : s = media index := by
  have htracks := (tracks_throughout_iff media info events).mpr hslip k
  unfold answers at hs
  rw [Mealy.run_output, hk] at hs
  have hanswer : ((after media info (events.take k)).segment media info index call).1 = .ok s :=
    TaskAnswer.segment.inj (Option.some.inj hs)
  exact (segmentLocked_of_not_slips htracks (hslip k _ hk)).2 s (segment_ok hanswer)

/-- Segments of six seconds of a source of ten minutes. -/
def tenMinutes : TaskInfo where
  cue := none
  segmentSeconds := 6
  durationNs := 600000000000
  segmentSeconds_pos := by decide

/-- A read that goes through. -/
def served : Read := ⟨none, true⟩

/-- A read that is cancelled. -/
def cancelled : Read := ⟨some .canceled, false⟩

/-- A call that nothing disturbs. -/
def undisturbed : Call := ⟨fun _ => false, fun _ => served, false⟩

/-- From a start further on, the next segments, one of them twice, one that is caught up
with, one after a freeze, and one far away. -/
def watching : List TaskEvent :=
  [.ensureInit 5 served, .segment 5 undisturbed, .segment 6 undisturbed, .segment 6 undisturbed,
    .segment 9 undisturbed, .updateLastActive 7, .freezeIfInactive 8, .segment 10 undisturbed,
    .segment 40 undisturbed]

instance (t : Task α) (r : Runner α) (index : ℤ) : Decidable (t.Seeks info r index) :=
  inferInstanceAs (Decidable (_ ∨ _ ∨ _))

instance (t : Task α) : (event : TaskEvent) → Decidable (t.Slips info event)
  | .segment _ _ => inferInstanceAs (Decidable (∃ r ∈ t.runner, _ ∧ _))
  | .ensureInit _ _ => inferInstanceAs (Decidable (∃ r ∈ t.runner, _ ∧ _))
  | .freezeIfInactive _ => .isFalse id
  | .updateLastActive _ => .isFalse id
  | .dispose => .isFalse id

theorem segments_are_numbered_watching :
    (answers id tenMinutes watching)[4]? = some (.segment (.ok 9)) ∧
      ∀ s, (answers id tenMinutes watching)[4]? = some (.segment (.ok s)) → s = 9 := by
  have hslip : ∀ k : Fin watching.length,
      ¬(after id tenMinutes (watching.take k)).Slips tenMinutes watching[k] := by
    decide
  refine ⟨rfl, fun s hs => ?_⟩
  refine segments_are_numbered id tenMinutes watching (fun k event hk => ?_) 4 9 undisturbed s rfl hs
  obtain ⟨hlt, rfl⟩ := List.getElem?_eq_some_iff.mp hk
  exact hslip ⟨k, hlt⟩

/-- A start, and then the segment before it, which was never sent. -/
def stepsBack : List TaskEvent := [.ensureInit 5 served, .segment 4 undisturbed]

/-- A request far away that is given up after the seek, and then the next segment. -/
def turnsBack : List TaskEvent :=
  [.segment 0 undisturbed, .segment 50 ⟨fun _ => false, fun _ => cancelled, true⟩,
    .segment 1 undisturbed]

/-- A freeze, an init for the beginning, and then the next segment. -/
def wakesElsewhere : List TaskEvent :=
  [.segment 5 undisturbed, .freezeIfInactive 8, .ensureInit 0 served, .segment 6 undisturbed]

/-- Where the media of a segment is its number, every segment that is answered is the one
that was asked for. -/
def HandsOutAsked (events : List TaskEvent) : Prop :=
  ∀ (k : ℕ) (index : ℤ) (call : Call) (s : ℤ), events[k]? = some (TaskEvent.segment index call) →
    (answers id tenMinutes events)[k]? = some (TaskAnswer.segment (.ok s)) → s = id index

theorem other_segments_handed_out :
    ¬HandsOutAsked stepsBack ∧ ¬HandsOutAsked turnsBack ∧ ¬HandsOutAsked wakesElsewhere := by
  refine ⟨fun h => ?_, fun h => ?_, fun h => ?_⟩
  · exact absurd (h 1 4 undisturbed 5 rfl rfl) (by decide)
  · exact absurd (h 2 1 undisturbed 50 rfl rfl) (by decide)
  · exact absurd (h 3 6 undisturbed 0 rfl rfl) (by decide)

end Task

end Rustorr.Gst
