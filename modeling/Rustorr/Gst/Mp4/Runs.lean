import Mathlib.Tactic.Common
import Rustorr.Gst.Mp4.Reader
import Rustorr.Lib.Trace

/-! A reader as it takes data in: the steps of its calls, and the runs they make up. -/

namespace Rustorr.Mp4.Reader

open BigEndian Except Trace

variable {r r' : Reader} {b : Bool}

/-! ### The branches -/

theorem tryBuildSegment_cases (h : r.tryBuildSegment = .ok (r', b)) :
    (b = false ∧ r' = r ∧ r.selectVideoCount = .ok 0) ∨
    ∃ k, r.selectVideoCount = .ok k ∧ k ≠ 0 ∧
      ((r.audioTrack.id = 0 ∧ r.buildSegment k 0 false = .ok r' ∧ b = true) ∨
        ∃ r₁ a, r.audioTrack.id ≠ 0 ∧
          r.selectAudioCount (((r.video[k - 1]?).map Fragment.endTime).getD 0) = .ok (r₁, a) ∧
          ((a = 0 ∧ r' = r₁ ∧ b = false) ∨
            (a ≠ 0 ∧ r₁.buildSegment k a false = .ok r' ∧ b = true))) := by
  unfold tryBuildSegment at h
  obtain ⟨k, hk, h⟩ := bind_eq_ok.mp h
  split at h
  · next hzero =>
    cases h
    subst hzero
    exact Or.inl ⟨rfl, rfl, hk⟩
  · next hk0 =>
    refine Or.inr ⟨k, hk, hk0, ?_⟩
    split at h
    · next haudio =>
      obtain ⟨⟨r₁, a⟩, hselect, h⟩ := bind_eq_ok.mp h
      refine Or.inr ⟨r₁, a, haudio, hselect, ?_⟩
      simp only at h
      split at h
      · next ha =>
        cases h
        exact Or.inl ⟨ha, rfl, rfl⟩
      · next ha =>
        obtain ⟨r₂, hbuild, h⟩ := bind_eq_ok.mp h
        cases h
        exact Or.inr ⟨ha, hbuild, rfl⟩
    · next haudio =>
      obtain ⟨r₂, hbuild, h⟩ := bind_eq_ok.mp h
      cases h
      exact Or.inl ⟨not_not.mp haudio, hbuild, rfl⟩

/-- A selection changes the audio and nothing else. -/
theorem selectAudioCount_cases {videoEnd k : ℕ} (h : r.selectAudioCount videoEnd = .ok (r', k)) :
    ∃ audio, r.selectAudioFrom videoEnd r.audio = .ok (audio, k) ∧ r' = { r with audio } := by
  unfold selectAudioCount at h
  obtain ⟨⟨audio, k'⟩, hselect, h⟩ := bind_eq_ok.mp h
  cases h
  exact ⟨audio, hselect, rfl⟩

theorem selectAudioFrom_cases {videoEnd k : ℕ} {fragment : Fragment} {rest audio : List Fragment}
    (h : r.selectAudioFrom videoEnd (fragment :: rest) = .ok (audio, k)) :
    (∃ split rest' k', r.findAudioSplitSampleCount fragment videoEnd = .ok (split, false) ∧
      r.selectAudioFrom videoEnd rest = .ok (rest', k') ∧ audio = fragment :: rest' ∧
      k = if k' = 0 then 0 else k' + 1) ∨
    ∃ split total, r.findAudioSplitSampleCount fragment videoEnd = .ok (split, true) ∧
      fragmentSampleCount fragment = .ok total ∧ split ≠ 0 ∧ split ≤ total ∧ k = 1 ∧
      ((split = total ∧ audio = fragment :: rest) ∨
        ∃ left right, split < total ∧ splitFragmentAtSample fragment split = .ok (left, right) ∧
          audio = left :: right :: rest) := by
  unfold selectAudioFrom at h
  obtain ⟨⟨split, reached⟩, hfind, h⟩ := bind_eq_ok.mp h
  simp only at h
  split at h
  · next hreached =>
    rw [Bool.not_eq_true] at hreached
    subst hreached
    obtain ⟨⟨rest', k'⟩, hrest, h⟩ := bind_eq_ok.mp h
    cases h
    exact Or.inl ⟨split, rest', k', hfind, hrest, rfl, rfl⟩
  · next hreached =>
    rw [not_not] at hreached
    subst hreached
    obtain ⟨total, htotal, h⟩ := bind_eq_ok.mp h
    obtain ⟨u, hcheck, h⟩ := bind_eq_ok.mp h
    rw [failIf_eq_ok, not_or, not_lt] at hcheck
    refine Or.inr ⟨split, total, hfind, htotal, hcheck.1, hcheck.2, ?_⟩
    split at h
    · next hlt =>
      obtain ⟨⟨left, right⟩, hsplit, h⟩ := bind_eq_ok.mp h
      cases h
      exact ⟨rfl, Or.inr ⟨left, right, hlt, hsplit, rfl⟩⟩
    · next hlt =>
      cases h
      exact ⟨rfl, Or.inl ⟨le_antisymm hcheck.2 (not_lt.mp hlt), rfl⟩⟩

/-- Where no audio is selected, none is split. -/
theorem selectAudioFrom_zero {videoEnd : ℕ} {queue audio : List Fragment}
    (h : r.selectAudioFrom videoEnd queue = .ok (audio, 0)) : audio = queue := by
  induction queue generalizing audio with
  | nil =>
    unfold selectAudioFrom at h
    cases h
    rfl
  | cons fragment rest ih =>
    rcases selectAudioFrom_cases h with ⟨split, rest', k', -, hrest, rfl, hk⟩ | ⟨_, _, -, -, -, -, hk, -⟩
    · have hzero : k' = 0 := by
        by_contra hne
        rw [if_neg hne] at hk
        exact absurd hk.symm (Nat.succ_ne_zero k')
      subst hzero
      rw [ih hrest]
    · exact absurd hk (by decide)

/-- A build that comes to nothing changes nothing. -/
theorem tryBuildSegment_false (h : r.tryBuildSegment = .ok (r', false)) : r' = r := by
  rcases tryBuildSegment_cases h with ⟨-, rfl, -⟩ | ⟨k, -, -, ⟨-, -, hb⟩ | ⟨r₁, a, -, hselect, hcase⟩⟩
  · rfl
  · cases hb
  · rcases hcase with ⟨rfl, rfl, -⟩ | ⟨-, -, hb⟩
    · obtain ⟨audio, haudio, rfl⟩ := selectAudioCount_cases hselect
      rw [selectAudioFrom_zero haudio]
    · cases hb

/-- A queued fragment once the first `start` bytes of the payload are dropped. -/
def rebase (start : ℕ) (f : Fragment) : Fragment :=
  if f.payloadLen > 0 then { f with payloadStart := f.payloadStart - start } else f

theorem map_rebase_zero (queue : List Fragment) : queue.map (rebase 0) = queue := by
  have hid : rebase 0 = id := by
    funext f
    unfold rebase
    split <;> rfl
  rw [hid, List.map_id]

/-- The payload before the first byte that is still queued is dropped, or all of it. -/
theorem reclaimPayloads_cases (r : Reader) :
    ∃ start sourcePayload currentPayloadStart, r.reclaimPayloads = { r with
        sourcePayload, currentPayloadStart
        video := r.video.map (rebase start), audio := r.audio.map (rebase start) } ∧
      ((sourcePayload = r.sourcePayload.drop start ∧
          currentPayloadStart = r.currentPayloadStart - start ∧
          ∀ f ∈ r.video ++ r.audio, 0 < f.payloadLen → start ≤ f.payloadStart) ∨
        (sourcePayload = [] ∧ currentPayloadStart = 0 ∧ ∀ f ∈ r.video ++ r.audio, f.payloadLen = 0)) := by
  have hsame : r = { r with
      video := r.video.map (rebase 0), audio := r.audio.map (rebase 0) } := by
    rw [map_rebase_zero, map_rebase_zero]
  unfold reclaimPayloads
  split
  · exact ⟨0, r.sourcePayload, r.currentPayloadStart, hsame,
      Or.inl ⟨rfl, rfl, fun _ _ _ => Nat.zero_le _⟩⟩
  · split
    · next hnone =>
      rw [List.min?_eq_none_iff, List.map_eq_nil_iff, List.filter_eq_nil_iff] at hnone
      refine ⟨0, [], 0, ?_, Or.inr ⟨rfl, rfl, fun f hf => ?_⟩⟩
      · rw [map_rebase_zero, map_rebase_zero]
      · have hlen := hnone f hf
        simp only [decide_eq_true_eq] at hlen
        omega
    · next start hmin =>
      have hstart : ∀ f ∈ r.video ++ r.audio, 0 < f.payloadLen → start ≤ f.payloadStart := by
        intro f hf hlen
        have hle := (List.min?_eq_some_iff.mp hmin).2 f.payloadStart
          (List.mem_map_of_mem (List.mem_filter.mpr ⟨hf, decide_eq_true hlen⟩))
        exact hle
      split
      · next hzero =>
        subst hzero
        exact ⟨0, r.sourcePayload, r.currentPayloadStart, hsame, Or.inl ⟨rfl, rfl, hstart⟩⟩
      · exact ⟨start, _, _, rfl, Or.inl ⟨rfl, rfl, hstart⟩⟩

/-- The reader once a segment has been cut off its queues. -/
def cutOff (r : Reader) (videoCount audioCount : ℕ) (segment : Segment) : Reader :=
  { r with
    sequence := r.sequence + 1
    newSegment := some segment
    targetSegment := if r.cueMode then none else r.targetSegment
    lastVideoEndTime := match (r.video.take videoCount).getLast? with
      | some last => last.endTime
      | none => r.lastVideoEndTime
    completedVideoSegments :=
      if r.video.take videoCount ≠ [] then r.completedVideoSegments + 1
      else r.completedVideoSegments
    video := r.video.drop videoCount
    audio := r.audio.drop audioCount }

theorem buildSegment_cases {videoCount audioCount : ℕ} {allow : Bool}
    (h : r.buildSegment videoCount audioCount allow = .ok r') :
    ∃ segment : Segment, videoCount ≤ r.video.length ∧ audioCount ≤ r.audio.length ∧
      r.checkTracks (r.video.take videoCount) (r.audio.take audioCount) allow = .ok () ∧
      r.writeSegment (r.video.take videoCount) (r.audio.take audioCount) =
        .ok (segment.data, segment.startNs, segment.endNs) ∧
      r' = (r.cutOff videoCount audioCount segment).resetPrefix.reclaimPayloads := by
  unfold buildSegment at h
  obtain ⟨u, hvideo, h⟩ := bind_eq_ok.mp h
  rw [failIf_eq_ok, not_lt] at hvideo
  obtain ⟨u, haudio, h⟩ := bind_eq_ok.mp h
  rw [failIf_eq_ok, not_lt] at haudio
  obtain ⟨u, htracks, h⟩ := bind_eq_ok.mp h
  obtain ⟨⟨data, startNs, endNs⟩, hwrite, h⟩ := bind_eq_ok.mp h
  cases h
  exact ⟨_, hvideo, haudio, htracks, hwrite, rfl⟩

/-- The box being read is the same, and so is what waits for its payload. -/
structure SameBox (r r' : Reader) : Prop where
  boxHeader : r'.boxHeader = r.boxHeader
  boxHeaderRequired : r'.boxHeaderRequired = r.boxHeaderRequired
  currentBoxType : r'.currentBoxType = r.currentBoxType
  currentBoxRemaining : r'.currentBoxRemaining = r.currentBoxRemaining
  currentTarget : r'.currentTarget = r.currentTarget
  initDone : r'.initDone = r.initDone
  pending : r'.pending = r.pending
  sourceMoof : r'.sourceMoof = r.sourceMoof
  deferred : r'.deferred = r.deferred

theorem buildSegment_sameBox {videoCount audioCount : ℕ} {allow : Bool}
    (h : r.buildSegment videoCount audioCount allow = .ok r') :
    SameBox r r' ∧ r'.newSegment ≠ none := by
  obtain ⟨segment, -, -, -, -, rfl⟩ := buildSegment_cases h
  obtain ⟨start, sourcePayload, currentPayloadStart, hreclaim, -⟩ :=
    reclaimPayloads_cases (r.cutOff videoCount audioCount segment).resetPrefix
  rw [hreclaim]
  exact ⟨⟨rfl, rfl, rfl, rfl, rfl, rfl, rfl, rfl, rfl⟩, Option.some_ne_none segment⟩

theorem tryBuildSegment_sameBox (h : r.tryBuildSegment = .ok (r', true)) :
    SameBox r r' ∧ r'.newSegment ≠ none := by
  rcases tryBuildSegment_cases h with ⟨hb, -⟩ | ⟨k, -, -, ⟨-, hbuild, -⟩ | ⟨r₁, a, -, hselect, hcase⟩⟩
  · cases hb
  · exact buildSegment_sameBox hbuild
  · rcases hcase with ⟨-, -, hb⟩ | ⟨-, hbuild, -⟩
    · cases hb
    · obtain ⟨audio, -, rfl⟩ := selectAudioCount_cases hselect
      obtain ⟨hsame, hnew⟩ := buildSegment_sameBox hbuild
      obtain ⟨h₁, h₂, h₃, h₄, h₅, h₆, h₇, h₈, h₉⟩ := hsame
      exact ⟨⟨h₁, h₂, h₃, h₄, h₅, h₆, h₇, h₈, h₉⟩, hnew⟩

/-- The last segment takes all the video, and the audio up to the end of it; audio after
that is let go. -/
theorem remainder_cases (h : r.tryBuildEndOfStreamRemainder = .ok (r', true)) :
    ∃ r₁ r₂ audioCount, (r.video ≠ [] → r.videoStartsWithSync = true) ∧
      ((r.video ≠ [] ∧ r.audio ≠ [] ∧ ∃ selected,
          r.selectAudioCount ((r.video.getLast?.map Fragment.endTime).getD 0) = .ok (r₁, selected) ∧
          audioCount = if selected > 0 then selected else r.audio.length) ∨
        ((r.video = [] ∨ r.audio = []) ∧ r₁ = r ∧ audioCount = r.audio.length)) ∧
      r₁.buildSegment r₁.video.length audioCount true = .ok r₂ ∧
      r' = if r.video ≠ [] ∧ r₂.video = [] ∧ r₂.audio ≠ [] then { r₂ with audio := [] } else r₂ := by
  unfold tryBuildEndOfStreamRemainder at h
  split at h
  · cases h
  split at h
  · cases h
  split at h
  · cases h
  next hsync =>
  rw [not_and, not_not] at hsync
  simp only at h
  split at h
  · next hboth =>
    obtain ⟨⟨r₀, selected⟩, hselect, h⟩ := bind_eq_ok.mp h
    rw [ok_bind] at h
    obtain ⟨r₂, hbuild, h⟩ := bind_eq_ok.mp h
    cases h
    exact ⟨r₀, r₂, _, hsync, Or.inl ⟨hboth.1, hboth.2, selected, hselect, rfl⟩, hbuild, rfl⟩
  · next hone =>
    rw [ok_bind] at h
    obtain ⟨r₂, hbuild, h⟩ := bind_eq_ok.mp h
    cases h
    refine ⟨r, r₂, _, hsync, Or.inr ⟨?_, rfl, rfl⟩, hbuild, rfl⟩
    by_contra hnot
    rw [not_or] at hnot
    exact hone hnot

theorem remainder_sameBox (h : r.tryBuildEndOfStreamRemainder = .ok (r', true)) :
    SameBox r r' ∧ r'.newSegment ≠ none := by
  obtain ⟨r₁, r₂, audioCount, -, hselect, hbuild, rfl⟩ := remainder_cases h
  obtain ⟨⟨h₁, h₂, h₃, h₄, h₅, h₆, h₇, h₈, h₉⟩, hnew⟩ := buildSegment_sameBox hbuild
  have hsame : SameBox r r₂ := by
    rcases hselect with ⟨-, -, selected, hselect, -⟩ | ⟨-, rfl, -⟩
    · obtain ⟨audio, -, rfl⟩ := selectAudioCount_cases hselect
      exact ⟨h₁, h₂, h₃, h₄, h₅, h₆, h₇, h₈, h₉⟩
    · exact ⟨h₁, h₂, h₃, h₄, h₅, h₆, h₇, h₈, h₉⟩
  split
  · exact ⟨⟨hsame.boxHeader, hsame.boxHeaderRequired, hsame.currentBoxType,
      hsame.currentBoxRemaining, hsame.currentTarget, hsame.initDone, hsame.pending,
      hsame.sourceMoof, hsame.deferred⟩, hnew⟩
  · exact ⟨hsame, hnew⟩

/-- The ends of the boxes that hold no media. -/
def closes (r r' : Reader) : Prop :=
  ∃ styp sourceStyp sourceMfraDone moovCompleted sourceFinalMoovDone,
    r' = { r with styp, sourceStyp, sourceMfraDone, moovCompleted, sourceFinalMoovDone }

theorem completeBox_cases (h : r.completeBox = .ok (r', b)) :
    (b = false ∧ r.currentBoxType ≠ Kind.moof ∧ r.currentBoxType ≠ Kind.mdat ∧ r.closes r') ∨
    (b = false ∧ r.currentBoxType = Kind.moof ∧ r.completeMoof = .ok r') ∨
    (r.currentBoxType = Kind.mdat ∧ ∃ r₁, r.completeMdat = .ok r₁ ∧
      r₁.tryBuildSegment = .ok (r', b)) := by
  unfold completeBox at h
  simp only at h
  split at h
  · next hkind =>
    cases h
    exact Or.inl ⟨rfl, by rw [hkind]; decide, by rw [hkind]; decide, _, _, _, _, _, rfl⟩
  split at h
  · next hkind =>
    cases h
    exact Or.inl ⟨rfl, by rw [hkind]; decide, by rw [hkind]; decide, _, _, _, _, _, rfl⟩
  split at h
  · next hkind =>
    split at h
    · obtain ⟨u, -, h⟩ := bind_eq_ok.mp h
      cases h
      exact Or.inl ⟨rfl, by rw [hkind]; decide, by rw [hkind]; decide, _, _, _, _, _, rfl⟩
    · cases h
      exact Or.inl ⟨rfl, by rw [hkind]; decide, by rw [hkind]; decide, _, _, _, _, _, rfl⟩
  split at h
  · next hkind =>
    obtain ⟨r₁, hmoof, h⟩ := bind_eq_ok.mp h
    cases h
    exact Or.inr (Or.inl ⟨rfl, hkind, hmoof⟩)
  split at h
  · next hkind =>
    obtain ⟨r₁, hmdat, h⟩ := bind_eq_ok.mp h
    exact Or.inr (Or.inr ⟨hkind, r₁, hmdat, h⟩)
  · next hmoof hmdat =>
    cases h
    exact Or.inl ⟨rfl, hmoof, hmdat, _, _, _, _, _, rfl⟩

theorem completeMdat_cases (h : r.completeMdat = .ok r') :
    ∃ pending fragment, r.pending = some pending ∧
      attachPayload pending r.currentPayloadStart
        (r.sourcePayload.length - r.currentPayloadStart) r.sourcePayloadFromMoof = .ok fragment ∧
      ((fragment.trackId = r.videoTrack.id ∧ r' = { r with
          pending := none, sourcePayloadFromMoof := 0, currentPayloadStart := 0, sourceMoof := []
          video := r.video ++ [fragment] }) ∨
        (fragment.trackId ≠ r.videoTrack.id ∧ fragment.trackId = r.audioTrack.id ∧ r' = { r with
          pending := none, sourcePayloadFromMoof := 0, currentPayloadStart := 0, sourceMoof := []
          audio := r.audio ++ [fragment] })) := by
  unfold completeMdat at h
  split at h
  · cases h
  · next pending hpending =>
    obtain ⟨fragment, hattach, h⟩ := bind_eq_ok.mp h
    refine ⟨pending, fragment, hpending, hattach, ?_⟩
    simp only at h
    split at h
    · next hvideo =>
      cases h
      exact Or.inl ⟨hvideo, rfl⟩
    · next hvideo =>
      split at h
      · next haudio =>
        cases h
        exact Or.inr ⟨hvideo, haudio.2, rfl⟩
      · cases h

/-- The fragment a completed `moof` tells. -/
def sourceFragment (r : Reader) : Except String Fragment :=
  parseSourceMoof r.sourceMoof r.videoTrack r.audioTrack
    (if r.videoDurationHintTimescale = r.videoTrack.timescale then r.videoDurationHint else 0)
    (if r.audioDurationHintTimescale = r.audioTrack.timescale then r.audioDurationHint else 0)

/-- A `moof` settles the last duration of its track's queue, and its fragment waits. -/
theorem completeMoof_cases (h : r.completeMoof = .ok r') :
    ∃ fragment video audio vd vt ad t, r.sourceFragment = .ok fragment ∧
      ((fragment.trackId = r.videoTrack.id ∧ audio = r.audio ∧
          ∃ hint, resolveQueue r.video fragment = .ok (video, hint)) ∨
        (fragment.trackId ≠ r.videoTrack.id ∧ fragment.trackId = r.audioTrack.id ∧
          video = r.video ∧ ∃ hint, resolveQueue r.audio fragment = .ok (audio, hint)) ∨
        (fragment.trackId ≠ r.videoTrack.id ∧ fragment.trackId ≠ r.audioTrack.id ∧
          video = r.video ∧ audio = r.audio)) ∧
      r' = { r with
        video, audio
        pending := some { fragment with payloadStart := 0 }
        sourcePayloadFromMoof := r.sourceMoof.length
        videoDurationHint := vd, videoDurationHintTimescale := vt
        audioDurationHint := ad, audioDurationHintTimescale := t } := by
  unfold completeMoof at h
  obtain ⟨fragment, hparse, h⟩ := bind_eq_ok.mp h
  rw [mapError_eq_ok] at hparse
  obtain ⟨r₁, hresolve, h⟩ := bind_eq_ok.mp h
  have hvideoHint : ∀ (r : Reader) hint timescale, ∃ vd vt, r.withVideoHint hint timescale =
      { r with videoDurationHint := vd, videoDurationHintTimescale := vt } := by
    intro r hint timescale
    cases hint with
    | none => exact ⟨_, _, rfl⟩
    | some duration => exact ⟨_, _, rfl⟩
  have haudioHint : ∀ (r : Reader) hint timescale, ∃ ad t, r.withAudioHint hint timescale =
      { r with audioDurationHint := ad, audioDurationHintTimescale := t } := by
    intro r hint timescale
    cases hint with
    | none => exact ⟨_, _, rfl⟩
    | some duration => exact ⟨_, _, rfl⟩
  have hlast : ∃ vd vt ad t, r' = { r₁ with
      pending := some { fragment with payloadStart := 0 }
      sourcePayloadFromMoof := r₁.sourceMoof.length
      videoDurationHint := vd, videoDurationHintTimescale := vt
      audioDurationHint := ad, audioDurationHintTimescale := t } := by
    cases h
    split
    · obtain ⟨vd, vt, heq⟩ := hvideoHint r₁ _ fragment.timescale
      rw [heq]
      exact ⟨_, _, _, _, rfl⟩
    · split
      · obtain ⟨ad, t, heq⟩ := haudioHint r₁ _ fragment.timescale
        rw [heq]
        exact ⟨_, _, _, _, rfl⟩
      · exact ⟨_, _, _, _, rfl⟩
  obtain ⟨vd, vt, ad, t, rfl⟩ := hlast
  unfold resolvePreviousInferredDuration at hresolve
  split at hresolve
  · next hvideo =>
    obtain ⟨⟨video, hint⟩, hqueue, heq⟩ := bind_eq_ok.mp hresolve
    obtain ⟨vd', vt', hhint⟩ := hvideoHint { r with video } hint fragment.timescale
    simp only [hhint] at heq
    cases heq
    exact ⟨fragment, video, r.audio, vd, vt, ad, t, hparse, Or.inl ⟨hvideo, rfl, hint, hqueue⟩, rfl⟩
  · next hvideo =>
    split at hresolve
    · next haudio =>
      obtain ⟨⟨audio, hint⟩, hqueue, heq⟩ := bind_eq_ok.mp hresolve
      obtain ⟨ad', t', hhint⟩ := haudioHint { r with audio } hint fragment.timescale
      simp only [hhint] at heq
      cases heq
      exact ⟨fragment, r.video, audio, vd, vt, ad, t, hparse,
        Or.inr (Or.inl ⟨hvideo, haudio, rfl, hint, hqueue⟩), rfl⟩
    · next haudio =>
      cases hresolve
      exact ⟨fragment, r.video, r.audio, vd, vt, ad, t, hparse,
        Or.inr (Or.inr ⟨hvideo, haudio, rfl, rfl⟩), rfl⟩

/-! ### The header of a box -/

/-- The header of a box is being read. -/
def InHeader (r : Reader) : Prop := r.boxHeader.length < r.boxHeaderRequired

/-- A header that has the bytes it needs: the box begins, or an extended size is read. -/
def openBox (r : Reader) : Except ReaderError Reader :=
  if r.boxHeaderRequired = 8 then
    let size32 := be32 r.boxHeader
    let r := { r with currentBoxType := be32 (r.boxHeader.drop 4) }
    if size32 = 1 then .ok { r with boxHeaderRequired := 16 }
    else do
      failIf (size32 = 0) (other "top-level mp4 box size=0 is not supported")
      r.beginBox size32.toNat 8
  else r.beginBox (be64 (r.boxHeader.drop 8)) 16

theorem finishHeader_cases (h : r.finishHeader = .ok (r', b)) :
    ∃ r₁, r.openBox = .ok r₁ ∧ ((r' = r₁ ∧ b = false) ∨
      (∃ kind size headerSize, beginBox { r with currentBoxType := kind } size headerSize = .ok r₁) ∧
        r₁.finishBox = .ok (r', b)) := by
  unfold finishHeader at h
  unfold openBox
  split at h
  · next hrequired =>
    rw [if_pos hrequired]
    simp only at h ⊢
    split at h
    · next hsize =>
      rw [if_pos hsize]
      cases h
      exact ⟨_, rfl, Or.inl ⟨rfl, rfl⟩⟩
    · next hsize =>
      rw [if_neg hsize]
      obtain ⟨u, hzero, h⟩ := bind_eq_ok.mp h
      obtain ⟨r₁, hbegin, h⟩ := bind_eq_ok.mp h
      exact ⟨r₁, bind_eq_ok.mpr ⟨u, hzero, hbegin⟩, Or.inr ⟨⟨_, _, _, hbegin⟩, h⟩⟩
  · next hrequired =>
    rw [if_neg hrequired]
    obtain ⟨r₁, hbegin, h⟩ := bind_eq_ok.mp h
    exact ⟨r₁, hbegin, Or.inr ⟨⟨r.currentBoxType, _, _, hbegin⟩, h⟩⟩

/-- How a box of the media begins. -/
def begins (r r' : Reader) : Prop :=
  (r.currentBoxType = Kind.moof ∧ r.pending = none ∧
    r' = { r with
      sourceMoof := r.boxHeader, sourcePayloadFromMoof := 0, currentTarget := .moof }) ∨
  (r.currentBoxType = Kind.mdat ∧ r.pending ≠ none ∧ ∃ sourcePayloadFromMoof,
    r' = { r with
      currentPayloadStart := r.sourcePayload.length, sourcePayloadFromMoof
      currentTarget := .payload }) ∨
  (r.currentBoxType ≠ Kind.moof ∧ r.currentBoxType ≠ Kind.mdat ∧
    ∃ sourcePayloadFromMoof sourceStyp prefixActive prefixBoxes currentTarget,
      (currentTarget = .none ∨ currentTarget = .styp ∨ currentTarget = .prefixBoxes) ∧
      r' = { r with
        sourcePayloadFromMoof, sourceStyp, prefixActive, prefixBoxes, currentTarget })

theorem beginSourceBox_cases {size headerSize : ℕ} (htarget : r.currentTarget = .none)
    (h : r.beginSourceBox size headerSize = .ok r') : r.begins r' := by
  unfold beginSourceBox at h
  simp only at h
  split at h
  · next hkind =>
    obtain ⟨u, hpending, h⟩ := bind_eq_ok.mp h
    rw [failIf_eq_ok, Bool.not_eq_true, Option.isSome_eq_false_iff, Option.isNone_iff_eq_none]
      at hpending
    cases h
    exact Or.inl ⟨hkind, hpending, rfl⟩
  split at h
  · next hkind =>
    obtain ⟨u, hpending, h⟩ := bind_eq_ok.mp h
    rw [failIf_eq_ok, Option.isNone_iff_eq_none] at hpending
    cases h
    exact Or.inr (Or.inl ⟨hkind, hpending, _, rfl⟩)
  next hmoof hmdat =>
  refine Or.inr (Or.inr ⟨hmoof, hmdat, ?_⟩)
  split at h
  · cases h
    exact ⟨_, _, _, _, r.currentTarget, Or.inl htarget, rfl⟩
  split at h
  · obtain ⟨u, -, h⟩ := bind_eq_ok.mp h
    cases h
    exact ⟨_, _, _, _, _, Or.inr (Or.inl rfl), rfl⟩
  split at h
  · cases h
    exact ⟨_, _, _, _, _, Or.inr (Or.inr rfl), rfl⟩
  split at h
  · obtain ⟨u, -, h⟩ := bind_eq_ok.mp h
    obtain ⟨u, -, h⟩ := bind_eq_ok.mp h
    cases h
    exact ⟨_, _, _, _, r.currentTarget, Or.inl htarget, rfl⟩
  split at h
  · obtain ⟨u, -, h⟩ := bind_eq_ok.mp h
    obtain ⟨u, -, h⟩ := bind_eq_ok.mp h
    obtain ⟨u, -, h⟩ := bind_eq_ok.mp h
    cases h
    exact ⟨_, _, _, _, r.currentTarget, Or.inl htarget, rfl⟩
  · cases h

/-- A box begins: of the init segment, the first one after it, or a later one. -/
theorem beginBox_cases {size headerSize : ℕ} (h : r.beginBox size headerSize = .ok r') :
    headerSize ≤ size ∧
    ((r.initDone = false ∧ r.currentBoxType ≠ Kind.moof ∧ r.currentBoxType ≠ Kind.mdat ∧
        r' = { r with
          currentBoxRemaining := size - headerSize, currentTarget := .init
          init := r.init ++ r.boxHeader }) ∨
      (r.initDone = false ∧ ∃ videoTrack audioTrack newInit,
        begins { r with
          currentBoxRemaining := size - headerSize, currentTarget := .none
          videoTrack, audioTrack, initDone := true, newInit } r') ∨
      (r.initDone = true ∧
        begins { r with currentBoxRemaining := size - headerSize, currentTarget := .none } r')) := by
  unfold beginBox at h
  obtain ⟨u, hsize, h⟩ := bind_eq_ok.mp h
  rw [failIf_eq_ok, not_lt] at hsize
  refine ⟨hsize, ?_⟩
  obtain ⟨u, -, h⟩ := bind_eq_ok.mp h
  simp only at h
  split at h
  · next hfirst =>
    obtain ⟨r₁, hinit, h⟩ := bind_eq_ok.mp h
    simp only [Bool.not_eq_true] at hfirst
    unfold completeInit at hinit
    obtain ⟨u, -, hinit⟩ := bind_eq_ok.mp hinit
    obtain ⟨⟨video, audio⟩, -, hinit⟩ := bind_eq_ok.mp hinit
    cases hinit
    refine Or.inr (Or.inl ⟨hfirst.1, video, audio, some r.init, ?_⟩)
    simp only [not_true, if_false] at h
    obtain ⟨u, -, h⟩ := bind_eq_ok.mp h
    obtain ⟨u, -, h⟩ := bind_eq_ok.mp h
    exact beginSourceBox_cases rfl h
  · next hfirst =>
    simp only [Bool.not_eq_true, ok_bind] at hfirst h
    split at h
    · next hundone =>
      obtain ⟨u, hmdat, h⟩ := bind_eq_ok.mp h
      rw [failIf_eq_ok] at hmdat
      obtain ⟨u, -, h⟩ := bind_eq_ok.mp h
      cases h
      refine Or.inl ⟨hundone, fun hmoof => hfirst ⟨hundone, Or.inr hmoof⟩, hmdat, rfl⟩
    · next hdone =>
      rw [Bool.not_eq_false] at hdone
      obtain ⟨u, -, h⟩ := bind_eq_ok.mp h
      obtain ⟨u, -, h⟩ := bind_eq_ok.mp h
      exact Or.inr (Or.inr ⟨hdone, beginSourceBox_cases rfl h⟩)

/-- A header is complete: of a box, or of one whose size comes after it. -/
theorem openBox_cases (h : r.openBox = .ok r') :
    (r.boxHeaderRequired = 8 ∧ ∃ kind, r' = { r with currentBoxType := kind, boxHeaderRequired := 16 }) ∨
    ∃ kind size headerSize, beginBox { r with currentBoxType := kind } size headerSize = .ok r' := by
  unfold openBox at h
  split at h
  · next hrequired =>
    simp only at h
    split at h
    · cases h
      exact Or.inl ⟨hrequired, _, rfl⟩
    · obtain ⟨u, -, h⟩ := bind_eq_ok.mp h
      exact Or.inr ⟨_, _, _, h⟩
  · exact Or.inr ⟨r.currentBoxType, _, _, h⟩

/-! ### Runs -/

/-- What a reader tells on its way: the fragments of the source, in order, the segments
that are cut, the last one of a stream, and that its clock was set. -/
inductive Event where
  | told (fragment : Fragment)
  | cut (segment : Segment)
  | ended (segment : Segment)
  | moved

/-- All of a box has been read. -/
def AtEnd (r : Reader) : Prop := ¬r.InHeader ∧ r.currentBoxRemaining = 0

/-- The steps of the parser, and what its owner does in between. -/
inductive Step : Reader → List Event → Reader → Prop
  | header {r : Reader} {bytes : List UInt8} : bytes ≠ [] →
      r.boxHeader.length + bytes.length < r.boxHeaderRequired →
      Step r [] { r with boxHeader := r.boxHeader ++ bytes }
  | opened {r r' : Reader} {bytes : List UInt8} : bytes ≠ [] →
      r.boxHeader.length + bytes.length = r.boxHeaderRequired →
      openBox { r with boxHeader := r.boxHeader ++ bytes } = .ok r' → Step r [] r'
  | body {r : Reader} {data : List UInt8} : ¬r.InHeader → data ≠ [] →
      data.length ≤ r.currentBoxRemaining →
      Step r [] { r.writeCurrentBoxData data with
        currentBoxRemaining := r.currentBoxRemaining - data.length }
  | closed {r r' : Reader} : r.AtEnd → r.currentBoxType ≠ Kind.moof →
      r.currentBoxType ≠ Kind.mdat → r.closes r' → Step r [] r'.resetBoxState
  | moof {r r' : Reader} {fragment : Fragment} : r.AtEnd → r.currentBoxType = Kind.moof →
      r.sourceFragment = .ok fragment → r.completeMoof = .ok r' →
      Step r [.told fragment] r'.resetBoxState
  | mdat {r r' : Reader} : r.AtEnd → r.currentBoxType = Kind.mdat → r.completeMdat = .ok r' →
      Step r [] r'
  | reset {r : Reader} : r.AtEnd → r.currentBoxType = Kind.mdat → r.pending = none →
      Step r [] r.resetBoxState
  | build {r r' : Reader} {segment : Segment} : r.tryBuildSegment = .ok (r', true) →
      r'.newSegment = some segment → Step r [.cut segment] r'
  | remainder {r r' : Reader} {segment : Segment} : r.tryBuildEndOfStreamRemainder = .ok (r', true) →
      r'.newSegment = some segment → Step r [.ended segment] r'
  | defer {r : Reader} {deferred : List UInt8} : Step r [] { r with deferred }
  | taken {r : Reader} {newInit : Option (List UInt8)} {newSegment : Option Segment} :
      Step r [] { r with newInit, newSegment }
  | targeted {r r' : Reader} {startNs endNs toleranceNs : ℕ} :
      r.setTargetSegment startNs endNs toleranceNs = .ok r' → Step r [] r'
  | moved {r : Reader} {offsetNs : ℕ} : Step r [.moved] (r.setTimelineOffsetNs offsetNs)

/-- Nothing of a stream has been read. -/
structure Blank (r : Reader) : Prop where
  initDone : r.initDone = false
  video : r.video = []
  audio : r.audio = []
  pending : r.pending = none
  sourceMoof : r.sourceMoof = []
  sourcePayload : r.sourcePayload = []
  currentPayloadStart : r.currentPayloadStart = 0
  boxHeader : r.boxHeader = []
  boxHeaderRequired : r.boxHeaderRequired = 8
  currentBoxRemaining : r.currentBoxRemaining = 0
  currentTarget : r.currentTarget = .none
  deferred : r.deferred = []

theorem blank_new (segmentSeconds : Binary64) (segmentDiff : ℤ) (cueMode : Bool) :
    (new segmentSeconds segmentDiff cueMode).Blank :=
  ⟨rfl, rfl, rfl, rfl, rfl, rfl, rfl, rfl, rfl, rfl, rfl, rfl⟩

theorem blank_seekReset (r : Reader) (seconds : Binary64) : (r.seekReset seconds).Blank :=
  ⟨rfl, rfl, rfl, rfl, rfl, rfl, rfl, rfl, rfl, rfl, rfl, rfl⟩

/-! ### The calls are runs -/

/-- What the ends of a box's header and body leave. -/
theorem ready_of_begins {r₀ : Reader} (h : r₀.begins r') :
    r'.boxHeader = r₀.boxHeader ∧ r'.boxHeaderRequired = r₀.boxHeaderRequired := by
  rcases h with ⟨-, -, rfl⟩ | ⟨-, -, _, rfl⟩ | ⟨-, -, _, _, _, _, _, -, rfl⟩ <;> exact ⟨rfl, rfl⟩

theorem ready_beginBox {size headerSize : ℕ} (h : r.beginBox size headerSize = .ok r') :
    r'.boxHeader = r.boxHeader ∧ r'.boxHeaderRequired = r.boxHeaderRequired := by
  obtain ⟨-, ⟨-, -, -, rfl⟩ | ⟨-, _, _, _, hbegins⟩ | ⟨-, hbegins⟩⟩ := beginBox_cases h
  · exact ⟨rfl, rfl⟩
  · have hready := ready_of_begins hbegins
    exact hready
  · have hready := ready_of_begins hbegins
    exact hready

/-- A reader gets to another one in steps, whatever they tell. -/
def Leads (r r' : Reader) : Prop := ∃ log, Trace.Run Step r log r'

theorem Leads.refl (r : Reader) : r.Leads r := ⟨[], Trace.Run.refl r⟩

theorem Leads.trans {r₁ r₂ : Reader} (h : r.Leads r₁) (h' : r₁.Leads r₂) : r.Leads r₂ := by
  obtain ⟨log, hrun⟩ := h
  obtain ⟨log', hrun'⟩ := h'
  exact ⟨log ++ log', hrun.trans hrun'⟩

theorem Step.leads {told : List Event} (h : Step r told r') : r.Leads r' := ⟨told, Trace.Run.single h⟩

theorem leads_tryBuildSegment (h : r.tryBuildSegment = .ok (r', b)) : r.Leads r' := by
  cases b with
  | false =>
    rw [tryBuildSegment_false h]
    exact Leads.refl r
  | true =>
    obtain ⟨segment, hsegment⟩ := Option.ne_none_iff_exists'.mp (tryBuildSegment_sameBox h).2
    exact (Step.build h hsegment).leads

theorem leads_finishBox (hready : ¬r.InHeader) (h : r.finishBox = .ok (r', b)) :
    r.Leads r' := by
  unfold finishBox at h
  split at h
  · next hend =>
    obtain ⟨⟨r₁, completed⟩, hcomplete, hreset⟩ := bind_eq_ok.mp h
    cases hreset
    rcases completeBox_cases hcomplete with
      ⟨-, hmoof, hmdat, hclose⟩ | ⟨-, hkind, hmoof⟩ | ⟨hkind, r₂, hmdat, hbuild⟩
    · exact (Step.closed ⟨hready, hend⟩ hmoof hmdat hclose).leads
    · obtain ⟨fragment, _, _, _, _, _, _, hparse, -⟩ := completeMoof_cases hmoof
      exact (Step.moof ⟨hready, hend⟩ hkind hparse hmoof).leads
    · have hfirst : r.Leads r₂ := (Step.mdat ⟨hready, hend⟩ hkind hmdat).leads
      have hsecond : r₂.Leads r₁ := leads_tryBuildSegment hbuild
      have hframe : r₂.boxHeader = r.boxHeader ∧ r₂.boxHeaderRequired = r.boxHeaderRequired ∧
          r₂.currentBoxType = r.currentBoxType ∧ r₂.currentBoxRemaining = r.currentBoxRemaining ∧
          r₂.pending = none := by
        obtain ⟨_, _, -, -, ⟨-, rfl⟩ | ⟨-, -, rfl⟩⟩ := completeMdat_cases hmdat <;>
          exact ⟨rfl, rfl, rfl, rfl, rfl⟩
      have hsame : SameBox r₂ r₁ := by
        cases b with
        | false =>
          rw [tryBuildSegment_false hbuild]
          exact ⟨rfl, rfl, rfl, rfl, rfl, rfl, rfl, rfl, rfl⟩
        | true => exact (tryBuildSegment_sameBox hbuild).1
      obtain ⟨hheader, hrequired, htype, hremaining, hpending⟩ := hframe
      refine (hfirst.trans hsecond).trans (Step.reset ⟨?_, ?_⟩ ?_ ?_).leads
      · unfold InHeader at hready ⊢
        rwa [hsame.boxHeader, hsame.boxHeaderRequired, hheader, hrequired]
      · rw [hsame.currentBoxRemaining, hremaining, hend]
      · rw [hsame.currentBoxType, htype, hkind]
      · rw [hsame.pending, hpending]
  · cases h
    exact Leads.refl r

theorem leads_finishHeader {bytes : List UInt8} (hne : bytes ≠ [])
    (hfull : r.boxHeader.length + bytes.length = r.boxHeaderRequired)
    (h : ({ r with boxHeader := r.boxHeader ++ bytes } : Reader).finishHeader = .ok (r', b)) :
    r.Leads r' := by
  obtain ⟨r₁, hopen, hcase⟩ := finishHeader_cases h
  have hfirst : r.Leads r₁ := (Step.opened hne hfull hopen).leads
  rcases hcase with ⟨rfl, -⟩ | ⟨⟨kind, size, headerSize, hbegin⟩, hfinish⟩
  · exact hfirst
  · obtain ⟨hheader, hrequired⟩ := ready_beginBox hbegin
    refine hfirst.trans (leads_finishBox ?_ hfinish)
    unfold InHeader
    rw [hheader, hrequired]
    show ¬(r.boxHeader ++ bytes).length < r.boxHeaderRequired
    rw [List.length_append, hfull]
    exact lt_irrefl _

theorem leads_processUpTo {fuel : ℕ} {data rest : List UInt8}
    (h : processUpTo fuel r data = .ok (r', rest, b)) : r.Leads r' := by
  induction fuel generalizing r data with
  | zero =>
    cases h
    exact Leads.refl _
  | succ fuel ih =>
    unfold processUpTo at h
    split at h
    · cases h
      exact Leads.refl _
    next hdata =>
    have hpos : 0 < data.length := List.length_pos_iff.mpr hdata
    split at h
    · next hshort =>
      simp only at h
      have hne : data.take (min (r.boxHeaderRequired - r.boxHeader.length) data.length) ≠ [] := by
        rw [← List.length_pos_iff, List.length_take]
        omega
      split at h
      · next hmore =>
        cases h
        rw [List.length_append] at hmore
        exact (Step.header hne hmore).leads
      · next hfull =>
        obtain ⟨⟨r₁, completed⟩, hfinish, h⟩ := bind_eq_ok.mp h
        rw [List.length_append] at hfull
        have hlength : r.boxHeader.length +
            (data.take (min (r.boxHeaderRequired - r.boxHeader.length) data.length)).length =
              r.boxHeaderRequired := by
          rw [List.length_take] at hfull ⊢
          omega
        have hfirst := leads_finishHeader hne hlength hfinish
        cases completed with
        | true =>
          cases h
          exact hfirst
        | false => exact hfirst.trans (ih h)
    · next hlong =>
      simp only at h
      split at h
      · cases h
        exact Leads.refl _
      · next hbody =>
        obtain ⟨⟨r₁, completed⟩, hfinish, h⟩ := bind_eq_ok.mp h
        have hlength : (data.take (min data.length r.currentBoxRemaining)).length =
            min data.length r.currentBoxRemaining := by
          rw [List.length_take]
          omega
        have hne : data.take (min data.length r.currentBoxRemaining) ≠ [] := by
          rw [← List.length_pos_iff, hlength]
          omega
        have hwrite := Step.body hlong hne (hlength.trans_le (min_le_right _ _))
        rw [hlength] at hwrite
        have hkeep : ∀ data, (r.writeCurrentBoxData data).boxHeader = r.boxHeader ∧
            (r.writeCurrentBoxData data).boxHeaderRequired = r.boxHeaderRequired ∧
            (r.writeCurrentBoxData data).currentBoxRemaining = r.currentBoxRemaining := by
          intro data
          unfold writeCurrentBoxData
          split <;> exact ⟨rfl, rfl, rfl⟩
        obtain ⟨hheader, hrequired, hremaining⟩ := hkeep (data.take (min data.length r.currentBoxRemaining))
        rw [hremaining] at hfinish
        have hsecond := leads_finishBox (by
          show ¬(r.writeCurrentBoxData _).boxHeader.length < (r.writeCurrentBoxData _).boxHeaderRequired
          rwa [hheader, hrequired]) hfinish
        have hfirst := hwrite.leads.trans hsecond
        cases completed with
        | true =>
          cases h
          exact hfirst
        | false => exact hfirst.trans (ih h)

/-- A call that tries again what is left over is a run. -/
theorem leads_tryProcessDeferred (h : r.tryProcessDeferred = .ok (r', b)) : r.Leads r' := by
  unfold tryProcessDeferred at h
  obtain ⟨⟨r₁, built⟩, hbuild, h⟩ := bind_eq_ok.mp h
  have hfirst := leads_tryBuildSegment hbuild
  cases built with
  | true =>
    cases h
    exact hfirst
  | false =>
    simp only [Bool.false_eq_true, if_false] at h
    split at h
    · cases h
      exact hfirst
    · obtain ⟨⟨r₂, rest, completed⟩, hbytes, h⟩ := bind_eq_ok.mp h
      have hsecond : r.Leads r₂ := (hfirst.trans Step.defer.leads).trans (leads_processUpTo hbytes)
      cases completed with
      | true =>
        cases h
        exact hsecond.trans Step.defer.leads
      | false =>
        simp only [Bool.false_eq_true, if_false] at h
        obtain ⟨u, -, h⟩ := bind_eq_ok.mp h
        cases h
        exact hsecond

/-- A call that takes data in is a run. -/
theorem leads_push {data : List UInt8} (h : r.push data = .ok r') : r.Leads r' := by
  unfold push at h
  split at h
  · cases h
    exact Leads.refl r
  · obtain ⟨⟨r₁, completed⟩, hdeferred, h⟩ := bind_eq_ok.mp h
    have hfirst := leads_tryProcessDeferred hdeferred
    cases completed with
    | true =>
      cases h
      exact hfirst.trans Step.defer.leads
    | false =>
      simp only [Bool.false_eq_true, if_false] at h
      obtain ⟨⟨r₂, rest, completed⟩, hbytes, h⟩ := bind_eq_ok.mp h
      have hsecond := hfirst.trans (leads_processUpTo hbytes)
      cases completed with
      | true =>
        cases h
        exact hsecond.trans Step.defer.leads
      | false =>
        cases h
        exact hsecond

/-- The last segment of a stream is cut in a run. -/
theorem leads_remainder (h : r.tryBuildEndOfStreamRemainder = .ok (r', true)) : r.Leads r' := by
  obtain ⟨segment, hsegment⟩ := Option.ne_none_iff_exists'.mp (remainder_sameBox h).2
  exact (Step.remainder h hsegment).leads

end Rustorr.Mp4.Reader
