import Rustorr.Gst.Mp4.Segments

/-! The end of a stream: the last segment empties the queues, and what is left over is told
apart from a stream that was cut short. -/

namespace Rustorr.Mp4

open BigEndian Except

/-! ### The ends of samples -/

/-- When samples end, from a time on. -/
def endsFrom : ℕ → List Sample → List ℕ
  | _, [] => []
  | time, sample :: rest => (time + sample.duration.toNat) :: endsFrom (time + sample.duration.toNat) rest

def Fragment.samples (f : Fragment) : List Sample := f.runs.flatMap Run.samples

/-- When the samples of a fragment end. -/
def Fragment.sampleEnds (f : Fragment) : List ℕ := endsFrom f.decodeTime f.samples

/-- When a number of samples ends. -/
def timeAfter (time : ℕ) (samples : List Sample) : ℕ :=
  time + (samples.map fun s => s.duration.toNat).sum

theorem endsFrom_append (time : ℕ) (samples more : List Sample) :
    endsFrom time (samples ++ more) =
      endsFrom time samples ++ endsFrom (timeAfter time samples) more := by
  unfold timeAfter
  induction samples generalizing time with
  | nil => rfl
  | cons sample rest ih =>
    rw [List.cons_append, endsFrom, endsFrom, ih, List.cons_append, List.map_cons, List.sum_cons,
      Nat.add_assoc]

theorem length_endsFrom (time : ℕ) (samples : List Sample) :
    (endsFrom time samples).length = samples.length := by
  induction samples generalizing time with
  | nil => rfl
  | cons sample rest ih => rw [endsFrom, List.length_cons, List.length_cons, ih]

theorem length_sampleEnds (f : Fragment) : f.sampleEnds.length = f.sampleCount := by
  unfold Fragment.sampleEnds Fragment.samples Fragment.sampleCount
  rw [length_endsFrom, List.length_flatMap]

/-- Of times in order, the first that has been reached, or none has. -/
def FirstReached (reached : ℕ → Bool) (times : List ℕ) (count : ℕ) (found : Bool) : Prop :=
  (found = false ∧ count = times.length ∧ ∀ time ∈ times, reached time = false) ∨
    (found = true ∧ ∃ before time after, times = before ++ time :: after ∧
      count = before.length + 1 ∧ reached time = true ∧ ∀ time ∈ before, reached time = false)

variable {reached : ℕ → Bool} {found : Bool}

theorem FirstReached.append {times more : List ℕ} {n : ℕ}
    (hnone : ∀ time ∈ times, reached time = false) (h : FirstReached reached more n found) :
    FirstReached reached (times ++ more) (times.length + n) found := by
  rcases h with ⟨hfound, rfl, hmore⟩ | ⟨hfound, before, last, after, rfl, rfl, hlast, hbefore⟩
  · refine Or.inl ⟨hfound, by rw [List.length_append], fun time hmem => ?_⟩
    exact (List.mem_append.mp hmem).elim (hnone time) (hmore time)
  · refine Or.inr ⟨hfound, times ++ before, last, after, by rw [List.append_assoc], ?_, hlast,
      fun time hmem => ?_⟩
    · rw [List.length_append, Nat.add_assoc]
    · exact (List.mem_append.mp hmem).elim (hnone time) (hbefore time)

theorem FirstReached.before {times : List ℕ} {n : ℕ} (h : FirstReached reached times n true)
    (more : List ℕ) : FirstReached reached (times ++ more) n true := by
  rcases h with ⟨hfound, -⟩ | ⟨-, before, last, after, rfl, hn, hlast, hbefore⟩
  · cases hfound
  · exact Or.inr ⟨rfl, before, last, after ++ more, by rw [List.append_assoc, List.cons_append], hn,
      hlast, hbefore⟩

namespace Reader

variable {r r' : Reader} {reached : ℕ → Bool} {time time' count count' : ℕ} {found : Bool}

theorem scanSamples_ok {samples : List Sample}
    (h : scanSamples reached samples time count = .ok (time', count', found)) :
    ∃ n, count' = count + n ∧ FirstReached reached (endsFrom time samples) n found ∧
      (found = false → time' = timeAfter time samples) := by
  induction samples generalizing time count with
  | nil =>
    cases h
    exact ⟨0, rfl, Or.inl ⟨rfl, rfl, fun _ hmem => absurd hmem List.not_mem_nil⟩, fun _ => rfl⟩
  | cons sample rest ih =>
    unfold scanSamples at h
    obtain ⟨next, hnext, h⟩ := bind_eq_ok.mp h
    unfold add64 at hnext
    split at hnext
    · cases hnext
      split at h
      · next hreached =>
        cases h
        exact ⟨1, rfl, Or.inr ⟨rfl, [], _, _, rfl, rfl, hreached, fun _ hmem =>
          absurd hmem List.not_mem_nil⟩, fun hfound => nomatch hfound⟩
      · next hreached =>
        rw [Bool.not_eq_true] at hreached
        obtain ⟨n, rfl, hfirst, htime⟩ := ih h
        refine ⟨n + 1, by omega, ?_, fun hfound => ?_⟩
        · rcases hfirst with ⟨hfound, rfl, hnone⟩ | ⟨hfound, before, last, after, heq, rfl, hlast, hbefore⟩
          · exact Or.inl ⟨hfound, rfl, List.forall_mem_cons.mpr ⟨hreached, hnone⟩⟩
          · refine Or.inr ⟨hfound, _ :: before, last, after, ?_, rfl, hlast,
              List.forall_mem_cons.mpr ⟨hreached, hbefore⟩⟩
            rw [endsFrom, heq, List.cons_append]
        · rw [htime hfound]
          unfold timeAfter
          rw [List.map_cons, List.sum_cons, Nat.add_assoc]
    · cases hnext

theorem scanRuns_ok {runs : List Run}
    (h : scanRuns reached runs time count = .ok (time', count', found)) :
    ∃ n, count' = count + n ∧
      FirstReached reached (endsFrom time (runs.flatMap Run.samples)) n found ∧
      (found = false → time' = timeAfter time (runs.flatMap Run.samples)) := by
  induction runs generalizing time count with
  | nil =>
    cases h
    exact ⟨0, rfl, Or.inl ⟨rfl, rfl, fun _ hmem => absurd hmem List.not_mem_nil⟩, fun _ => rfl⟩
  | cons run rest ih =>
    unfold scanRuns at h
    obtain ⟨u, -, h⟩ := bind_eq_ok.mp h
    obtain ⟨⟨time₁, count₁, found₁⟩, hscan, h⟩ := bind_eq_ok.mp h
    obtain ⟨n, rfl, hfirst, htime⟩ := scanSamples_ok hscan
    rw [List.flatMap_cons, endsFrom_append]
    simp only at h
    split at h
    · next hfound =>
      cases h
      subst hfound
      refine ⟨n, rfl, hfirst.before _, fun hnone => ?_⟩
      cases hnone
    · next hfound =>
      rw [Bool.not_eq_true] at hfound
      subst hfound
      obtain ⟨n', rfl, hrest, hrestTime⟩ := ih h
      rw [htime rfl] at hrest hrestTime
      rcases hfirst with ⟨-, rfl, hnone⟩ | ⟨hfound, -⟩
      · refine ⟨_, by rw [Nat.add_assoc], hrest.append hnone, fun hnone => ?_⟩
        rw [hrestTime hnone]
        unfold timeAfter
        rw [List.map_append, List.sum_append, Nat.add_assoc]
      · cases hfound

/-- Of the ends of a fragment's samples, the first at or after the end of the video. -/
def reaches (r : Reader) (videoEnd : ℕ) (audioTimescale : UInt32) (time : ℕ) : Bool :=
  scaledGreaterOrEqual time r.videoTrack.timescale videoEnd audioTimescale

theorem findAudioSplitSampleCount_ok {fragment : Fragment} {videoEnd : ℕ}
    (h : r.findAudioSplitSampleCount fragment videoEnd = .ok (count, found)) :
    FirstReached (r.reaches videoEnd fragment.timescale) fragment.sampleEnds count found := by
  unfold findAudioSplitSampleCount at h
  obtain ⟨u, -, h⟩ := bind_eq_ok.mp h
  simp only at h
  obtain ⟨⟨time, count₁, found₁⟩, hscan, h⟩ := bind_eq_ok.mp h
  obtain ⟨n, hn, hfirst, -⟩ := scanRuns_ok hscan
  rw [Nat.zero_add] at hn
  subst hn
  simp only at h
  split at h
  · next hfound =>
    cases h
    subst hfound
    exact hfirst
  · next hfound =>
    rw [Bool.not_eq_true] at hfound
    obtain ⟨u, -, h⟩ := bind_eq_ok.mp h
    cases h
    subst hfound
    exact hfirst

theorem fragmentSampleCount_ok {fragment : Fragment} {total : ℕ}
    (h : fragmentSampleCount fragment = .ok total) : total = fragment.sampleEnds.length := by
  unfold fragmentSampleCount at h
  obtain ⟨u, -, h⟩ := bind_eq_ok.mp h
  obtain ⟨u, -, h⟩ := bind_eq_ok.mp h
  cases h
  rw [length_sampleEnds]
  rfl

/-- When the samples of a queue end. -/
def queueEnds (queue : List Fragment) : List ℕ := queue.flatMap Fragment.sampleEnds

theorem queueEnds_eq_nil {track : TrackIds} {queue : List Fragment} (hqueue : ∀ f ∈ queue, f.Of track) :
    queueEnds queue = [] ↔ queue = [] := by
  constructor
  · intro h
    by_contra hne
    obtain ⟨f, rest, rfl⟩ := List.exists_cons_of_ne_nil hne
    unfold queueEnds at h
    rw [List.flatMap_cons, List.append_eq_nil_iff] at h
    have hcount := (hqueue f List.mem_cons_self).sampleCount
    rw [← length_sampleEnds, h.1] at hcount
    exact absurd hcount (lt_irrefl 0)
  · rintro rfl
    rfl

/-- What is left after a selection: nothing just where the first sample that reaches the end of
the video is the last of all. -/
theorem selectAudioFrom_left {track : TrackIds} {videoEnd k : ℕ} {queue audio : List Fragment}
    (hqueue : ∀ f ∈ queue, f.Of track) (h : r.selectAudioFrom videoEnd queue = .ok (audio, k)) :
    (k = 0 ∧ audio = queue ∧
      ∀ time ∈ queueEnds queue, r.reaches videoEnd track.timescale time = false) ∨
    (k ≠ 0 ∧ ∃ before time after, queueEnds queue = before ++ time :: after ∧
      r.reaches videoEnd track.timescale time = true ∧
      (∀ time ∈ before, r.reaches videoEnd track.timescale time = false) ∧
      (audio.drop k = [] ↔ after = [])) := by
  induction queue generalizing audio k with
  | nil =>
    unfold selectAudioFrom at h
    cases h
    exact Or.inl ⟨rfl, rfl, fun _ hmem => absurd hmem List.not_mem_nil⟩
  | cons fragment rest ih =>
    have htimescale := (hqueue fragment List.mem_cons_self).timescale
    have hrestOf : ∀ f ∈ rest, f.Of track := fun f hf => hqueue f (List.mem_cons_of_mem _ hf)
    rcases selectAudioFrom_cases h with
      ⟨split, rest', k', hfind, hrest, rfl, rfl⟩ | ⟨split, total, hfind, htotal, hsplit, -, rfl, hcase⟩
    · have hfirst := findAudioSplitSampleCount_ok hfind
      rw [htimescale] at hfirst
      rcases hfirst with ⟨-, -, hnone⟩ | ⟨hfound, -⟩
      · rcases ih hrestOf hrest with ⟨rfl, rfl, hall⟩ | ⟨hk, before, time, after, heq, htime, hbefore, hleft⟩
        · refine Or.inl ⟨rfl, rfl, fun time hmem => ?_⟩
          exact (List.mem_append.mp hmem).elim (hnone time) (hall time)
        · rw [if_neg hk]
          refine Or.inr ⟨Nat.succ_ne_zero k', fragment.sampleEnds ++ before, time, after, ?_, htime,
            fun t hmem => ?_, hleft⟩
          · show fragment.sampleEnds ++ queueEnds rest = _
            rw [heq, List.append_assoc]
          · exact (List.mem_append.mp hmem).elim (hnone t) (hbefore t)
      · cases hfound
    · have hfirst := findAudioSplitSampleCount_ok hfind
      rw [htimescale] at hfirst
      rcases hfirst with ⟨hfound, -⟩ | ⟨-, before, time, after, heq, hcount, htime, hbefore⟩
      · cases hfound
      · have hends : queueEnds (fragment :: rest) = before ++ time :: (after ++ queueEnds rest) := by
          show fragment.sampleEnds ++ queueEnds rest = _
          rw [heq, List.append_assoc, List.cons_append]
        have hlength := fragmentSampleCount_ok htotal
        rw [heq, List.length_append, List.length_cons] at hlength
        refine Or.inr ⟨one_ne_zero, before, time, after ++ queueEnds rest, hends, htime, hbefore, ?_⟩
        rw [List.append_eq_nil_iff, queueEnds_eq_nil hrestOf]
        rcases hcase with ⟨hall, rfl⟩ | ⟨left, right, hlt, -, rfl⟩
        · have hafter : after = [] := List.length_eq_zero_iff.mp (by omega)
          rw [List.drop_succ_cons, List.drop_zero]
          exact ⟨fun hrest => ⟨hafter, hrest⟩, fun hboth => hboth.2⟩
        · have hafter : after ≠ [] := by
            rintro rfl
            rw [List.length_nil] at hlength
            omega
          rw [List.drop_succ_cons, List.drop_zero]
          exact ⟨fun hnil => absurd hnil (List.cons_ne_nil right rest), fun hboth => absurd hboth.1 hafter⟩

/-! ### The payload of what is queued -/

/-- The payload of all that is queued is there. -/
structure Stored (r : Reader) : Prop where
  video : ∀ f ∈ r.video, f.payloadStart + f.payloadLen ≤ r.sourcePayload.length
  audio : ∀ f ∈ r.audio, f.payloadStart + f.payloadLen ≤ r.sourcePayload.length
  current : r.currentPayloadStart ≤ r.sourcePayload.length

theorem Blank.stored (h : r.Blank) : r.Stored := by
  refine ⟨?_, ?_, ?_⟩
  · rw [h.video]
    exact fun f hf => absurd hf List.not_mem_nil
  · rw [h.audio]
    exact fun f hf => absurd hf List.not_mem_nil
  · rw [h.currentPayloadStart]
    exact Nat.zero_le _

theorem Stored.selectAudioCount {videoEnd k : ℕ} (h : r.Stored)
    (hselect : r.selectAudioCount videoEnd = .ok (r', k)) : r'.Stored := by
  obtain ⟨audio, haudio, rfl⟩ := selectAudioCount_cases hselect
  refine ⟨h.video, forall_of_selectAudioFrom (fun hfits hparts => ?_) haudio h.audio, h.current⟩
  obtain ⟨hleft, hright⟩ := hparts.payloadStart
  have hlen := hparts.payloadLen
  exact ⟨by omega, by omega⟩

theorem fits_rebase {start size : ℕ} {queue : List Fragment}
    (hqueue : ∀ f ∈ queue, f.payloadStart + f.payloadLen ≤ size)
    (hstart : ∀ f ∈ queue, 0 < f.payloadLen → start ≤ f.payloadStart) (hlen : ∀ f ∈ queue, 0 < f.payloadLen) :
    ∀ f ∈ queue.map (rebase start), f.payloadStart + f.payloadLen ≤ size - start := by
  intro f hf
  obtain ⟨f₀, hf₀, rfl⟩ := List.mem_map.mp hf
  have hfits := hqueue f₀ hf₀
  have hpos := hlen f₀ hf₀
  have hle := hstart f₀ hf₀ hpos
  unfold rebase
  rw [if_pos hpos]
  show f₀.payloadStart - start + f₀.payloadLen ≤ size - start
  omega

theorem Stored.buildSegment {videoCount audioCount : ℕ} {allow : Bool} (h : r.Stored)
    (hqueued : r.Queued) (hbuild : r.buildSegment videoCount audioCount allow = .ok r') :
    r'.Stored := by
  obtain ⟨segment, -, -, -, -, rfl⟩ := buildSegment_cases hbuild
  obtain ⟨start, sourcePayload, currentPayloadStart, hreclaim, hcase⟩ :=
    reclaimPayloads_cases (r.cutOff videoCount audioCount segment).resetPrefix
  have hvideo : ∀ f ∈ r.video.drop videoCount, 0 < f.payloadLen := fun f hf =>
    (hqueued.video f (List.mem_of_mem_drop hf)).payloadLen
  have haudio : ∀ f ∈ r.audio.drop audioCount, 0 < f.payloadLen := fun f hf =>
    (hqueued.audio f (List.mem_of_mem_drop hf)).payloadLen
  rw [hreclaim]
  rcases hcase with ⟨rfl, rfl, hstart⟩ | ⟨rfl, rfl, hempty⟩
  · have hdrop : (r.sourcePayload.drop start).length = r.sourcePayload.length - start :=
      List.length_drop
    refine ⟨?_, ?_, ?_⟩
    · show ∀ f ∈ (r.video.drop videoCount).map (rebase start),
        f.payloadStart + f.payloadLen ≤ (r.sourcePayload.drop start).length
      rw [hdrop]
      exact fits_rebase (fun f hf => h.video f (List.mem_of_mem_drop hf))
        (fun f hf => hstart f (List.mem_append_left _ hf)) hvideo
    · show ∀ f ∈ (r.audio.drop audioCount).map (rebase start),
        f.payloadStart + f.payloadLen ≤ (r.sourcePayload.drop start).length
      rw [hdrop]
      exact fits_rebase (fun f hf => h.audio f (List.mem_of_mem_drop hf))
        (fun f hf => hstart f (List.mem_append_right _ hf)) haudio
    · show r.currentPayloadStart - start ≤ (r.sourcePayload.drop start).length
      rw [hdrop]
      exact Nat.sub_le_sub_right h.current start
  · have hnone : ∀ {queue : List Fragment}, (∀ f ∈ queue, 0 < f.payloadLen) →
        (∀ f ∈ queue, f.payloadLen = 0) → queue.map (rebase start) = [] := by
      intro queue hpos hzero
      cases queue with
      | nil => rfl
      | cons f rest =>
        have hlt := hpos f List.mem_cons_self
        rw [hzero f List.mem_cons_self] at hlt
        exact absurd hlt (lt_irrefl 0)
    refine ⟨?_, ?_, le_rfl⟩
    · show ∀ f ∈ (r.video.drop videoCount).map (rebase start), _
      rw [hnone hvideo fun f hf => hempty f (List.mem_append_left _ hf)]
      exact fun f hf => absurd hf List.not_mem_nil
    · show ∀ f ∈ (r.audio.drop audioCount).map (rebase start), _
      rw [hnone haudio fun f hf => hempty f (List.mem_append_right _ hf)]
      exact fun f hf => absurd hf List.not_mem_nil

theorem Stored.tryBuildSegment {b : Bool} (h : r.Stored) (hqueued : r.Queued)
    (hbuild : r.tryBuildSegment = .ok (r', b)) : r'.Stored := by
  rcases tryBuildSegment_cases hbuild with
    ⟨-, rfl, -⟩ | ⟨k, -, -, ⟨-, hbuild, -⟩ | ⟨r₁, a, -, hselect, ⟨-, rfl, -⟩ | ⟨-, hbuild, -⟩⟩⟩
  · exact h
  · exact h.buildSegment hqueued hbuild
  · exact h.selectAudioCount hselect
  · exact (h.selectAudioCount hselect).buildSegment (hqueued.selectAudioCount hselect) hbuild

theorem Stored.remainder (h : r.Stored) (hqueued : r.Queued)
    (hbuild : r.tryBuildEndOfStreamRemainder = .ok (r', true)) : r'.Stored := by
  obtain ⟨r₁, r₂, a, -, hselect, hlast, rfl⟩ := remainder_cases hbuild
  have h₂ : r₂.Stored := by
    rcases hselect with ⟨-, -, selected, hselect, -⟩ | ⟨-, rfl, -⟩
    · exact (h.selectAudioCount hselect).buildSegment (hqueued.selectAudioCount hselect) hlast
    · exact h.buildSegment hqueued hlast
  split
  · exact ⟨h₂.video, fun f hf => absurd hf List.not_mem_nil, h₂.current⟩
  · exact h₂

theorem Stored.begins (h : r.Stored) (hbegins : r.begins r') : r'.Stored := by
  rcases hbegins with ⟨-, -, rfl⟩ | ⟨-, -, _, rfl⟩ | ⟨-, -, _, _, _, _, _, -, rfl⟩
  · exact ⟨h.video, h.audio, h.current⟩
  · exact ⟨h.video, h.audio, le_rfl⟩
  · exact ⟨h.video, h.audio, h.current⟩

theorem Stored.beginBox {size headerSize : ℕ} (h : r.Stored)
    (hbegin : r.beginBox size headerSize = .ok r') : r'.Stored := by
  obtain ⟨-, ⟨-, -, -, rfl⟩ | ⟨-, video, audio, newInit, hbegins⟩ | ⟨-, hbegins⟩⟩ :=
    beginBox_cases hbegin
  · exact ⟨h.video, h.audio, h.current⟩
  · refine Stored.begins ?_ hbegins
    exact ⟨h.video, h.audio, h.current⟩
  · refine Stored.begins ?_ hbegins
    exact ⟨h.video, h.audio, h.current⟩

theorem fits_resolveQueue {queue queue' : List Fragment} {current : Fragment} {hint : Option UInt32}
    {size : ℕ} (h : resolveQueue queue current = .ok (queue', hint))
    (hqueue : ∀ f ∈ queue, f.payloadStart + f.payloadLen ≤ size) :
    ∀ f ∈ queue', f.payloadStart + f.payloadLen ≤ size := by
  rcases resolveQueue_cases h with ⟨rfl, -⟩ | ⟨before, previous, settled, duration, rfl, -, hresolve, rfl⟩
  · exact hqueue
  · obtain ⟨-, -, ⟨runs, d, rfl⟩, -⟩ := resolveInferredDuration_ok hresolve
    refine forall_mem_concat (fun f hf => hqueue f (List.mem_append_left _ hf)) ?_
    exact hqueue previous (List.mem_append_right _ (List.mem_singleton_self _))

theorem Stored.step {told : List Event} (hstep : Step r told r') (hqueued : r.Queued)
    (h : r.Stored) : r'.Stored := by
  cases hstep with
  | header => exact ⟨h.video, h.audio, h.current⟩
  | opened hne hfull hopen =>
    rcases openBox_cases hopen with ⟨-, kind, rfl⟩ | ⟨kind, size, headerSize, hbegin⟩
    · exact ⟨h.video, h.audio, h.current⟩
    · refine Stored.beginBox ?_ hbegin
      exact ⟨h.video, h.audio, h.current⟩
  | @body data =>
    unfold writeCurrentBoxData
    split
    · exact ⟨h.video, h.audio, h.current⟩
    · exact ⟨h.video, h.audio, h.current⟩
    · have hgrow : r.sourcePayload.length ≤ (r.sourcePayload ++ data).length := by
        rw [List.length_append]
        exact Nat.le_add_right _ _
      exact ⟨fun f hf => (h.video f hf).trans hgrow, fun f hf => (h.audio f hf).trans hgrow,
        h.current.trans hgrow⟩
    · exact ⟨h.video, h.audio, h.current⟩
    · exact ⟨h.video, h.audio, h.current⟩
    · exact ⟨h.video, h.audio, h.current⟩
  | closed hend hmoof hmdat hclose =>
    obtain ⟨_, _, _, _, _, rfl⟩ := hclose
    exact ⟨h.video, h.audio, h.current⟩
  | moof hend hkind hparse hmoof =>
    obtain ⟨fragment, video, audio, vd, vt, ad, t, -, hresolve, rfl⟩ := completeMoof_cases hmoof
    rcases hresolve with ⟨-, rfl, hint, hvideo⟩ | ⟨-, -, rfl, hint, haudio⟩ | ⟨-, -, rfl, rfl⟩
    · exact ⟨fits_resolveQueue hvideo h.video, h.audio, h.current⟩
    · exact ⟨h.video, fits_resolveQueue haudio h.audio, h.current⟩
    · exact ⟨h.video, h.audio, h.current⟩
  | mdat hend hkind hmdat =>
    obtain ⟨pending, fragment, -, hattach, hcase⟩ := completeMdat_cases hmdat
    obtain ⟨-, -, -, runs, rfl⟩ := attachPayload_ok hattach
    have hcurrent := h.current
    have hfits : r.currentPayloadStart + (r.sourcePayload.length - r.currentPayloadStart) ≤
        r.sourcePayload.length := by omega
    rcases hcase with ⟨-, rfl⟩ | ⟨-, -, rfl⟩
    · exact ⟨forall_mem_concat h.video hfits, h.audio, Nat.zero_le _⟩
    · exact ⟨h.video, forall_mem_concat h.audio hfits, Nat.zero_le _⟩
  | reset => exact ⟨h.video, h.audio, h.current⟩
  | build hbuild hnew => exact h.tryBuildSegment hqueued hbuild
  | remainder hbuild hnew => exact h.remainder hqueued hbuild
  | defer => exact ⟨h.video, h.audio, h.current⟩
  | taken => exact ⟨h.video, h.audio, h.current⟩
  | targeted htarget =>
    unfold setTargetSegment at htarget
    split at htarget
    · cases htarget
      exact h
    · obtain ⟨u, -, htarget⟩ := bind_eq_ok.mp htarget
      cases htarget
      exact ⟨h.video, h.audio, h.current⟩
  | moved => exact ⟨h.video, h.audio, h.current⟩

theorem Reachable.stored (h : r.Reachable) : r.Stored := by
  obtain ⟨r₀, hblank, log, hrun⟩ := h
  have hall := hrun.keeps (P := fun r => (r.Framed ∧ r.Queued) ∧ r.Stored)
    (fun _ _ _ hstep h => ⟨⟨h.1.1.step hstep, h.1.2.step hstep h.1.1⟩, h.2.step hstep h.1.2⟩)
    ⟨⟨hblank.framed, hblank.queued⟩, hblank.stored⟩
  exact hall.2

/-! ### What is left over -/

theorem deferred_finishBox {b : Bool} (h : r.finishBox = .ok (r', b)) : r'.deferred = r.deferred := by
  unfold finishBox at h
  split at h
  · obtain ⟨⟨r₁, completed⟩, hcomplete, hreset⟩ := bind_eq_ok.mp h
    cases hreset
    show r₁.deferred = r.deferred
    rcases completeBox_cases hcomplete with ⟨-, -, -, hclose⟩ | ⟨-, -, hmoof⟩ | ⟨-, r₂, hmdat, hbuild⟩
    · obtain ⟨_, _, _, _, _, rfl⟩ := hclose
      rfl
    · obtain ⟨_, _, _, _, _, _, _, -, -, rfl⟩ := completeMoof_cases hmoof
      rfl
    · have h₂ : r₂.deferred = r.deferred := by
        obtain ⟨_, _, -, -, ⟨-, rfl⟩ | ⟨-, -, rfl⟩⟩ := completeMdat_cases hmdat <;> rfl
      cases b with
      | false => rw [tryBuildSegment_false hbuild, h₂]
      | true => rw [(tryBuildSegment_sameBox hbuild).1.deferred, h₂]
  · cases h
    rfl

theorem deferred_beginBox {size headerSize : ℕ} (h : r.beginBox size headerSize = .ok r') :
    r'.deferred = r.deferred := by
  have hbegins : ∀ {r₀ : Reader}, r₀.begins r' → r'.deferred = r₀.deferred := by
    intro r₀ hbegins
    rcases hbegins with ⟨-, -, rfl⟩ | ⟨-, -, _, rfl⟩ | ⟨-, -, _, _, _, _, _, -, rfl⟩ <;> rfl
  obtain ⟨-, ⟨-, -, -, rfl⟩ | ⟨-, _, _, _, hcase⟩ | ⟨-, hcase⟩⟩ := beginBox_cases h
  · rfl
  · have hsame := hbegins hcase
    exact hsame
  · have hsame := hbegins hcase
    exact hsame

theorem deferred_finishHeader {b : Bool} (h : r.finishHeader = .ok (r', b)) :
    r'.deferred = r.deferred := by
  obtain ⟨r₁, hopen, hcase⟩ := finishHeader_cases h
  have hfirst : r₁.deferred = r.deferred := by
    rcases openBox_cases hopen with ⟨-, kind, rfl⟩ | ⟨kind, size, headerSize, hbegin⟩
    · rfl
    · have hsame := deferred_beginBox hbegin
      exact hsame
  rcases hcase with ⟨rfl, -⟩ | ⟨-, hfinish⟩
  · exact hfirst
  · rw [deferred_finishBox hfinish, hfirst]

theorem deferred_processUpTo {fuel : ℕ} {data rest : List UInt8} {b : Bool}
    (h : processUpTo fuel r data = .ok (r', rest, b)) : r'.deferred = r.deferred := by
  induction fuel generalizing r data with
  | zero =>
    cases h
    rfl
  | succ fuel ih =>
    unfold processUpTo at h
    split at h
    · cases h
      rfl
    split at h
    · simp only at h
      split at h
      · cases h
        rfl
      · obtain ⟨⟨r₁, completed⟩, hfinish, h⟩ := bind_eq_ok.mp h
        have hfirst : r₁.deferred = r.deferred := by
          have hsame := deferred_finishHeader hfinish
          exact hsame
        cases completed with
        | true =>
          cases h
          exact hfirst
        | false => exact (ih h).trans hfirst
    · simp only at h
      split at h
      · cases h
        rfl
      · obtain ⟨⟨r₁, completed⟩, hfinish, h⟩ := bind_eq_ok.mp h
        have hwrite : ∀ data, (r.writeCurrentBoxData data).deferred = r.deferred := by
          intro data
          unfold writeCurrentBoxData
          split <;> rfl
        have hfirst : r₁.deferred = r.deferred :=
          (deferred_finishBox hfinish).trans (hwrite _)
        cases completed with
        | true =>
          cases h
          exact hfirst
        | false => exact (ih h).trans hfirst

/-- Where nothing more completes, all that was put off has been read. -/
theorem deferred_tryProcessDeferred (h : r.tryProcessDeferred = .ok (r', false)) :
    r'.deferred = [] := by
  unfold tryProcessDeferred at h
  obtain ⟨⟨r₁, built⟩, hbuild, h⟩ := bind_eq_ok.mp h
  cases built with
  | true => cases h
  | false =>
    simp only [Bool.false_eq_true, if_false] at h
    split at h
    · next hnone =>
      cases h
      exact hnone
    · obtain ⟨⟨r₂, rest, completed⟩, hbytes, h⟩ := bind_eq_ok.mp h
      cases completed with
      | true => cases h
      | false =>
        simp only [Bool.false_eq_true, if_false] at h
        obtain ⟨u, -, h⟩ := bind_eq_ok.mp h
        cases h
        have hsame := deferred_processUpTo hbytes
        exact hsame

theorem reclaimPayloads_of_empty (hvideo : r.video = []) (haudio : r.audio = []) :
    r.reclaimPayloads.sourcePayload = [] := by
  unfold reclaimPayloads
  split
  · assumption
  · simp only [hvideo, haudio, List.append_nil, List.filter_nil, List.map_nil, List.min?_nil]

/-- All payload is given back just where nothing stays queued. -/
theorem sourcePayload_buildSegment {videoCount audioCount : ℕ} {allow : Bool} (h : r.Stored)
    (hqueued : r.Queued) (hvideo : r.video.drop videoCount = [])
    (hbuild : r.buildSegment videoCount audioCount allow = .ok r') :
    r'.sourcePayload = [] ↔ r.audio.drop audioCount = [] := by
  obtain ⟨segment, -, -, -, -, rfl⟩ := buildSegment_cases hbuild
  constructor
  · intro hempty
    by_contra hne
    obtain ⟨f, rest, haudio⟩ := List.exists_cons_of_ne_nil hne
    have hmem : f ∈ r.audio.drop audioCount := by
      rw [haudio]
      exact List.mem_cons_self
    have hfits := h.audio f (List.mem_of_mem_drop hmem)
    have hpos := (hqueued.audio f (List.mem_of_mem_drop hmem)).payloadLen
    obtain ⟨start, sourcePayload, currentPayloadStart, hreclaim, hcase⟩ :=
      reclaimPayloads_cases (r.cutOff videoCount audioCount segment).resetPrefix
    rw [hreclaim] at hempty
    rcases hcase with ⟨rfl, -, hstart⟩ | ⟨-, -, hzero⟩
    · have hle : start ≤ f.payloadStart := hstart f (List.mem_append_right _ hmem) hpos
      have hlen : r.sourcePayload.length ≤ start := List.drop_eq_nil_iff.mp hempty
      omega
    · have hlen : f.payloadLen = 0 := hzero f (List.mem_append_right _ hmem)
      omega
  · intro haudio
    refine reclaimPayloads_of_empty ?_ ?_
    · exact hvideo
    · exact haudio

/-- The audio goes on after the end of the video: a sample but the last of all ends when the
video has. -/
def TrailsVideo (r : Reader) : Prop :=
  ∃ last ∈ r.video.getLast?, ∃ time ∈ (queueEnds r.audio).dropLast,
    last.endTime * r.audioTrack.timescale.toNat ≤ time * r.videoTrack.timescale.toNat

theorem sourcePayload_remainder (h : r.Stored) (hqueued : r.Queued)
    (hlast : r.tryBuildEndOfStreamRemainder = .ok (r', true)) :
    r'.video = [] ∧ r'.audio = [] ∧ (r'.sourcePayload = [] ↔ ¬r.TrailsVideo) := by
  obtain ⟨r₁, r₂, a, -, hselect, hbuild, rfl⟩ := remainder_cases hlast
  have hqueues : r₂.video = [] ∧ (r₂.audio = [] ↔ r₁.audio.drop a = []) := by
    obtain ⟨segment, -, -, -, -, rfl⟩ := buildSegment_cases hbuild
    obtain ⟨start, sourcePayload, currentPayloadStart, hreclaim, -⟩ :=
      reclaimPayloads_cases (r₁.cutOff r₁.video.length a segment).resetPrefix
    rw [hreclaim]
    refine ⟨?_, ?_⟩
    · show (r₁.video.drop r₁.video.length).map (rebase start) = []
      rw [List.drop_length, List.map_nil]
    · show (r₁.audio.drop a).map (rebase start) = [] ↔ _
      exact List.map_eq_nil_iff
  have hpayload : ∀ {r₂' : Reader}, r₂'.sourcePayload = r₂.sourcePayload →
      (r₁.audio.drop a = [] ↔ ¬r.TrailsVideo) → r₁.Stored → r₁.Queued →
      (r₂'.sourcePayload = [] ↔ ¬r.TrailsVideo) := by
    intro r₂' heq hiff hstored₁ hqueued₁
    rw [heq, sourcePayload_buildSegment hstored₁ hqueued₁ List.drop_length hbuild, hiff]
  rcases hselect with ⟨hvideo, haudio, selected, hselect, ha⟩ | ⟨hnone, rfl, ha⟩
  · obtain ⟨last, hlastVideo⟩ : ∃ last, r.video.getLast? = some last :=
      ⟨_, List.getLast?_eq_some_getLast hvideo⟩
    have hleft : r₁.audio.drop a = [] ↔ ¬r.TrailsVideo := by
      obtain ⟨audio, hfrom, rfl⟩ := selectAudioCount_cases hselect
      rw [hlastVideo, Option.map_some, Option.getD_some] at hfrom
      have htrails : r.TrailsVideo ↔ ∃ time ∈ (queueEnds r.audio).dropLast,
          r.reaches last.endTime r.audioTrack.timescale time = true := by
        unfold TrailsVideo reaches scaledGreaterOrEqual
        rw [hlastVideo]
        simp
      rw [htrails]
      rcases selectAudioFrom_left hqueued.audio hfrom with
        ⟨rfl, rfl, hall⟩ | ⟨hk, before, time, after, heq, htime, hbefore, hleft⟩
      · rw [ha, if_neg (lt_irrefl 0), List.drop_length]
        refine iff_of_true rfl ?_
        rintro ⟨time, hmem, htime⟩
        rw [hall time (List.dropLast_subset _ hmem)] at htime
        cases htime
      · rw [ha, if_pos (Nat.pos_of_ne_zero hk), hleft, heq]
        constructor
        · rintro rfl ⟨time', hmem, htime'⟩
          rw [List.dropLast_concat] at hmem
          rw [hbefore time' hmem] at htime'
          cases htime'
        · intro hnot
          by_contra hafter
          refine hnot ⟨time, ?_, htime⟩
          rw [List.dropLast_append_of_ne_nil (List.cons_ne_nil time after)]
          rw [List.dropLast_cons_of_ne_nil hafter]
          exact List.mem_append_right _ List.mem_cons_self
    have hstored₁ := h.selectAudioCount hselect
    have hqueued₁ := hqueued.selectAudioCount hselect
    split
    · exact ⟨hqueues.1, rfl, hpayload rfl hleft hstored₁ hqueued₁⟩
    · next hcond =>
      refine ⟨hqueues.1, ?_, hpayload rfl hleft hstored₁ hqueued₁⟩
      by_contra hne
      exact hcond ⟨hvideo, hqueues.1, hne⟩
  · have htaken : r₁.audio.drop a = [] := by rw [ha, List.drop_length]
    have hnot : ¬r₁.TrailsVideo := by
      rintro ⟨last, hlastVideo, time, hmem, -⟩
      rcases hnone with hnone | hnone
      · rw [hnone] at hlastVideo
        cases hlastVideo
      · rw [hnone] at hmem
        exact absurd hmem List.not_mem_nil
    have hempty := hqueues.2.mpr htaken
    rw [if_neg fun hcond => hcond.2.2 hempty]
    exact ⟨hqueues.1, hempty, hpayload rfl (iff_of_true htaken hnot) h hqueued⟩

/-- After the last segment of a stream that ends between boxes the queues are empty, and nothing
is reported as cut short, just where no audio lies after the end of the video. -/
theorem end_of_stream_clean_iff {r₁ r₂ : Reader} (hreach : r.Reachable)
    (hdeferred : r.tryProcessDeferred = .ok (r₁, false)) (hboundary : r₁.boxHeader = [])
    (hpending : r₁.pending = none) (hlast : r₁.tryBuildEndOfStreamRemainder = .ok (r₂, true)) :
    r₂.video = [] ∧ r₂.audio = [] ∧ (r₂.endOfStreamError = none ↔ ¬r₁.TrailsVideo) := by
  have hreach₁ := hreach.leads (leads_tryProcessDeferred hdeferred)
  have hframed := hreach₁.framed
  obtain ⟨hvideo, haudio, hpayload⟩ := sourcePayload_remainder hreach₁.stored hreach₁.queued hlast
  refine ⟨hvideo, haudio, ?_⟩
  have hsame := (remainder_sameBox hlast).1
  have hin : r₁.InHeader := by
    unfold InHeader
    rw [hboundary]
    exact hframed.required
  obtain ⟨htarget, hremaining⟩ := hframed.header hin
  have hmoof : r₁.sourceMoof = [] := by
    by_contra hne
    rcases hframed.source hne with hsome | heq
    · exact hsome hpending
    · rw [htarget] at heq
      cases heq
  rw [← hpayload]
  unfold endOfStreamError
  simp only [hsame.boxHeader, hboundary, hsame.currentBoxRemaining, hremaining, hsame.pending,
    hpending, hsame.sourceMoof, hmoof, hsame.deferred, deferred_tryProcessDeferred hdeferred,
    ne_eq, not_true_eq_false, if_false]
  constructor
  · intro h
    by_contra hne
    rw [if_pos hne] at h
    cases h
  · intro h
    rw [if_neg (not_not.mpr h)]

/-- A stream of a video and an audio track, at a timescale of 1000 both. -/
def bothInit : List UInt8 :=
  boxOf Kind.moov (trakOf 1 1000 handlerVideo ++ trakOf 2 1000 handlerAudio ++
    boxOf Kind.mvex (trexOf 1 ++ trexOf 2))

/-- One second of video, and one of audio. -/
def evenStream : List UInt8 := bothInit ++ mediaOf 1 0 [second] [7] ++ mediaOf 2 0 [second] [8]

theorem end_of_stream_clean_iff_even :
    ∃ r r₁ r₂ : Reader, (new (.finite 1) 0 false).push evenStream = .ok r ∧
      r.tryProcessDeferred = .ok (r₁, false) ∧ r₁.tryBuildEndOfStreamRemainder = .ok (r₂, true) ∧
      r₂.video = [] ∧ r₂.audio = [] ∧ (r₂.endOfStreamError = none ↔ ¬r₁.TrailsVideo) := by
  have hrun : ((new (.finite 1) 0 false).push evenStream >>= fun r =>
      r.tryProcessDeferred >>= fun next => next.1.tryBuildEndOfStreamRemainder >>= fun last =>
        .ok (next.2, last.2, next.1.boxHeader, next.1.pending)) =
        (.ok (false, true, [], none) : Except ReaderError (Bool × Bool × List UInt8 × Option Fragment)) := by
    decide +kernel
  obtain ⟨r, hpush, hrun⟩ := bind_eq_ok.mp hrun
  obtain ⟨⟨r₁, more⟩, hdeferred, hrun⟩ := bind_eq_ok.mp hrun
  obtain ⟨⟨r₂, built⟩, hlast, hrun⟩ := bind_eq_ok.mp hrun
  simp only [Except.ok.injEq, Prod.mk.injEq] at hrun
  obtain ⟨rfl, rfl, hboundary, hpending⟩ := hrun
  have hreach : r.Reachable := ⟨_, blank_new _ _ _, leads_push hpush⟩
  exact ⟨r, r₁, r₂, hpush, hdeferred, hlast,
    end_of_stream_clean_iff hreach hdeferred hboundary hpending hlast⟩

/-- One second of video, and two of audio. -/
def trailingStream : List UInt8 :=
  bothInit ++ mediaOf 1 0 [second] [7] ++ mediaOf 2 0 [second, second] [8, 9]

/-- The bytes of audio that is let go are reported as a stream cut short. -/
theorem trailing_audio_reported_truncated :
    (do
      let r ← (new (.finite 1) 0 false).push trailingStream
      let (r₁, more) ← r.tryProcessDeferred
      let (r₂, built) ← r₁.tryBuildEndOfStreamRemainder
      .ok (more, built, r₁.boxHeader, r₁.pending, r₂.endOfStreamError)) =
    (.ok (false, true, [], none, some (.truncatedMp4Fragment "1 uncommitted mdat payload bytes")) :
      Except ReaderError (Bool × Bool × List UInt8 × Option Fragment × Option ReaderError)) := by
  decide +kernel

end Reader

end Rustorr.Mp4
