import Mathlib.Tactic.Ring
import Rustorr.Gst.Mp4.Queues

/-! Where the regular segments end: each runs up to the first sync sample that comes once
the target is reached, however the rest of the stream arrives. -/

namespace Rustorr.Mp4

open BigEndian Except

/-! ### The place of a cut -/

/-- A segment may end before fragment `k`: what comes before it, after `duration` units,
is long enough, and it starts with a sync sample. Durations add up in 64 bits. -/
def IsCut (duration : ℕ) (video : List Fragment) (target k : ℕ) : Prop :=
  0 < k ∧ target ≤ (duration + ((video.take k).map Fragment.duration).sum) % 2 ^ 64 ∧
    (video[k]?).any Fragment.startsWithSync = true

/-- The first place where a segment may end; zero where there is none. -/
def FirstCut (video : List Fragment) (target k : ℕ) : Prop :=
  (k = 0 ∧ ∀ j, ¬IsCut 0 video target j) ∨
    (IsCut 0 video target k ∧ ∀ j < k, ¬IsCut 0 video target j)

variable {video video' : List Fragment} {target duration k : ℕ}

theorem IsCut.lt_length (h : IsCut duration video target k) : k < video.length := by
  by_contra hge
  have hsync := h.2.2
  rw [List.getElem?_eq_none (not_lt.mp hge)] at hsync
  cases hsync

theorem isCut_one {current next : Fragment} {rest : List Fragment} :
    IsCut duration (current :: next :: rest) target 1 ↔
      target ≤ (duration + current.duration) % 2 ^ 64 ∧ next.startsWithSync = true := by
  unfold IsCut
  simp

theorem isCut_succ {current next : Fragment} {rest : List Fragment} (hk : 0 < k) :
    IsCut duration (current :: next :: rest) target (k + 1) ↔
      IsCut ((duration + current.duration) % 2 ^ 64) (next :: rest) target k := by
  unfold IsCut
  rw [List.take_succ_cons, List.map_cons, List.sum_cons, List.getElem?_cons_succ, Nat.mod_add_mod,
    Nat.add_assoc]
  exact ⟨fun h => ⟨hk, h.2⟩, fun h => ⟨Nat.succ_pos k, h.2⟩⟩

theorem not_isCut_of_short (hlength : video.length ≤ 1) : ¬IsCut duration video target k := by
  intro h
  have hlt := h.lt_length
  have hpos := h.1
  omega

/-- The walk over the video stops at the first cut. -/
theorem selectFrom_least (target : ℕ) (video : List Fragment) (index duration : ℕ) :
    (Reader.selectFrom target false video index duration 0 = 0 ∧ ∀ j, ¬IsCut duration video target j) ∨
      ∃ k, Reader.selectFrom target false video index duration 0 = index + k ∧
        IsCut duration video target k ∧ ∀ j < k, ¬IsCut duration video target j := by
  induction video generalizing index duration with
  | nil => exact Or.inl ⟨rfl, fun j => not_isCut_of_short (Nat.zero_le 1)⟩
  | cons current rest ih =>
    cases rest with
    | nil => exact Or.inl ⟨rfl, fun j => not_isCut_of_short (Nat.le_refl 1)⟩
    | cons next rest =>
      have hzero : ¬IsCut duration (current :: next :: rest) target 0 := fun h =>
        absurd h.1 (lt_irrefl 0)
      by_cases hcut : target ≤ (duration + current.duration) % 2 ^ 64 ∧ next.startsWithSync = true
      · refine Or.inr ⟨1, ?_, isCut_one.mpr hcut, fun j hj => ?_⟩
        · unfold Reader.selectFrom
          simp only [Bool.false_eq_true, not_false_eq_true, if_true]
          rw [if_pos ⟨hcut.1, hcut.2⟩]
        · rw [Nat.lt_one_iff.mp hj]
          exact hzero
      · have hgo : Reader.selectFrom target false (current :: next :: rest) index duration 0 =
            Reader.selectFrom target false (next :: rest) (index + 1)
              ((duration + current.duration) % 2 ^ 64) 0 := by
          rw [Reader.selectFrom]
          simp only [Bool.false_eq_true, not_false_eq_true, if_true]
          exact if_neg fun h => hcut ⟨h.1, h.2⟩
        rw [hgo]
        have hone : ¬IsCut duration (current :: next :: rest) target 1 := fun h =>
          hcut (isCut_one.mp h)
        rcases ih (index + 1) ((duration + current.duration) % 2 ^ 64) with ⟨hnone, hall⟩ | ⟨k, hk, hcut', hleast⟩
        · refine Or.inl ⟨hnone, fun j => ?_⟩
          match j with
          | 0 => exact hzero
          | 1 => exact hone
          | j + 2 => exact fun h => hall (j + 1) ((isCut_succ (Nat.succ_pos j)).mp h)
        · refine Or.inr ⟨k + 1, by rw [hk]; omega, (isCut_succ hcut'.1).mpr hcut', fun j hj => ?_⟩
          match j with
          | 0 => exact hzero
          | 1 => exact hone
          | j + 2 =>
            exact fun h => hleast (j + 1) (by omega) ((isCut_succ (Nat.succ_pos j)).mp h)

theorem firstCut_selectFrom (target : ℕ) (video : List Fragment) :
    FirstCut video target (Reader.selectFrom target false video 0 0 0) := by
  rcases selectFrom_least target video 0 0 with ⟨hnone, hall⟩ | ⟨k, hk, hcut, hleast⟩
  · exact Or.inl ⟨hnone, hall⟩
  · rw [hk, Nat.zero_add]
    exact Or.inr ⟨hcut, hleast⟩

theorem FirstCut.unique {k' : ℕ} (h : FirstCut video target k) (h' : FirstCut video target k') :
    k = k' := by
  rcases h with ⟨rfl, hnone⟩ | ⟨hcut, hleast⟩
  · rcases h' with ⟨rfl, -⟩ | ⟨hcut', -⟩
    · rfl
    · exact absurd hcut' (hnone k')
  · rcases h' with ⟨-, hnone'⟩ | ⟨hcut', hleast'⟩
    · exact absurd hcut (hnone' k)
    · refine le_antisymm (not_lt.mp fun hlt => ?_) (not_lt.mp fun hlt => ?_)
      · exact hleast k' hlt hcut'
      · exact hleast' k hlt hcut

/-! ### The queue grows -/

/-- One queue comes to be another as data arrives: fragments are added after it, and its last
one may have its duration settled. -/
def Grows (video video' : List Fragment) : Prop :=
  video.length ≤ video'.length ∧ ∀ i f, video[i]? = some f →
    ∃ f', video'[i]? = some f' ∧ f'.startsWithSync = f.startsWithSync ∧
      f'.decodeTime = f.decodeTime ∧ (i + 1 < video.length → f' = f)

theorem Grows.refl (video : List Fragment) : Grows video video :=
  ⟨le_rfl, fun _ f hf => ⟨f, hf, rfl, rfl, fun _ => rfl⟩⟩

theorem Grows.trans {video'' : List Fragment} (h : Grows video video') (h' : Grows video' video'') :
    Grows video video'' := by
  refine ⟨h.1.trans h'.1, fun i f hf => ?_⟩
  obtain ⟨f', hf', hsync, htime, hsame⟩ := h.2 i f hf
  obtain ⟨f'', hf'', hsync', htime', hsame'⟩ := h'.2 i f' hf'
  refine ⟨f'', hf'', hsync'.trans hsync, htime'.trans htime, fun hi => ?_⟩
  have hlength := h.1
  rw [hsame' (by omega), hsame hi]

theorem grows_append (video more : List Fragment) : Grows video (video ++ more) := by
  refine ⟨by rw [List.length_append]; omega, fun i f hf => ⟨f, ?_, rfl, rfl, fun _ => rfl⟩⟩
  obtain ⟨hi, -⟩ := List.getElem?_eq_some_iff.mp hf
  rw [List.getElem?_append_left hi, hf]

theorem grows_settled {before : List Fragment} {previous settled : Fragment}
    (hsync : settled.startsWithSync = previous.startsWithSync)
    (htime : settled.decodeTime = previous.decodeTime) :
    Grows (before ++ [previous]) (before ++ [settled]) := by
  refine ⟨by simp, fun i f hf => ?_⟩
  by_cases hi : i < before.length
  · rw [List.getElem?_append_left hi] at hf
    exact ⟨f, by rw [List.getElem?_append_left hi, hf], rfl, rfl, fun _ => rfl⟩
  · have hlast : i = before.length := by
      obtain ⟨hlt, -⟩ := List.getElem?_eq_some_iff.mp hf
      rw [List.length_append, List.length_singleton] at hlt
      omega
    subst hlast
    rw [List.getElem?_concat_length] at hf
    cases hf
    refine ⟨settled, List.getElem?_concat_length, hsync, htime, fun hlt => ?_⟩
    rw [List.length_append, List.length_singleton] at hlt
    exact absurd hlt (lt_irrefl _)

theorem Grows.take_eq (h : Grows video video') (hk : k < video.length) :
    video'.take k = video.take k := by
  apply List.ext_getElem?
  intro i
  rw [List.getElem?_take, List.getElem?_take]
  split
  · next hi =>
    have hlt : i < video.length := hi.trans hk
    obtain ⟨f', hf', -, -, hsame⟩ := h.2 i video[i] (List.getElem?_eq_getElem hlt)
    rw [hf', hsame (by omega), List.getElem?_eq_getElem hlt]
  · rfl

theorem Grows.any_sync (h : Grows video video') (hk : k < video.length) :
    (video'[k]?).any Fragment.startsWithSync = (video[k]?).any Fragment.startsWithSync := by
  obtain ⟨f', hf', hsync, -, -⟩ := h.2 k video[k] (List.getElem?_eq_getElem hk)
  rw [hf', List.getElem?_eq_getElem hk]
  exact hsync

theorem Grows.isCut_iff (h : Grows video video') (hk : k < video.length) :
    IsCut duration video' target k ↔ IsCut duration video target k := by
  unfold IsCut
  rw [h.take_eq hk, h.any_sync hk]

/-- What arrives later does not move a cut that is there. -/
theorem FirstCut.grows (h : FirstCut video target k) (hk : k ≠ 0) (hgrows : Grows video video') :
    FirstCut video' target k := by
  rcases h with ⟨hzero, -⟩ | ⟨hcut, hleast⟩
  · exact absurd hzero hk
  · have hlt := hcut.lt_length
    refine Or.inr ⟨(hgrows.isCut_iff hlt).mpr hcut, fun j hj hcut' => ?_⟩
    exact hleast j hj ((hgrows.isCut_iff (hj.trans hlt)).mp hcut')

namespace Reader

variable {r r' r'' : Reader}

/-- In regular mode, with no drift to make up for, the first cut is selected. -/
theorem selectVideoCount_eq {first : Fragment} (hcue : r.cueMode = false)
    (hlag : r.lagsBehind = false) (hfirst : r.video.head? = some first)
    (hsync : first.startsWithSync = true)
    (htarget : toUnits r.segmentSeconds r.videoTrack.timescale = .ok target) :
    r.selectVideoCount = .ok (selectFrom target false r.video 0 0 0) := by
  obtain ⟨rest, hvideo⟩ := List.head?_eq_some_iff.mp hfirst
  unfold selectVideoCount
  simp only [hvideo]
  rw [failIf_of_not (not_not.mpr hsync), ok_bind, if_neg (by simp [hcue]), htarget, ok_bind, hlag]

/-- What a selection of something takes for granted. -/
theorem selectVideoCount_cases (hcue : r.cueMode = false) (hlag : r.lagsBehind = false)
    (h : r.selectVideoCount = .ok k) (hk : k ≠ 0) :
    ∃ first target, r.video.head? = some first ∧ first.startsWithSync = true ∧
      toUnits r.segmentSeconds r.videoTrack.timescale = .ok target ∧ FirstCut r.video target k := by
  cases hvideo : r.video with
  | nil =>
    unfold selectVideoCount at h
    simp only [hvideo] at h
    cases h
    exact absurd rfl hk
  | cons first rest =>
    have hsync : first.startsWithSync = true := by
      unfold selectVideoCount at h
      simp only [hvideo] at h
      obtain ⟨u, hcheck, -⟩ := bind_eq_ok.mp h
      exact not_not.mp (failIf_eq_ok.mp hcheck)
    have htarget : ∃ target, toUnits r.segmentSeconds r.videoTrack.timescale = .ok target := by
      unfold selectVideoCount at h
      simp only [hvideo] at h
      obtain ⟨u, -, h⟩ := bind_eq_ok.mp h
      rw [if_neg (by simp [hcue])] at h
      obtain ⟨target, htarget, -⟩ := bind_eq_ok.mp h
      exact ⟨target, htarget⟩
    obtain ⟨target, htarget⟩ := htarget
    have hfirst : r.video.head? = some first := by rw [hvideo]; rfl
    rw [selectVideoCount_eq hcue hlag hfirst hsync htarget] at h
    cases h
    refine ⟨first, target, rfl, hsync, htarget, ?_⟩
    rw [← hvideo]
    exact firstCut_selectFrom target r.video

/-! ### From one segment to the next -/

/-- A reader goes on from another one: all that decides the next cut is as it was, and the
video queue has grown. -/
structure Continues (r r' : Reader) : Prop where
  segmentSeconds : r'.segmentSeconds = r.segmentSeconds
  segmentDiff : r'.segmentDiff = r.segmentDiff
  cueMode : r'.cueMode = r.cueMode
  tfdtOffsetSeconds : r'.tfdtOffsetSeconds = r.tfdtOffsetSeconds
  completedVideoSegments : r'.completedVideoSegments = r.completedVideoSegments
  lastVideoEndTime : r'.lastVideoEndTime = r.lastVideoEndTime
  track : r.initDone = true → r'.initDone = true ∧ r'.videoTrack = r.videoTrack
  video : Grows r.video r'.video

theorem Continues.refl (r : Reader) : Continues r r :=
  ⟨rfl, rfl, rfl, rfl, rfl, rfl, fun h => ⟨h, rfl⟩, Grows.refl r.video⟩

theorem Continues.trans (h : Continues r r') (h' : Continues r' r'') : Continues r r'' where
  segmentSeconds := h'.segmentSeconds.trans h.segmentSeconds
  segmentDiff := h'.segmentDiff.trans h.segmentDiff
  cueMode := h'.cueMode.trans h.cueMode
  tfdtOffsetSeconds := h'.tfdtOffsetSeconds.trans h.tfdtOffsetSeconds
  completedVideoSegments := h'.completedVideoSegments.trans h.completedVideoSegments
  lastVideoEndTime := h'.lastVideoEndTime.trans h.lastVideoEndTime
  track hdone :=
    ⟨(h'.track (h.track hdone).1).1, (h'.track (h.track hdone).1).2.trans (h.track hdone).2⟩
  video := h.video.trans h'.video

theorem continues_of_begins (h : r.begins r') : Continues r r' := by
  rcases h with ⟨-, -, rfl⟩ | ⟨-, -, _, rfl⟩ | ⟨-, -, _, _, _, _, _, -, rfl⟩ <;>
    exact ⟨rfl, rfl, rfl, rfl, rfl, rfl, fun h => ⟨h, rfl⟩, Grows.refl _⟩

theorem continues_beginBox {size headerSize : ℕ} (h : r.beginBox size headerSize = .ok r') :
    Continues r r' := by
  obtain ⟨-, ⟨-, -, -, rfl⟩ | ⟨hfirst, video, audio, newInit, hbegins⟩ | ⟨-, hbegins⟩⟩ :=
    beginBox_cases h
  · exact ⟨rfl, rfl, rfl, rfl, rfl, rfl, fun h => ⟨h, rfl⟩, Grows.refl _⟩
  · refine Continues.trans ?_ (continues_of_begins hbegins)
    exact ⟨rfl, rfl, rfl, rfl, rfl, rfl, fun hdone => absurd hdone (by simp [hfirst]), Grows.refl _⟩
  · refine Continues.trans ?_ (continues_of_begins hbegins)
    exact ⟨rfl, rfl, rfl, rfl, rfl, rfl, fun h => ⟨h, rfl⟩, Grows.refl _⟩

theorem grows_resolveQueue {queue queue' : List Fragment} {current : Fragment} {hint : Option UInt32}
    (h : resolveQueue queue current = .ok (queue', hint)) : Grows queue queue' := by
  rcases resolveQueue_cases h with ⟨rfl, -⟩ | ⟨before, previous, settled, duration, rfl, -, hresolve, rfl⟩
  · exact Grows.refl _
  · obtain ⟨-, -, ⟨runs, duration, rfl⟩, -⟩ := resolveInferredDuration_ok hresolve
    exact grows_settled rfl rfl

/-- A step that ends no segment and leaves the clock alone goes on from where it was. -/
theorem continues_step {told : List Event} (hstep : Step r told r')
    (htold : ∀ e ∈ told, ∃ fragment, e = .told fragment) : Continues r r' := by
  cases hstep with
  | header => exact ⟨rfl, rfl, rfl, rfl, rfl, rfl, fun h => ⟨h, rfl⟩, Grows.refl _⟩
  | opened hne hfull hopen =>
    rcases openBox_cases hopen with ⟨-, kind, rfl⟩ | ⟨kind, size, headerSize, hbegin⟩
    · exact ⟨rfl, rfl, rfl, rfl, rfl, rfl, fun h => ⟨h, rfl⟩, Grows.refl _⟩
    · refine Continues.trans ?_ (continues_beginBox hbegin)
      exact ⟨rfl, rfl, rfl, rfl, rfl, rfl, fun h => ⟨h, rfl⟩, Grows.refl _⟩
  | body =>
    unfold writeCurrentBoxData
    split <;> exact ⟨rfl, rfl, rfl, rfl, rfl, rfl, fun h => ⟨h, rfl⟩, Grows.refl _⟩
  | closed hend hmoof hmdat hclose =>
    obtain ⟨_, _, _, _, _, rfl⟩ := hclose
    exact ⟨rfl, rfl, rfl, rfl, rfl, rfl, fun h => ⟨h, rfl⟩, Grows.refl _⟩
  | moof hend hkind hparse hmoof =>
    obtain ⟨fragment, video, audio, vd, vt, ad, t, -, hresolve, rfl⟩ := completeMoof_cases hmoof
    refine ⟨rfl, rfl, rfl, rfl, rfl, rfl, fun h => ⟨h, rfl⟩, ?_⟩
    show Grows r.video video
    rcases hresolve with ⟨-, -, hint, hvideo⟩ | ⟨-, -, rfl, -⟩ | ⟨-, -, rfl, -⟩
    · exact grows_resolveQueue hvideo
    · exact Grows.refl _
    · exact Grows.refl _
  | mdat hend hkind hmdat =>
    obtain ⟨pending, fragment, -, -, ⟨-, rfl⟩ | ⟨-, -, rfl⟩⟩ := completeMdat_cases hmdat
    · exact ⟨rfl, rfl, rfl, rfl, rfl, rfl, fun h => ⟨h, rfl⟩, grows_append _ _⟩
    · exact ⟨rfl, rfl, rfl, rfl, rfl, rfl, fun h => ⟨h, rfl⟩, Grows.refl _⟩
  | reset => exact ⟨rfl, rfl, rfl, rfl, rfl, rfl, fun h => ⟨h, rfl⟩, Grows.refl _⟩
  | build hbuild hnew =>
    obtain ⟨fragment, heq⟩ := htold _ (List.mem_singleton_self _)
    cases heq
  | remainder hbuild hnew =>
    obtain ⟨fragment, heq⟩ := htold _ (List.mem_singleton_self _)
    cases heq
  | defer => exact ⟨rfl, rfl, rfl, rfl, rfl, rfl, fun h => ⟨h, rfl⟩, Grows.refl _⟩
  | taken => exact ⟨rfl, rfl, rfl, rfl, rfl, rfl, fun h => ⟨h, rfl⟩, Grows.refl _⟩
  | targeted htarget =>
    unfold setTargetSegment at htarget
    split at htarget
    · cases htarget
      exact Continues.refl r
    · obtain ⟨u, -, htarget⟩ := bind_eq_ok.mp htarget
      cases htarget
      exact ⟨rfl, rfl, rfl, rfl, rfl, rfl, fun h => ⟨h, rfl⟩, Grows.refl _⟩
  | moved =>
    obtain ⟨fragment, heq⟩ := htold _ (List.mem_singleton_self _)
    cases heq

/-- A run that ends no segment and leaves the clock alone. -/
def Gathers (r r' : Reader) : Prop :=
  ∃ log, Trace.Run Step r log r' ∧ ∀ e ∈ log, ∃ fragment, e = Event.told fragment

theorem Gathers.leads (h : r.Gathers r') : r.Leads r' := by
  obtain ⟨log, hrun, -⟩ := h
  exact ⟨log, hrun⟩

theorem Gathers.continues (h : r.Gathers r') : Continues r r' := by
  obtain ⟨log, hrun, hlog⟩ := h
  refine hrun.keeps_of_all (P := Continues r) (fun _ _ _ hstep hgood hs => ?_) hlog (Continues.refl r)
  exact hs.trans (continues_step hstep hgood)

theorem Continues.lagsBehind (h : Continues r r') (hdone : r.initDone = true) :
    r'.lagsBehind = r.lagsBehind := by
  unfold Reader.lagsBehind
  rw [(h.track hdone).2, h.completedVideoSegments, h.segmentSeconds, h.segmentDiff,
    h.lastVideoEndTime]

/-- A cut that is selected stays the one selected, whatever arrives. -/
theorem Continues.selectVideoCount (hreach : r.Reachable) (hcue : r.cueMode = false)
    (hlag : r.lagsBehind = false) (h : Continues r r') (hselect : r.selectVideoCount = .ok k)
    (hk : k ≠ 0) : r'.selectVideoCount = .ok k := by
  obtain ⟨first, target, hfirst, hsync, htarget, hcut⟩ := selectVideoCount_cases hcue hlag hselect hk
  obtain ⟨rest, hvideo⟩ := List.head?_eq_some_iff.mp hfirst
  have hdone : r.initDone = true := by
    by_contra hfresh
    rw [Bool.not_eq_true] at hfresh
    rw [(hreach.queued.fresh hfresh).1] at hvideo
    cases hvideo
  have hhead : r.video[0]? = some first := by rw [hvideo]; rfl
  obtain ⟨first', hfirst', hsync', -, -⟩ := h.video.2 0 first hhead
  rw [← List.head?_eq_getElem?] at hfirst'
  have htarget' : toUnits r'.segmentSeconds r'.videoTrack.timescale = .ok target := by
    rw [h.segmentSeconds, (h.track hdone).2, htarget]
  rw [selectVideoCount_eq (h.cueMode.trans hcue) ((h.lagsBehind hdone).trans hlag) hfirst'
    (hsync'.trans hsync) htarget']
  rw [FirstCut.unique (firstCut_selectFrom target r'.video) (hcut.grows hk h.video)]

/-! ### The segment that is cut -/

/-- Units of a timescale in whole nanoseconds. -/
def nanoseconds (value : ℕ) (timescale : UInt32) : ℕ := value * 1000000000 / timescale.toNat

theorem timelineNanoseconds_ok {value ns : ℕ} {timescale : UInt32}
    (h : timelineNanoseconds value timescale = .ok ns) : ns = nanoseconds value timescale := by
  unfold timelineNanoseconds at h
  obtain ⟨u, hzero, h⟩ := bind_eq_ok.mp h
  simp only at h
  obtain ⟨u, -, h⟩ := bind_eq_ok.mp h
  rw [failIf_eq_ok] at hzero
  have hpos : 0 < timescale.toNat := by
    rw [Nat.pos_iff_ne_zero]
    exact fun heq => hzero (UInt32.toNat_inj.mp heq)
  unfold add64 at h
  split at h
  · cases h
    unfold nanoseconds
    have hsplit : value * 1000000000 =
        value % timescale.toNat * 1000000000 + timescale.toNat * (value / timescale.toNat * 1000000000) := by
      have hdiv := Nat.div_add_mod value timescale.toNat
      calc value * 1000000000
          = (timescale.toNat * (value / timescale.toNat) + value % timescale.toNat) * 1000000000 := by
            rw [hdiv]
        _ = _ := by ring
    rw [hsplit, Nat.add_mul_div_left _ _ hpos, Nat.add_comm]
  · cases h

theorem nanoseconds_add_le (a b : ℕ) (timescale : UInt32) :
    nanoseconds a timescale + nanoseconds b timescale ≤ nanoseconds (a + b) timescale := by
  unfold nanoseconds
  rw [Nat.add_mul]
  exact Nat.div_add_div_le_add_div

/-- How far the clock of the segments is set on. -/
def offsetNs (r : Reader) : ℕ :=
  if Binary64.zero.lt r.tfdtOffsetSeconds then
    (r.tfdtOffsetSeconds.mul (.ofNat 1000000000)).round.toU64
  else 0

theorem segmentTimes_ok {audio : List Fragment} {first last : Fragment} {startNs endNs : ℕ}
    (hfirst : video.head? = some first) (hlast : video.getLast? = some last)
    (h : r.segmentTimes video audio = .ok (startNs, endNs)) :
    startNs = nanoseconds first.decodeTime first.timescale + r.offsetNs ∧
      endNs = nanoseconds last.endTime last.timescale + r.offsetNs := by
  have hne : video ≠ [] := by
    rintro rfl
    cases hfirst
  unfold segmentTimes at h
  simp only [if_pos hne, hfirst, hlast, Option.getD_some] at h
  obtain ⟨u, -, h⟩ := bind_eq_ok.mp h
  obtain ⟨u, -, h⟩ := bind_eq_ok.mp h
  obtain ⟨startNs', hstart, h⟩ := bind_eq_ok.mp h
  obtain ⟨endNs', hend, h⟩ := bind_eq_ok.mp h
  obtain ⟨u, -, h⟩ := bind_eq_ok.mp h
  cases h
  rw [timelineNanoseconds_ok hstart, timelineNanoseconds_ok hend]
  exact ⟨rfl, rfl⟩

/-- Where runs come to lie changes nothing else of the fragments. -/
theorem map_assignOffsets {α : Type*} {key : Fragment → α}
    (hkey : ∀ (f : Fragment) runs, key { f with runs } = key f) (queue : List Fragment) (offset : ℕ) :
    (assignOffsets queue offset).1.map key = queue.map key := by
  induction queue generalizing offset with
  | nil => rfl
  | cons f rest ih =>
    have hrest := ih (offset + f.payloadLen)
    unfold assignOffsets
    simp only [List.map_cons, hkey, hrest]

theorem writeSegment_times {audio : List Fragment} {first last : Fragment} {data : List UInt8}
    {startNs endNs : ℕ} (hfirst : video.head? = some first) (hlast : video.getLast? = some last)
    (h : r.writeSegment video audio = .ok (data, startNs, endNs)) :
    startNs = nanoseconds first.decodeTime first.timescale + r.offsetNs ∧
      endNs = nanoseconds last.endTime last.timescale + r.offsetNs := by
  have hmap : (assignOffsets video 0).1.map (fun f => (f.decodeTime, f.endTime, f.timescale)) =
      video.map fun f => (f.decodeTime, f.endTime, f.timescale) :=
    map_assignOffsets (fun _ _ => rfl) video 0
  unfold writeSegment at h
  obtain ⟨u, -, h⟩ := bind_eq_ok.mp h
  obtain ⟨videoBytes, -, h⟩ := bind_eq_ok.mp h
  obtain ⟨audioBytes, -, h⟩ := bind_eq_ok.mp h
  obtain ⟨⟨startNs', endNs'⟩, htimes, h⟩ := bind_eq_ok.mp h
  obtain ⟨payload, -, h⟩ := bind_eq_ok.mp h
  cases h
  have hhead := congrArg List.head? hmap
  have hback := congrArg List.getLast? hmap
  rw [List.head?_map, List.head?_map, hfirst, Option.map_some, Option.map_eq_some_iff] at hhead
  rw [List.getLast?_map, List.getLast?_map, hlast, Option.map_some, Option.map_eq_some_iff] at hback
  obtain ⟨first', hfirst', heq⟩ := hhead
  obtain ⟨last', hlast', heq'⟩ := hback
  simp only [Prod.mk.injEq] at heq heq'
  obtain ⟨hstart, hend⟩ := segmentTimes_ok hfirst' hlast' htimes
  rw [hstart, hend, heq.1, heq.2.2, heq'.2.1, heq'.2.2]
  exact ⟨rfl, rfl⟩

theorem endTime_of_follows {first last : Fragment} {expected : ℕ} {rest : List Fragment}
    (h : follows first expected rest = true) (hlast : rest.getLast? = some last) :
    last.endTime = (expected + (rest.map Fragment.duration).sum) % 2 ^ 64 := by
  induction rest generalizing expected with
  | nil => cases hlast
  | cons current rest ih =>
    unfold follows at h
    simp only [Bool.and_eq_true, decide_eq_true_eq] at h
    obtain ⟨⟨⟨⟨⟨-, -⟩, htime⟩, -⟩, -⟩, hrest⟩ := h
    rw [List.map_cons, List.sum_cons]
    cases rest with
    | nil =>
      obtain rfl : current = last := Option.some.inj hlast
      unfold Fragment.endTime
      rw [htime, List.map_nil, List.sum_nil, Nat.add_zero]
    | cons next rest =>
      rw [List.getLast?_cons_cons] at hlast
      rw [ih hrest hlast]
      unfold Fragment.endTime
      rw [htime, Nat.mod_add_mod, Nat.add_assoc]

/-- Fragments that are merged cover a stretch without a gap. -/
theorem endTime_of_validateTrack {first last : Fragment} (h : validateTrack video = .ok ())
    (hfirst : video.head? = some first) (hlast : video.getLast? = some last) :
    last.endTime = (first.decodeTime + (video.map Fragment.duration).sum) % 2 ^ 64 := by
  obtain ⟨rest, rfl⟩ := List.head?_eq_some_iff.mp hfirst
  unfold validateTrack at h
  rw [failIf_eq_ok, Bool.not_eq_false] at h
  rw [List.map_cons, List.sum_cons]
  cases rest with
  | nil =>
    obtain rfl : first = last := Option.some.inj hlast
    unfold Fragment.endTime
    rw [List.map_nil, List.sum_nil, Nat.add_zero]
  | cons next rest =>
    rw [List.getLast?_cons_cons] at hlast
    rw [endTime_of_follows h hlast]
    unfold Fragment.endTime
    rw [Nat.mod_add_mod, Nat.add_assoc]

/-- A segment of the first fragments of the video: when it starts and ends, and what is left. -/
structure Cuts (r r' : Reader) (k : ℕ) (first last : Fragment) (segment : Segment) : Prop where
  head : r.video.head? = some first
  back : (r.video.take k).getLast? = some last
  endTime : last.endTime =
    (first.decodeTime + ((r.video.take k).map Fragment.duration).sum) % 2 ^ 64
  newSegment : r'.newSegment = some segment
  startNs : segment.startNs = nanoseconds first.decodeTime first.timescale + r.offsetNs
  endNs : segment.endNs = nanoseconds last.endTime last.timescale + r.offsetNs
  lastVideoEndTime : r'.lastVideoEndTime = last.endTime
  video : ∃ start, r'.video = (r.video.drop k).map (rebase start)
  kept : r'.tfdtOffsetSeconds = r.tfdtOffsetSeconds ∧ r'.initDone = r.initDone ∧
    r'.videoTrack = r.videoTrack

theorem cuts_of_buildSegment {first : Fragment} {audioCount : ℕ} (hk : k ≠ 0)
    (hfirst : r.video.head? = some first) (h : r.buildSegment k audioCount false = .ok r') :
    ∃ last segment, Cuts r r' k first last segment := by
  obtain ⟨segment, hle, -, htracks, hwrite, rfl⟩ := buildSegment_cases h
  obtain ⟨rest, hvideo⟩ := List.head?_eq_some_iff.mp hfirst
  have hhead : (r.video.take k).head? = some first := by
    rw [hvideo]
    obtain ⟨k, rfl⟩ := Nat.exists_eq_succ_of_ne_zero hk
    rfl
  have hne : r.video.take k ≠ [] := by
    intro hnil
    rw [hnil] at hhead
    cases hhead
  obtain ⟨last, hlast⟩ : ∃ last, (r.video.take k).getLast? = some last :=
    ⟨_, List.getLast?_eq_some_getLast hne⟩
  have hvalid : validateTrack (r.video.take k) = .ok () := by
    unfold checkTracks at htracks
    obtain ⟨u, -, htracks⟩ := bind_eq_ok.mp htracks
    obtain ⟨u, -, htracks⟩ := bind_eq_ok.mp htracks
    obtain ⟨u, -, htracks⟩ := bind_eq_ok.mp htracks
    obtain ⟨u, -, htracks⟩ := bind_eq_ok.mp htracks
    rw [if_pos hne] at htracks
    obtain ⟨u, hvalid, -⟩ := bind_eq_ok.mp htracks
    exact hvalid
  obtain ⟨hstart, hend⟩ := writeSegment_times hhead hlast hwrite
  obtain ⟨start, sourcePayload, currentPayloadStart, hreclaim, -⟩ :=
    reclaimPayloads_cases (r.cutOff k audioCount segment).resetPrefix
  rw [hreclaim]
  have hlastEnd : (r.cutOff k audioCount segment).lastVideoEndTime = last.endTime := by
    unfold cutOff
    rw [hlast]
  exact ⟨last, segment, hfirst, hlast, endTime_of_validateTrack hvalid hhead hlast, rfl, hstart,
    hend, hlastEnd, ⟨start, rfl⟩, rfl, rfl, rfl⟩

theorem cuts_of_tryBuildSegment (hcue : r.cueMode = false) (hlag : r.lagsBehind = false)
    (h : r.tryBuildSegment = .ok (r', true)) :
    ∃ k target first last segment, FirstCut r.video target k ∧ k ≠ 0 ∧
      toUnits r.segmentSeconds r.videoTrack.timescale = .ok target ∧
      first.startsWithSync = true ∧ Cuts r r' k first last segment := by
  rcases tryBuildSegment_cases h with
    ⟨hb, -⟩ | ⟨k, hselect, hk, ⟨-, hbuild, -⟩ | ⟨r₁, a, -, haudio, ⟨-, -, hb⟩ | ⟨-, hbuild, -⟩⟩⟩
  · cases hb
  · obtain ⟨first, target, hfirst, hsync, htarget, hcut⟩ := selectVideoCount_cases hcue hlag hselect hk
    obtain ⟨last, segment, hcuts⟩ := cuts_of_buildSegment hk hfirst hbuild
    exact ⟨k, target, first, last, segment, hcut, hk, htarget, hsync, hcuts⟩
  · cases hb
  · obtain ⟨first, target, hfirst, hsync, htarget, hcut⟩ := selectVideoCount_cases hcue hlag hselect hk
    obtain ⟨audio, -, rfl⟩ := selectAudioCount_cases haudio
    obtain ⟨last, segment, hcuts⟩ := cuts_of_buildSegment (r := { r with audio }) hk hfirst hbuild
    exact ⟨k, target, first, last, segment, hcut, hk, htarget, hsync, hcuts.head, hcuts.back,
      hcuts.endTime, hcuts.newSegment, hcuts.startNs, hcuts.endNs, hcuts.lastVideoEndTime,
      hcuts.video, hcuts.kept⟩

theorem cueMode_tryBuildSegment (h : r.tryBuildSegment = .ok (r', true)) : r'.cueMode = r.cueMode := by
  have hbuilt : ∀ (r₀ : Reader) k a allow, r₀.buildSegment k a allow = .ok r' →
      r'.cueMode = r₀.cueMode := by
    intro r₀ k a allow hbuild
    obtain ⟨segment, -, -, -, -, rfl⟩ := buildSegment_cases hbuild
    obtain ⟨start, sourcePayload, currentPayloadStart, hreclaim, -⟩ :=
      reclaimPayloads_cases (r₀.cutOff k a segment).resetPrefix
    rw [hreclaim]
    rfl
  rcases tryBuildSegment_cases h with
    ⟨hb, -⟩ | ⟨k, -, -, ⟨-, hbuild, -⟩ | ⟨r₁, a, -, haudio, ⟨-, -, hb⟩ | ⟨-, hbuild, -⟩⟩⟩
  · cases hb
  · exact hbuilt r k 0 false hbuild
  · cases hb
  · obtain ⟨audio, -, rfl⟩ := selectAudioCount_cases haudio
    have hsame := hbuilt _ k a false hbuild
    exact hsame

/-- A segment that is cut starts with a sync sample and is as long as it should be. -/
theorem Cuts.covers {first last : Fragment} {segment : Segment} (hreach : r.Reachable)
    (hcut : FirstCut r.video target k) (hk : k ≠ 0) (hsync : first.startsWithSync = true)
    (h : Cuts r r' k first last segment) :
    first.firstIsSync = true ∧ ∃ total, target ≤ total % 2 ^ 64 ∧
      segment.startNs = nanoseconds first.decodeTime r.videoTrack.timescale + r.offsetNs ∧
      segment.endNs =
        nanoseconds ((first.decodeTime + total) % 2 ^ 64) r.videoTrack.timescale + r.offsetNs ∧
      (first.decodeTime + total < 2 ^ 64 →
        segment.startNs + nanoseconds target r.videoTrack.timescale ≤ segment.endNs) := by
  have hfirst := hreach.queued.video first (List.mem_of_head? h.head)
  have hlast := hreach.queued.video last (List.mem_of_mem_take (List.mem_of_getLast? h.back))
  have hlong : target ≤ ((r.video.take k).map Fragment.duration).sum % 2 ^ 64 := by
    rcases hcut with ⟨hzero, -⟩ | ⟨hcut, -⟩
    · exact absurd hzero hk
    · have hlong := hcut.2.1
      rwa [Nat.zero_add] at hlong
  have hstart := h.startNs
  have hend := h.endNs
  rw [hfirst.timescale] at hstart
  rw [hlast.timescale, h.endTime] at hend
  refine ⟨hfirst.sync.symm.trans hsync, _, hlong, hstart, hend, fun hfits => ?_⟩
  rw [hstart, hend, Nat.mod_eq_of_lt hfits]
  have hsum := nanoseconds_add_le first.decodeTime
    ((r.video.take k).map Fragment.duration).sum r.videoTrack.timescale
  have hmono : nanoseconds target r.videoTrack.timescale ≤
      nanoseconds ((r.video.take k).map Fragment.duration).sum r.videoTrack.timescale :=
    Nat.div_le_div_right (Nat.mul_le_mul_right _ (hlong.trans (Nat.mod_le _ _)))
  omega

/-- A segment starts where the fragment does that was left at the border before it. -/
theorem Cuts.next {r₀ r₁ r₂ r₃ : Reader} {k' : ℕ} {first last first' last' : Fragment}
    {segment segment' : Segment} (hreach : r₀.Reachable) (hdone : r₀.initDone = true)
    (hlength : k < r₀.video.length) (h : Cuts r₀ r₁ k first last segment) (hreach' : r₂.Reachable)
    (hgathers : Continues r₁ r₂) (h' : Cuts r₂ r₃ k' first' last' segment') :
    ∃ next, r₁.video.head? = some next ∧
      segment.endNs = nanoseconds r₁.lastVideoEndTime r₀.videoTrack.timescale + r₀.offsetNs ∧
      segment'.startNs = nanoseconds next.decodeTime r₀.videoTrack.timescale + r₀.offsetNs := by
  obtain ⟨hoffset, hinit, htrack⟩ := h.kept
  have hlast := hreach.queued.video last (List.mem_of_mem_take (List.mem_of_getLast? h.back))
  have hfirst' := hreach'.queued.video first' (List.mem_of_head? h'.head)
  have htrack' := (hgathers.track (hinit.trans hdone)).2
  have hoffset' : r₂.offsetNs = r₀.offsetNs := by
    unfold offsetNs
    rw [hgathers.tfdtOffsetSeconds, hoffset]
  obtain ⟨start, hvideo⟩ := h.video
  have hnext : ∃ next, r₁.video.head? = some next := by
    rw [hvideo, List.head?_map, List.head?_drop, List.getElem?_eq_getElem hlength]
    exact ⟨_, rfl⟩
  obtain ⟨next, hnext⟩ := hnext
  obtain ⟨f, hf, -, htime, -⟩ := hgathers.video.2 0 next (by rw [← List.head?_eq_getElem?, hnext])
  rw [← List.head?_eq_getElem?, h'.head] at hf
  cases hf
  refine ⟨next, hnext, ?_, ?_⟩
  · rw [h.endNs, hlast.timescale, h.lastVideoEndTime]
  · rw [h'.startNs, hfirst'.timescale, hoffset', htime, htrack', htrack]

/-- In regular mode and with no drift to make up for: a queue that starts with a sync sample is
cut at the first place that is far enough and has a sync sample; a cut that is there stays
there, whatever arrives; a segment starts with a sync sample and is as long as it should
be; and the next one starts where the fragment at the border does, which is where the one
before ends unless the source has a gap there. -/
theorem cut_at_first_sync_after_target :
    (∀ (r : Reader) first target, r.cueMode = false → r.lagsBehind = false →
      r.video.head? = some first → first.startsWithSync = true →
      toUnits r.segmentSeconds r.videoTrack.timescale = .ok target →
      ∃ k, r.selectVideoCount = .ok k ∧ FirstCut r.video target k ∧
        ∀ more, k ≠ 0 → ({ r with video := r.video ++ more } : Reader).selectVideoCount = .ok k) ∧
    (∀ (r r' : Reader) k, r.Reachable → r.cueMode = false → r.lagsBehind = false →
      r.selectVideoCount = .ok k → k ≠ 0 → r.Gathers r' → r'.selectVideoCount = .ok k) ∧
    (∀ r r' : Reader, r.Reachable → r.cueMode = false → r.lagsBehind = false →
      r.tryBuildSegment = .ok (r', true) →
      ∃ target total first segment, toUnits r.segmentSeconds r.videoTrack.timescale = .ok target ∧
        r'.newSegment = some segment ∧ r.video.head? = some first ∧ first.firstIsSync = true ∧
        target ≤ total % 2 ^ 64 ∧
        segment.startNs = nanoseconds first.decodeTime r.videoTrack.timescale + r.offsetNs ∧
        segment.endNs =
          nanoseconds ((first.decodeTime + total) % 2 ^ 64) r.videoTrack.timescale + r.offsetNs ∧
        (first.decodeTime + total < 2 ^ 64 →
          segment.startNs + nanoseconds target r.videoTrack.timescale ≤ segment.endNs)) ∧
    (∀ r₀ r₁ r₂ r₃ : Reader, r₀.Reachable → r₀.cueMode = false → r₀.lagsBehind = false →
      r₀.tryBuildSegment = .ok (r₁, true) → r₁.Gathers r₂ → r₂.lagsBehind = false →
      r₂.tryBuildSegment = .ok (r₃, true) →
      ∃ next segment segment', r₁.video.head? = some next ∧ r₁.newSegment = some segment ∧
        r₃.newSegment = some segment' ∧
        segment.endNs = nanoseconds r₁.lastVideoEndTime r₀.videoTrack.timescale + r₀.offsetNs ∧
        segment'.startNs = nanoseconds next.decodeTime r₀.videoTrack.timescale + r₀.offsetNs ∧
        (next.decodeTime = r₁.lastVideoEndTime → segment'.startNs = segment.endNs)) := by
  refine ⟨?_, ?_, ?_, ?_⟩
  · intro r first target hcue hlag hfirst hsync htarget
    have hcut := firstCut_selectFrom target r.video
    refine ⟨_, selectVideoCount_eq hcue hlag hfirst hsync htarget, hcut, fun more hk => ?_⟩
    have hfirst' : (r.video ++ more).head? = some first := by
      rw [List.head?_append, hfirst, Option.some_or]
    rw [selectVideoCount_eq (r := { r with video := r.video ++ more }) hcue hlag hfirst' hsync htarget]
    rw [FirstCut.unique (firstCut_selectFrom target (r.video ++ more))
      (hcut.grows hk (grows_append r.video more))]
  · intro r r' k hreach hcue hlag hselect hk hgathers
    exact hgathers.continues.selectVideoCount hreach hcue hlag hselect hk
  · intro r r' hreach hcue hlag hbuild
    obtain ⟨k, target, first, last, segment, hcut, hk, htarget, hsync, hcuts⟩ :=
      cuts_of_tryBuildSegment hcue hlag hbuild
    obtain ⟨hfirst, total, hlong, hstart, hend, hcovers⟩ := hcuts.covers hreach hcut hk hsync
    exact ⟨target, total, first, segment, htarget, hcuts.newSegment, hcuts.head, hfirst, hlong,
      hstart, hend, hcovers⟩
  · intro r₀ r₁ r₂ r₃ hreach hcue hlag hbuild hgathers hlag' hbuild'
    obtain ⟨k, target, first, last, segment, hcut, hk, -, -, hcuts⟩ :=
      cuts_of_tryBuildSegment hcue hlag hbuild
    have hcue' : r₂.cueMode = false := by
      rw [hgathers.continues.cueMode, cueMode_tryBuildSegment hbuild, hcue]
    obtain ⟨k', -, first', last', segment', -, -, -, -, hcuts'⟩ :=
      cuts_of_tryBuildSegment hcue' hlag' hbuild'
    have hlength : k < r₀.video.length := by
      rcases hcut with ⟨hzero, -⟩ | ⟨hcut, -⟩
      · exact absurd hzero hk
      · exact hcut.lt_length
    have hdone : r₀.initDone = true := by
      by_contra hfresh
      rw [Bool.not_eq_true] at hfresh
      rw [(hreach.queued.fresh hfresh).1] at hlength
      exact absurd hlength (Nat.not_lt_zero k)
    have hreach' : r₂.Reachable :=
      (hreach.leads (leads_tryBuildSegment hbuild)).leads hgathers.leads
    obtain ⟨next, hnext, hend, hstart⟩ :=
      hcuts.next hreach hdone hlength hreach' hgathers.continues hcuts'
    refine ⟨next, segment, segment', hnext, hcuts.newSegment, hcuts'.newSegment, hend, hstart,
      fun habut => ?_⟩
    rw [hstart, hend, habut]

/-! ### Streams that show the exceptions -/

/-- A box around what lies in it. -/
def boxOf (kind : UInt32) (body : List UInt8) : List UInt8 :=
  writeHeader (UInt32.ofNat (body.length + 8)) kind ++ body

def trakOf (id timescale handler : UInt32) : List UInt8 :=
  boxOf Kind.trak (
    boxOf Kind.tkhd (toBe32 0 ++ toBe32 0 ++ toBe32 0 ++ toBe32 id) ++
    boxOf Kind.mdia (
      boxOf Kind.mdhd (toBe32 0 ++ toBe32 0 ++ toBe32 0 ++ toBe32 timescale) ++
      boxOf Kind.hdlr (toBe32 0 ++ toBe32 0 ++ toBe32 handler)))

def trexOf (id : UInt32) : List UInt8 :=
  boxOf Kind.trex (toBe32 0 ++ toBe32 id ++ toBe32 1 ++ toBe32 0 ++ toBe32 0 ++ toBe32 0)

/-- The start of a stream of one video track. -/
def videoInit (timescale : UInt32) : List UInt8 :=
  boxOf Kind.moov (trakOf 1 timescale handlerVideo ++ boxOf Kind.mvex (trexOf 1))

/-- A `moof` whose samples are all told, and its `mdat`. -/
def mediaOf (id : UInt32) (decodeTime : ℕ) (samples : List Sample) (payload : List UInt8) :
    List UInt8 :=
  boxOf Kind.moof (boxOf Kind.traf (
    boxOf Kind.tfhd (toBe32 TfhdFlag.defaultBaseIsMoof ++ toBe32 id) ++
    writeTfdt decodeTime ++
    boxOf Kind.trun (toBe32 0x000701 ++ toBe32 (UInt32.ofNat samples.length) ++
      toBe32 (UInt32.ofNat (80 + 12 * samples.length)) ++ samples.flatMap (writeSample false)))) ++
  boxOf Kind.mdat payload

/-- A sync sample of one second and one byte, at a timescale of 1000. -/
def second : Sample := ⟨1000, 1, 0x02000000, 0⟩

/-- A video with nothing in its second second. -/
def gapStream : List UInt8 :=
  videoInit 1000 ++ mediaOf 1 0 [second] [7] ++ mediaOf 1 2000 [second] [8] ++
    mediaOf 1 3000 [second] [9]

def times (segment : Segment) : ℕ × ℕ := (segment.startNs, segment.endNs)

/-- A queue that does not start with a sync sample is refused; one that is too short to cut may
be cut once more has arrived; durations that add up to more than 64 bits hold are too
short again; and segments on both sides of a gap do not abut. -/
theorem not_every_queue_cut_at_target :
    (∃ e, ({ new (.finite 1) 0 false with
      videoTrack := ⟨1, 1000, {}⟩, video := [{}, { startsWithSync := true }] } : Reader).selectVideoCount
        = .error e) ∧
    ({ new (.finite 1) 0 false with
      videoTrack := ⟨1, 1000, {}⟩
      video := [{ startsWithSync := true, duration := 1000 }] } : Reader).selectVideoCount = .ok 0 ∧
    ({ new (.finite 1) 0 false with
      videoTrack := ⟨1, 1000, {}⟩
      video := [{ startsWithSync := true, duration := 1000 }, { startsWithSync := true }] } :
        Reader).selectVideoCount = .ok 1 ∧
    ({ new (.finite 1) 0 false with
      videoTrack := ⟨1, 1000, {}⟩
      video := [{ startsWithSync := true, duration := 2 ^ 64 - 1 }, { duration := 1 },
        { startsWithSync := true }] } : Reader).selectVideoCount = .ok 0 ∧
    (do
      let r₁ ← (new (.finite 1) 0 false).push gapStream
      let (r₂, _) ← r₁.tryProcessDeferred
      .ok (r₁.newSegment.map times, r₂.newSegment.map times)) =
        (.ok (some (0, 1000000000), some (2000000000, 3000000000)) :
          Except ReaderError (Option (ℕ × ℕ) × Option (ℕ × ℕ))) := by
  refine ⟨⟨_, rfl⟩, ?_, ?_, ?_, ?_⟩
  · decide +kernel
  · decide +kernel
  · decide +kernel
  · decide +kernel

end Reader

end Rustorr.Mp4
