import Rustorr.Gst.Mp4.Ledger

/-! A reader's runs with the media that passes through it: what has arrived of a track is what its
segments hold, what was let go at the end, and what is queued. -/

namespace Rustorr.Mp4

open BigEndian Except

namespace Reader

variable {r r' : Reader}

/-! ### The queues -/

theorem held_cons (source : List UInt8) (f : Fragment) (queue : List Fragment) :
    held source (f :: queue) = held source [f] ++ held source queue :=
  held_append source [f] queue

/-- The audio that is selected is the audio that was queued, whether a fragment is cut or none. -/
theorem held_selectAudioFrom {videoEnd k : ℕ} {queue audio : List Fragment} (hlaid : ∀ f ∈ queue, f.Laid)
    (h : r.selectAudioFrom videoEnd queue = .ok (audio, k)) (source : List UInt8) :
    List.Forall₂ Becomes (held source queue) (held source audio) ∧ ∀ f ∈ audio, f.Laid := by
  induction queue generalizing audio k with
  | nil =>
    unfold selectAudioFrom at h
    cases h
    exact ⟨.nil, hlaid⟩
  | cons f rest ih =>
    obtain ⟨hf, hrest⟩ := List.forall_mem_cons.mp hlaid
    rcases selectAudioFrom_cases h with
      ⟨split, rest', k', -, hselect, rfl, -⟩ | ⟨split, total, -, -, -, -, -, ⟨-, rfl⟩ | ⟨left, right, -, hsplit, rfl⟩⟩
    · obtain ⟨hheld, hall⟩ := ih hrest hselect
      rw [held_cons, held_cons source f rest']
      exact ⟨List.rel_append (forall₂_becomes_refl _) hheld, List.forall_mem_cons.mpr ⟨hf, hall⟩⟩
    · exact ⟨forall₂_becomes_refl _, hlaid⟩
    · have hparts := hf.isSplitAt hsplit
      refine ⟨?_, ?_⟩
      · have hsplit' : held source (left :: right :: rest) = held source [left, right] ++ held source rest :=
          held_append source [left, right] rest
        rw [held_cons, hsplit']
        exact List.rel_append (held_split hf hsplit source) (forall₂_becomes_refl _)
      · exact List.forall_mem_cons.mpr ⟨hparts.first.1, List.forall_mem_cons.mpr ⟨hparts.last.1, hrest⟩⟩

/-- So is a queue whose last duration is settled, but for that duration. -/
theorem held_resolveQueue {queue queue' : List Fragment} {current : Fragment} {hint : Option UInt32}
    (hlaid : ∀ f ∈ queue, f.Laid) (h : resolveQueue queue current = .ok (queue', hint))
    (source : List UInt8) :
    List.Forall₂ Becomes (held source queue) (held source queue') ∧ ∀ f ∈ queue', f.Laid := by
  rcases resolveQueue_cases h with ⟨rfl, -⟩ | ⟨before, previous, settled, duration, rfl, -, hresolve, rfl⟩
  · exact ⟨forall₂_becomes_refl _, hlaid⟩
  · have hprevious := hlaid previous (List.mem_append_right _ List.mem_cons_self)
    refine ⟨?_, forall_mem_concat (fun f hf => hlaid f (List.mem_append_left _ hf)) ?_⟩
    · rw [held_append, held_append]
      exact List.rel_append (forall₂_becomes_refl _) (held_settled hprevious hresolve source)
    · exact hprevious.resolve hresolve

theorem forall_resolveQueue {queue queue' : List Fragment} {current : Fragment} {hint : Option UInt32}
    {id : UInt32} (h : resolveQueue queue current = .ok (queue', hint)) (hqueue : ∀ f ∈ queue, f.trackId ≠ id) :
    ∀ f ∈ queue', f.trackId ≠ id := by
  rcases resolveQueue_cases h with ⟨rfl, -⟩ | ⟨before, previous, settled, duration, rfl, -, hresolve, rfl⟩
  · exact hqueue
  · obtain ⟨-, -, ⟨runs, d, rfl⟩, -⟩ := resolveInferredDuration_ok hresolve
    refine forall_mem_concat (fun f hf => hqueue f (List.mem_append_left _ hf)) ?_
    exact hqueue previous (List.mem_append_right _ List.mem_cons_self)

/-- The fragments of the queues are laid out in their payloads, those of the audio are of another track
than the video, and the one that waits for its payload has the sums of its samples. -/
structure Arranged (r : Reader) : Prop where
  video : ∀ f ∈ r.video, f.Laid
  audio : ∀ f ∈ r.audio, f.Laid
  apart : ∀ f ∈ r.audio, f.trackId ≠ r.videoTrack.id
  pending : ∀ f, r.pending = some f → f.Summed

theorem Blank.arranged (h : r.Blank) : r.Arranged := by
  constructor
  · rw [h.video]
    exact fun f hf => absurd hf List.not_mem_nil
  · rw [h.audio]
    exact fun f hf => absurd hf List.not_mem_nil
  · rw [h.audio]
    exact fun f hf => absurd hf List.not_mem_nil
  · rw [h.pending]
    intro f hf
    cases hf

theorem laid_rebased {queue : List Fragment} (h : ∀ f ∈ queue, f.Laid) (count start : ℕ) :
    ∀ f ∈ (queue.drop count).map (rebase start), f.Laid := by
  intro f hf
  obtain ⟨f₀, hf₀, rfl⟩ := List.mem_map.mp hf
  exact (h f₀ (List.mem_of_mem_drop hf₀)).rebase start

theorem forall_rebased {queue : List Fragment} {id : UInt32} (h : ∀ f ∈ queue, f.trackId ≠ id) (start : ℕ) :
    ∀ f ∈ queue.map (rebase start), f.trackId ≠ id := by
  intro f hf
  obtain ⟨f₀, hf₀, rfl⟩ := List.mem_map.mp hf
  unfold rebase
  split <;> exact h f₀ hf₀

/-- A segment takes the first fragments of each queue. -/
theorem passed_buildSegment {k a : ℕ} {allow : Bool} (harranged : r.Arranged) (hqueued : r.Queued)
    (h : r.buildSegment k a allow = .ok r') :
    Passed r.sourcePayload r.video [] ((r.video.take k).flatMap (Fragment.media r.sourcePayload))
        r'.sourcePayload r'.video ∧
      Passed r.sourcePayload r.audio [] ((r.audio.take a).flatMap (Fragment.media r.sourcePayload))
        r'.sourcePayload r'.audio ∧ r'.Arranged := by
  obtain ⟨segment, -, -, -, -, rfl⟩ := buildSegment_cases h
  obtain ⟨start, sourcePayload, currentPayloadStart, hreclaim, hcase⟩ :=
    reclaimPayloads_cases (r.cutOff k a segment).resetPrefix
  have hvideo : ∀ f ∈ r.video.drop k, 0 < f.payloadLen := fun f hf =>
    (hqueued.video f (List.mem_of_mem_drop hf)).payloadLen
  have haudio : ∀ f ∈ r.audio.drop a, 0 < f.payloadLen := fun f hf =>
    (hqueued.audio f (List.mem_of_mem_drop hf)).payloadLen
  have hkept : ∀ (queue : List Fragment) (n : ℕ),
      (∀ f ∈ queue.drop n, f ∈ (r.cutOff k a segment).resetPrefix.video ++
        (r.cutOff k a segment).resetPrefix.audio) → (∀ f ∈ queue.drop n, 0 < f.payloadLen) →
      held sourcePayload ((queue.drop n).map (rebase start)) = held r.sourcePayload (queue.drop n) := by
    intro queue n hmem hlen
    rcases hcase with ⟨rfl, -, hstart⟩ | ⟨-, -, hempty⟩
    · exact held_rebase (fun f hf => hstart f (hmem f hf) (hlen f hf)) hlen
    · have hnone : queue.drop n = [] := by
        apply List.eq_nil_iff_forall_not_mem.mpr
        intro f hf
        have hzero := hempty f (hmem f hf)
        have hpos := hlen f hf
        omega
      rw [hnone]
      rfl
  rw [hreclaim]
  refine ⟨?_, ?_, ?_⟩
  · have hpassed := (Passed.take harranged.video r.sourcePayload k).trans
      (Passed.of_eq (hkept r.video k (fun f hf => List.mem_append_left _ hf) hvideo))
    rwa [List.append_nil, List.append_nil] at hpassed
  · have hpassed := (Passed.take harranged.audio r.sourcePayload a).trans
      (Passed.of_eq (hkept r.audio a (fun f hf => List.mem_append_right _ hf) haudio))
    rwa [List.append_nil, List.append_nil] at hpassed
  · refine ⟨laid_rebased harranged.video k start, laid_rebased harranged.audio a start, ?_, harranged.pending⟩
    exact forall_rebased (fun f hf => harranged.apart f (List.mem_of_mem_drop hf)) start

/-- The audio may be cut before a segment is. -/
def Selects (r r₁ : Reader) : Prop := r₁ = r ∨ ∃ videoEnd count, r.selectAudioCount videoEnd = .ok (r₁, count)

theorem Selects.cases {r₁ : Reader} (h : r.Selects r₁) (harranged : r.Arranged) :
    ∃ audio, r₁ = { r with audio } ∧ (∀ f ∈ audio, f.Laid) ∧ (∀ f ∈ audio, f.trackId ≠ r.videoTrack.id) ∧
      List.Forall₂ Becomes (held r.sourcePayload r.audio) (held r.sourcePayload audio) := by
  rcases h with rfl | ⟨videoEnd, count, hselect⟩
  · exact ⟨_, rfl, harranged.audio, harranged.apart, forall₂_becomes_refl _⟩
  · obtain ⟨audio, haudio, rfl⟩ := selectAudioCount_cases hselect
    obtain ⟨hheld, hall⟩ := held_selectAudioFrom harranged.audio haudio r.sourcePayload
    refine ⟨audio, rfl, hall, ?_, hheld⟩
    refine forall_of_selectAudioFrom (fun hf hparts => ?_) haudio harranged.apart
    rw [hparts.leftTrack.1, hparts.rightTrack.1]
    exact ⟨hf, hf⟩

theorem Selects.arranged {r₁ : Reader} (h : r.Selects r₁) (harranged : r.Arranged) : r₁.Arranged := by
  obtain ⟨audio, rfl, hall, hapart, -⟩ := h.cases harranged
  exact ⟨harranged.video, hall, hapart, harranged.pending⟩

theorem Selects.queued {r₁ : Reader} (h : r.Selects r₁) (hqueued : r.Queued) : r₁.Queued := by
  rcases h with rfl | ⟨videoEnd, count, hselect⟩
  · exact hqueued
  · exact hqueued.selectAudioCount hselect

theorem Arranged.tryBuildSegment {b : Bool} (h : r.Arranged) (hqueued : r.Queued)
    (hbuild : r.tryBuildSegment = .ok (r', b)) : r'.Arranged := by
  rcases tryBuildSegment_cases hbuild with
    ⟨-, rfl, -⟩ | ⟨k, -, -, ⟨-, hbuild, -⟩ | ⟨r₁, a, -, hselect, hcase⟩⟩
  · exact h
  · exact (passed_buildSegment h hqueued hbuild).2.2
  · have hselects : r.Selects r₁ := Or.inr ⟨_, _, hselect⟩
    rcases hcase with ⟨-, rfl, -⟩ | ⟨-, hbuild, -⟩
    · exact hselects.arranged h
    · exact (passed_buildSegment (hselects.arranged h) (hselects.queued hqueued) hbuild).2.2

theorem Arranged.remainder (h : r.Arranged) (hqueued : r.Queued)
    (hbuild : r.tryBuildEndOfStreamRemainder = .ok (r', true)) : r'.Arranged := by
  obtain ⟨r₁, r₂, a, -, hselect, hlast, rfl⟩ := remainder_cases hbuild
  have hselects : r.Selects r₁ := by
    rcases hselect with ⟨-, -, selected, hselect, -⟩ | ⟨-, rfl, -⟩
    · exact Or.inr ⟨_, _, hselect⟩
    · exact Or.inl rfl
  have h₂ := (passed_buildSegment (hselects.arranged h) (hselects.queued hqueued) hlast).2.2
  split
  · exact ⟨h₂.video, fun f hf => absurd hf List.not_mem_nil, fun f hf => absurd hf List.not_mem_nil,
      h₂.pending⟩
  · exact h₂

/-- A fragment has the samples that its `moof` told. -/
theorem marked_attachRuns {payloadFromMoof start stop : ℕ} {runs runs' : List Run}
    (h : attachRuns payloadFromMoof runs start = .ok (runs', stop)) :
    runs'.flatMap Run.marked = runs.flatMap Run.marked := by
  induction runs generalizing start runs' with
  | nil =>
    cases h
    rfl
  | cons run rest ih =>
    unfold attachRuns at h
    simp only at h
    obtain ⟨u, -, h⟩ := bind_eq_ok.mp h
    obtain ⟨u, -, h⟩ := bind_eq_ok.mp h
    obtain ⟨⟨runs₁, stop₁⟩, hrest, h⟩ := bind_eq_ok.mp h
    cases h
    rw [List.flatMap_cons, List.flatMap_cons, ih hrest]
    rfl

theorem arrivals_attachPayload {pending f : Fragment} {start len payloadFromMoof : ℕ} (payload : List UInt8)
    (h : attachPayload pending start len payloadFromMoof = .ok f) :
    f.arrivals payload = pending.arrivals payload := by
  unfold attachPayload at h
  obtain ⟨⟨runs, stop⟩, hruns, h⟩ := bind_eq_ok.mp h
  obtain ⟨u, -, h⟩ := bind_eq_ok.mp h
  cases h
  unfold Fragment.arrivals Fragment.marked
  rw [marked_attachRuns hruns]

theorem Arranged.begins (h : r.Arranged) (hbegins : r.begins r') : r'.Arranged := by
  rcases hbegins with ⟨-, -, rfl⟩ | ⟨-, -, _, rfl⟩ | ⟨-, -, _, _, _, _, _, -, rfl⟩
  · exact ⟨h.video, h.audio, h.apart, h.pending⟩
  · exact ⟨h.video, h.audio, h.apart, h.pending⟩
  · exact ⟨h.video, h.audio, h.apart, h.pending⟩

theorem Arranged.beginBox {size headerSize : ℕ} (h : r.Arranged)
    (hfresh : r.initDone = false → r.audio = []) (hbegin : r.beginBox size headerSize = .ok r') : r'.Arranged := by
  obtain ⟨-, ⟨-, -, -, rfl⟩ | ⟨hnot, video, audio, newInit, hbegins⟩ | ⟨-, hbegins⟩⟩ :=
    beginBox_cases hbegin
  · exact ⟨h.video, h.audio, h.apart, h.pending⟩
  · refine Arranged.begins ?_ hbegins
    have hnone := hfresh hnot
    refine ⟨h.video, h.audio, ?_, h.pending⟩
    show ∀ f ∈ r.audio, _
    rw [hnone]
    exact fun f hf => absurd hf List.not_mem_nil
  · refine Arranged.begins ?_ hbegins
    exact ⟨h.video, h.audio, h.apart, h.pending⟩

theorem Arranged.step {told : List Event} (hstep : Step r told r') (hqueued : r.Queued) (h : r.Arranged) :
    r'.Arranged := by
  cases hstep with
  | header => exact ⟨h.video, h.audio, h.apart, h.pending⟩
  | @opened _ bytes hne hfull hopen =>
    rcases openBox_cases hopen with ⟨-, kind, rfl⟩ | ⟨kind, size, headerSize, hbegin⟩
    · exact ⟨h.video, h.audio, h.apart, h.pending⟩
    · have hopened : ({ r with boxHeader := r.boxHeader ++ bytes, currentBoxType := kind } : Reader).Arranged :=
        ⟨h.video, h.audio, h.apart, h.pending⟩
      exact hopened.beginBox (fun hnot => (hqueued.fresh hnot).2.1) hbegin
  | body =>
    unfold writeCurrentBoxData
    split <;> exact ⟨h.video, h.audio, h.apart, h.pending⟩
  | closed hend hmoof hmdat hclose =>
    obtain ⟨_, _, _, _, _, rfl⟩ := hclose
    exact ⟨h.video, h.audio, h.apart, h.pending⟩
  | moof hend hkind hparse hmoof =>
    obtain ⟨fragment, video, audio, vd, vt, ad, t, hsource, hresolve, rfl⟩ := completeMoof_cases hmoof
    obtain ⟨h₁, h₂, h₃, h₄, h₅, h₆, h₇, h₈⟩ := summed_of_parseSourceMoof hsource
    have hpending : ∀ f, some ({ fragment with payloadStart := 0 } : Fragment) = some f → f.Summed := by
      intro f hf
      cases hf
      exact ⟨h₁, h₂, h₃, h₄, h₅, h₆, h₇, h₈⟩
    rcases hresolve with ⟨-, rfl, hint, hvideo⟩ | ⟨-, -, rfl, hint, haudio⟩ | ⟨-, -, rfl, rfl⟩
    · exact ⟨(held_resolveQueue h.video hvideo []).2, h.audio, h.apart, hpending⟩
    · refine ⟨h.video, (held_resolveQueue h.audio haudio []).2, ?_, hpending⟩
      exact forall_resolveQueue haudio h.apart
    · exact ⟨h.video, h.audio, h.apart, hpending⟩
  | mdat hend hkind hmdat =>
    obtain ⟨pending, fragment, hpending, hattach, hcase⟩ := completeMdat_cases hmdat
    have hlaid := (whole_of_attachPayload (h.pending pending hpending) hattach).laid
    have hnone : ∀ f, (none : Option Fragment) = some f → f.Summed := by
      intro f hf
      cases hf
    rcases hcase with ⟨-, rfl⟩ | ⟨hother, -, rfl⟩
    · exact ⟨forall_mem_concat h.video hlaid, h.audio, h.apart, hnone⟩
    · exact ⟨h.video, forall_mem_concat h.audio hlaid, forall_mem_concat h.apart hother, hnone⟩
  | reset => exact ⟨h.video, h.audio, h.apart, h.pending⟩
  | build hbuild hnew => exact h.tryBuildSegment hqueued hbuild
  | remainder hbuild hnew => exact h.remainder hqueued hbuild
  | defer => exact ⟨h.video, h.audio, h.apart, h.pending⟩
  | taken => exact ⟨h.video, h.audio, h.apart, h.pending⟩
  | targeted htarget =>
    unfold setTargetSegment at htarget
    split at htarget
    · cases htarget
      exact h
    · obtain ⟨u, -, htarget⟩ := bind_eq_ok.mp htarget
      cases htarget
      exact ⟨h.video, h.audio, h.apart, h.pending⟩
  | moved => exact ⟨h.video, h.audio, h.apart, h.pending⟩

/-! ### Steps and what passes in them -/

/-- What passes through a reader: the samples of an `mdat`, of the video or not, those of a segment, and
the audio that is let go after the last. -/
inductive Passage where
  | received (ofVideo : Bool) (samples : List (Bool × Media))
  | sent (segment : Segment) (video audio : List Media)
  | dropped (audio : List Media)

/-- What has arrived of a track. -/
def Passage.arrived (ofVideo : Bool) : Passage → List (Bool × Media)
  | .received ofVideo' samples => if ofVideo' = ofVideo then samples else []
  | .sent .. => []
  | .dropped _ => []

/-- What has left of it. -/
def Passage.left (ofVideo : Bool) : Passage → List Media
  | .received .. => []
  | .sent _ video audio => if ofVideo then video else audio
  | .dropped audio => if ofVideo then [] else audio

/-- A segment of the first fragments is cut off the queues, with their media. -/
inductive Sends (r : Reader) (allow : Bool) : Reader → Passage → Prop
  | sent {r₁ r' : Reader} {k a : ℕ} {segment : Segment} : r.Selects r₁ →
      r₁.buildSegment k a allow = .ok r' → r'.newSegment = some segment →
      Sends r allow r' (.sent segment ((r₁.video.take k).flatMap (Fragment.media r.sourcePayload))
        ((r₁.audio.take a).flatMap (Fragment.media r.sourcePayload)))

/-- The audio that is let go once the last of the video is sent. -/
def letGo (r r₂ : Reader) : List Fragment := if r.video ≠ [] ∧ r₂.video = [] then r₂.audio else []

/-- The steps of a reader with what passes in them. -/
inductive Passes : Reader → List Passage → Reader → Prop
  | received {r r' : Reader} {pending : Fragment} : r.AtEnd → r.currentBoxType = Kind.mdat →
      r.pending = some pending → r.completeMdat = .ok r' →
      Passes r [.received (pending.trackId = r.videoTrack.id)
        (pending.arrivals (r.sourcePayload.drop r.currentPayloadStart))] r'
  | cut {r r' : Reader} {sent : Passage} : r.tryBuildSegment = .ok (r', true) → r.Sends false r' sent →
      Passes r [sent] r'
  | ended {r r₂ r' : Reader} {sent : Passage} : r.tryBuildEndOfStreamRemainder = .ok (r', true) →
      r.Sends true r₂ sent → r' = (if r.letGo r₂ = [] then r₂ else { r₂ with audio := [] }) →
      Passes r [sent, .dropped ((r.letGo r₂).flatMap (Fragment.media r₂.sourcePayload))] r'
  | quiet {r r' : Reader} {told : List Event} : Step r told r' →
      (∀ segment, .cut segment ∉ told ∧ .ended segment ∉ told) → (r.pending ≠ none → r'.pending ≠ none) →
      Passes r [] r'

theorem Passes.step {log : List Passage} (h : Passes r log r') : ∃ told, Step r told r' := by
  cases h with
  | received hend hkind hpending hmdat => exact ⟨[], .mdat hend hkind hmdat⟩
  | cut hbuild hsends =>
    cases hsends with
    | sent hselects hcut hnew => exact ⟨_, .build hbuild hnew⟩
  | @ended r₂ _ _ hbuild hsends heq =>
    cases hsends with
    | @sent r₁ _ k a segment hselects hcut hnew =>
      have hnew' : r'.newSegment = some segment := by
        rw [heq]
        split <;> exact hnew
      exact ⟨_, .remainder hbuild hnew'⟩
  | quiet hstep => exact ⟨_, hstep⟩

theorem pending_begins (h : r.begins r') : r'.pending = r.pending := by
  rcases h with ⟨-, -, rfl⟩ | ⟨-, -, _, rfl⟩ | ⟨-, -, _, _, _, _, _, -, rfl⟩ <;> rfl

theorem pending_beginBox {size headerSize : ℕ} (h : r.beginBox size headerSize = .ok r') :
    r'.pending = r.pending := by
  obtain ⟨-, ⟨-, -, -, rfl⟩ | ⟨-, video, audio, newInit, hbegins⟩ | ⟨-, hbegins⟩⟩ := beginBox_cases h
  · rfl
  · rw [pending_begins hbegins]
  · rw [pending_begins hbegins]

theorem newSegment_of_build {k a : ℕ} {allow : Bool} (h : r.buildSegment k a allow = .ok r') :
    ∃ segment, r'.newSegment = some segment :=
  Option.ne_none_iff_exists'.mp (buildSegment_sameBox h).2

/-- A segment that is built is sent. -/
theorem passes_build (h : r.tryBuildSegment = .ok (r', true)) :
    ∃ segment video audio, r'.newSegment = some segment ∧ Passes r [.sent segment video audio] r' := by
  rcases tryBuildSegment_cases h with ⟨hb, -⟩ | ⟨k, -, -, ⟨-, hcut, -⟩ | ⟨r₁, a, -, hselect, hcase⟩⟩
  · cases hb
  · obtain ⟨segment, hnew⟩ := newSegment_of_build hcut
    exact ⟨segment, _, _, hnew, .cut h (.sent (Or.inl rfl) hcut hnew)⟩
  · rcases hcase with ⟨-, -, hb⟩ | ⟨-, hcut, -⟩
    · cases hb
    · obtain ⟨segment, hnew⟩ := newSegment_of_build hcut
      exact ⟨segment, _, _, hnew, .cut h (.sent (Or.inr ⟨_, _, hselect⟩) hcut hnew)⟩

/-- So is the last one, and the audio after it is let go. -/
theorem passes_remainder (h : r.tryBuildEndOfStreamRemainder = .ok (r', true)) :
    ∃ segment video audio rest, r'.newSegment = some segment ∧
      Passes r [.sent segment video audio, .dropped rest] r' := by
  obtain ⟨r₁, r₂, a, -, hselect, hlast, heq⟩ := remainder_cases h
  have hselects : r.Selects r₁ := by
    rcases hselect with ⟨-, -, selected, hselect, -⟩ | ⟨-, rfl, -⟩
    · exact Or.inr ⟨_, _, hselect⟩
    · exact Or.inl rfl
  obtain ⟨segment, hnew⟩ := newSegment_of_build hlast
  have heq' : r' = if r.letGo r₂ = [] then r₂ else { r₂ with audio := [] } := by
    rw [heq]
    unfold letGo
    by_cases hvideo : r.video ≠ [] ∧ r₂.video = []
    · rw [if_pos hvideo]
      by_cases haudio : r₂.audio = []
      · rw [if_pos haudio, if_neg fun hbad => hbad.2.2 haudio]
      · rw [if_neg haudio, if_pos ⟨hvideo.1, hvideo.2, haudio⟩]
    · rw [if_neg hvideo, if_pos rfl, if_neg fun hbad => hvideo ⟨hbad.1, hbad.2.1⟩]
  refine ⟨segment, _, _, _, ?_, .ended h (.sent hselects hlast hnew) heq'⟩
  rw [heq']
  split <;> exact hnew

/-- Every step has something to pass, or nothing. -/
theorem Step.passes {told : List Event} (h : Step r told r') : ∃ log, Passes r log r' := by
  have hnone : ∀ segment : Segment, Event.cut segment ∉ ([] : List Event) ∧ Event.ended segment ∉ ([] : List Event) :=
    fun segment => ⟨List.not_mem_nil, List.not_mem_nil⟩
  cases h with
  | header hne hlt => exact ⟨[], .quiet (.header hne hlt) hnone id⟩
  | opened hne hfull hopen =>
    refine ⟨[], .quiet (.opened hne hfull hopen) hnone ?_⟩
    have hpending : r'.pending = r.pending := by
      rcases openBox_cases hopen with ⟨-, kind, rfl⟩ | ⟨kind, size, headerSize, hbegin⟩
      · rfl
      · rw [pending_beginBox hbegin]
    rw [hpending]
    exact id
  | body hout hne hle =>
    refine ⟨[], .quiet (.body hout hne hle) hnone ?_⟩
    unfold writeCurrentBoxData
    split <;> exact id
  | closed hend hmoof hmdat hclose =>
    refine ⟨[], .quiet (.closed hend hmoof hmdat hclose) hnone ?_⟩
    obtain ⟨_, _, _, _, _, rfl⟩ := hclose
    exact id
  | moof hend hkind hparse hmoof =>
    refine ⟨[], .quiet (.moof hend hkind hparse hmoof) ?_ ?_⟩
    · intro segment
      constructor <;>
      · intro hmem
        cases List.mem_singleton.mp hmem
    · obtain ⟨fragment, _, _, _, _, _, _, -, -, rfl⟩ := completeMoof_cases hmoof
      exact fun _ => Option.some_ne_none _
  | mdat hend hkind hmdat =>
    obtain ⟨pending, fragment, hpending, -, -⟩ := completeMdat_cases hmdat
    exact ⟨_, .received hend hkind hpending hmdat⟩
  | reset hend hkind hpending =>
    exact ⟨[], .quiet (.reset hend hkind hpending) hnone fun hne => absurd hpending hne⟩
  | build hbuild hnew =>
    obtain ⟨segment, video, audio, -, hpasses⟩ := passes_build hbuild
    exact ⟨_, hpasses⟩
  | remainder hbuild hnew =>
    obtain ⟨segment, video, audio, rest, -, hpasses⟩ := passes_remainder hbuild
    exact ⟨_, hpasses⟩
  | defer => exact ⟨[], .quiet .defer hnone id⟩
  | taken => exact ⟨[], .quiet .taken hnone id⟩
  | targeted htarget =>
    refine ⟨[], .quiet (.targeted htarget) hnone ?_⟩
    unfold setTargetSegment at htarget
    split at htarget
    · cases htarget
      exact id
    · obtain ⟨u, -, htarget⟩ := bind_eq_ok.mp htarget
      cases htarget
      exact id
  | moved => exact ⟨[], .quiet .moved (fun segment => by simp) id⟩

/-! ### Nothing is lost -/

/-- What a queue held, what has arrived and what has left it, in a step or a run. -/
def Balances (r : Reader) (log : List Passage) (r' : Reader) : Prop :=
  Passed r.sourcePayload r.video (log.flatMap (Passage.arrived true)) (log.flatMap (Passage.left true))
      r'.sourcePayload r'.video ∧
    Passed r.sourcePayload r.audio (log.flatMap (Passage.arrived false)) (log.flatMap (Passage.left false))
      r'.sourcePayload r'.audio

theorem Balances.refl (r : Reader) : r.Balances [] r := ⟨Passed.refl _ _, Passed.refl _ _⟩

theorem Balances.trans {r'' : Reader} {log log' : List Passage} (h : r.Balances log r')
    (h' : r'.Balances log' r'') : r.Balances (log ++ log') r'' := by
  unfold Balances
  simp only [List.flatMap_append]
  exact ⟨h.1.trans h'.1, h.2.trans h'.2⟩

/-- Queues that stay as they are, with their payload. -/
theorem balances_same (hvideo : r'.video = r.video) (haudio : r'.audio = r.audio)
    (hpayload : r'.sourcePayload = r.sourcePayload) : r.Balances [] r' := by
  unfold Balances
  rw [hvideo, haudio, hpayload]
  exact Balances.refl r

theorem Sends.balances {allow : Bool} {sent : Passage} (h : r.Sends allow r' sent) (harranged : r.Arranged)
    (hqueued : r.Queued) : r.Balances [sent] r' := by
  cases h with
  | @sent r₁ _ k a segment hselects hcut hnew =>
    obtain ⟨hvideo, haudio, -⟩ := passed_buildSegment (hselects.arranged harranged) (hselects.queued hqueued) hcut
    obtain ⟨audio, rfl, -, -, hheld⟩ := hselects.cases harranged
    have hfirst := (Passed.of_held hheld).trans haudio
    unfold Balances
    simp only [List.flatMap_singleton]
    exact ⟨hvideo, hfirst⟩

theorem balances_moof (harranged : r.Arranged) (h : r.completeMoof = .ok r') : r.Balances [] r' := by
  obtain ⟨fragment, video, audio, vd, vt, ad, t, -, hresolve, rfl⟩ := completeMoof_cases h
  rcases hresolve with ⟨-, rfl, hint, hvideo⟩ | ⟨-, -, rfl, hint, haudio⟩ | ⟨-, -, rfl, rfl⟩
  · exact ⟨Passed.of_held (held_resolveQueue harranged.video hvideo _).1, Passed.refl _ _⟩
  · exact ⟨Passed.refl _ _, Passed.of_held (held_resolveQueue harranged.audio haudio _).1⟩
  · exact Balances.refl r

theorem balances_begins (h : r.begins r') : r.Balances [] r' := by
  rcases h with ⟨-, -, rfl⟩ | ⟨-, -, _, rfl⟩ | ⟨-, -, _, _, _, _, _, -, rfl⟩ <;> exact Balances.refl r

theorem balances_beginBox {size headerSize : ℕ} (h : r.beginBox size headerSize = .ok r') :
    r.Balances [] r' := by
  obtain ⟨-, ⟨-, -, -, rfl⟩ | ⟨-, video, audio, newInit, hbegins⟩ | ⟨-, hbegins⟩⟩ := beginBox_cases h
  · exact Balances.refl r
  · obtain ⟨hvideo, haudio⟩ := balances_begins hbegins
    exact ⟨hvideo, haudio⟩
  · obtain ⟨hvideo, haudio⟩ := balances_begins hbegins
    exact ⟨hvideo, haudio⟩

theorem balances_quiet {told : List Event} (hstep : Step r told r')
    (htold : ∀ segment, .cut segment ∉ told ∧ .ended segment ∉ told)
    (hpending : r.pending ≠ none → r'.pending ≠ none) (harranged : r.Arranged) (hstored : r.Stored) :
    r.Balances [] r' := by
  cases hstep with
  | header => exact Balances.refl r
  | opened hne hfull hopen =>
    rcases openBox_cases hopen with ⟨-, kind, rfl⟩ | ⟨kind, size, headerSize, hbegin⟩
    · exact Balances.refl r
    · obtain ⟨hvideo, haudio⟩ := balances_beginBox hbegin
      exact ⟨hvideo, haudio⟩
  | body =>
    unfold writeCurrentBoxData
    split
    · exact Balances.refl r
    · exact Balances.refl r
    · exact ⟨Passed.of_eq (held_grows hstored.video), Passed.of_eq (held_grows hstored.audio)⟩
    · exact Balances.refl r
    · exact Balances.refl r
    · exact Balances.refl r
  | closed hend hmoof hmdat hclose =>
    obtain ⟨_, _, _, _, _, rfl⟩ := hclose
    exact Balances.refl r
  | moof hend hkind hparse hmoof =>
    obtain ⟨hvideo, haudio⟩ := balances_moof harranged hmoof
    exact ⟨hvideo, haudio⟩
  | mdat hend hkind hmdat =>
    obtain ⟨pending, fragment, hsome, -, ⟨-, rfl⟩ | ⟨-, -, rfl⟩⟩ := completeMdat_cases hmdat
    · exact absurd rfl (hpending (hsome ▸ Option.some_ne_none pending))
    · exact absurd rfl (hpending (hsome ▸ Option.some_ne_none pending))
  | reset => exact Balances.refl r
  | build => exact absurd (List.mem_singleton_self _) (htold _).1
  | remainder => exact absurd (List.mem_singleton_self _) (htold _).2
  | defer => exact Balances.refl r
  | taken => exact Balances.refl r
  | targeted htarget =>
    unfold setTargetSegment at htarget
    split at htarget
    · cases htarget
      exact Balances.refl r
    · obtain ⟨u, -, htarget⟩ := bind_eq_ok.mp htarget
      cases htarget
      exact Balances.refl r
  | moved => exact Balances.refl r

theorem balances_received {pending : Fragment} (hpending : r.pending = some pending)
    (hmdat : r.completeMdat = .ok r') :
    r.Balances [.received (pending.trackId = r.videoTrack.id)
      (pending.arrivals (r.sourcePayload.drop r.currentPayloadStart))] r' := by
  obtain ⟨pending', f, hpending', hattach, hcase⟩ := completeMdat_cases hmdat
  rw [hpending, Option.some.injEq] at hpending'
  subst hpending'
  obtain ⟨-, -, -, runs, hf⟩ := attachPayload_ok hattach
  have htrack : f.trackId = pending.trackId := by rw [hf]
  have hpayload : f.payload r.sourcePayload = r.sourcePayload.drop r.currentPayloadStart := by
    rw [hf]
    unfold Fragment.payload
    rw [List.take_of_length_le]
    rw [List.length_drop]
  have hsamples : f.arrivals (f.payload r.sourcePayload) =
      pending.arrivals (r.sourcePayload.drop r.currentPayloadStart) := by
    rw [hpayload, arrivals_attachPayload _ hattach]
  unfold Balances
  simp only [List.flatMap_singleton, Passage.arrived, Passage.left, ← hsamples]
  rcases hcase with ⟨hvideo, rfl⟩ | ⟨hvideo, -, rfl⟩
  · rw [decide_eq_true (htrack.symm.trans hvideo), if_pos rfl, if_neg (Ne.symm Bool.false_ne_true)]
    exact ⟨Passed.queued _ _ f, Passed.refl _ _⟩
  · rw [decide_eq_false (fun heq => hvideo (htrack.trans heq)), if_pos rfl, if_neg Bool.false_ne_true]
    exact ⟨Passed.refl _ _, Passed.queued _ _ f⟩

theorem Passes.balances {log : List Passage} (h : Passes r log r') (harranged : r.Arranged)
    (hqueued : r.Queued) (hstored : r.Stored) : r.Balances log r' := by
  cases h with
  | received hend hkind hpending hmdat => exact balances_received hpending hmdat
  | cut hbuild hsends => exact hsends.balances harranged hqueued
  | @ended r₂ _ sent hbuild hsends heq =>
    have hsent := hsends.balances harranged hqueued
    have hlaid : r₂.Arranged := by
      cases hsends with
      | sent hselects hcut hnew =>
        exact (passed_buildSegment (hselects.arranged harranged) (hselects.queued hqueued) hcut).2.2
    have hdropped : r₂.Balances [.dropped ((r.letGo r₂).flatMap (Fragment.media r₂.sourcePayload))] r' := by
      unfold Balances
      simp only [List.flatMap_singleton, Passage.arrived, Passage.left, if_true, Bool.false_eq_true, if_false]
      by_cases hnone : r.letGo r₂ = []
      · rw [if_pos hnone] at heq
        rw [heq, hnone]
        exact ⟨Passed.refl _ _, Passed.refl _ _⟩
      · have haudio : r.letGo r₂ = r₂.audio := by
          unfold letGo at hnone ⊢
          by_cases hvideo : r.video ≠ [] ∧ r₂.video = []
          · rw [if_pos hvideo]
          · exact absurd (if_neg hvideo) hnone
        rw [if_neg hnone] at heq
        have htaken := Passed.take hlaid.audio r₂.sourcePayload r₂.audio.length
        rw [List.take_length, List.drop_length] at htaken
        rw [heq, haudio]
        exact ⟨Passed.refl _ _, htaken⟩
    exact hsent.trans hdropped
  | quiet hstep htold hpending => exact balances_quiet hstep htold hpending harranged hstored

theorem carries_of_passed {arrived : List (Bool × Media)} {left : List Media} {source : List UInt8}
    {queue : List Fragment} (hlaid : ∀ f ∈ queue, f.Laid) (h : Passed [] [] arrived left source queue) :
    List.Forall₂ Carries arrived (left ++ queue.flatMap (Fragment.media source)) := by
  have hcarries : List.Forall₂ (fun x y => Carries x y.2) arrived
      (left.map (fun m => (false, m)) ++ held source queue) :=
    List.Forall₂.imp (fun x y hbecomes => hbecomes.carries) h
  rw [← List.forall₂_map_right_iff, List.map_append, map_held hlaid, List.map_map] at hcarries
  rwa [show (Prod.snd ∘ fun m : Media => (false, m)) = id from rfl, List.map_id] at hcarries

theorem leads_iff_passes {r₀ r : Reader} : r₀.Leads r ↔ ∃ log, Trace.Run Passes r₀ log r := by
  constructor
  · rintro ⟨told, hrun⟩
    induction hrun with
    | refl => exact ⟨[], .refl r₀⟩
    | snoc _ hstep ih =>
      obtain ⟨log, hlog⟩ := ih
      obtain ⟨passed, hpassed⟩ := hstep.passes
      exact ⟨log ++ passed, hlog.snoc hpassed⟩
  · rintro ⟨log, hrun⟩
    induction hrun with
    | refl => exact Leads.refl r₀
    | snoc _ hstep ih =>
      obtain ⟨told, htold⟩ := hstep.step
      exact ih.trans htold.leads

/-- In every run from a reader that has read nothing: of each track, the samples of the `mdat`s in order
are those of the segments and of the audio that was let go, and those that are queued, each with its
bytes and, unless the source left it out, its duration. Every run of a reader is such a run. -/
theorem nothing_lost {r₀ : Reader} (hblank : r₀.Blank) :
    (∀ log r, Trace.Run Passes r₀ log r →
      List.Forall₂ Carries (log.flatMap (Passage.arrived true))
          (log.flatMap (Passage.left true) ++ r.video.flatMap (Fragment.media r.sourcePayload)) ∧
        List.Forall₂ Carries (log.flatMap (Passage.arrived false))
          (log.flatMap (Passage.left false) ++ r.audio.flatMap (Fragment.media r.sourcePayload))) ∧
      ∀ r, r₀.Leads r ↔ ∃ log, Trace.Run Passes r₀ log r := by
  refine ⟨fun log r hrun => ?_, fun r => leads_iff_passes⟩
  have hall := hrun.keeps_log
    (P := fun log r => (((r.Framed ∧ r.Queued) ∧ r.Stored) ∧ r.Arranged) ∧ r₀.Balances log r)
    (fun log s told t hstep h => by
      obtain ⟨⟨⟨⟨hframed, hqueued⟩, hstored⟩, harranged⟩, hbalances⟩ := h
      obtain ⟨events, hevents⟩ := hstep.step
      exact ⟨⟨⟨⟨hframed.step hevents, hqueued.step hevents hframed⟩, hstored.step hevents hqueued⟩,
        harranged.step hevents hqueued⟩, hbalances.trans (hstep.balances harranged hqueued hstored)⟩)
    ⟨⟨⟨⟨hblank.framed, hblank.queued⟩, hblank.stored⟩, hblank.arranged⟩, Balances.refl r₀⟩
  obtain ⟨⟨-, harranged⟩, hvideo, haudio⟩ := hall
  rw [hblank.video, hblank.sourcePayload] at hvideo
  rw [hblank.audio, hblank.sourcePayload] at haudio
  exact ⟨carries_of_passed harranged.video hvideo, carries_of_passed harranged.audio haudio⟩

/-- One second of video and two of audio, up to the last segment. -/
theorem nothing_lost_trailing :
    ∃ r₁ r₂ : Reader, r₁.tryBuildEndOfStreamRemainder = .ok (r₂, true) ∧ r₂.video = [] ∧ r₂.audio = [] ∧
      ∃ log, Trace.Run Passes (new (.finite 1) 0 false) log r₂ ∧
        List.Forall₂ Carries (log.flatMap (Passage.arrived false))
          (log.flatMap (Passage.left false) ++ r₂.audio.flatMap (Fragment.media r₂.sourcePayload)) := by
  have hrun : ((new (.finite 1) 0 false).push trailingStream >>= fun r =>
      r.tryBuildEndOfStreamRemainder >>= fun last => .ok (last.2, last.1.video, last.1.audio)) =
        (.ok (true, [], []) : Except ReaderError (Bool × List Fragment × List Fragment)) := by
    decide +kernel
  obtain ⟨r₁, hpush, hrun⟩ := bind_eq_ok.mp hrun
  obtain ⟨⟨r₂, built⟩, hlast, hrun⟩ := bind_eq_ok.mp hrun
  simp only [Except.ok.injEq, Prod.mk.injEq] at hrun
  obtain ⟨rfl, hvideo, haudio⟩ := hrun
  have hlost := nothing_lost (blank_new (.finite 1) 0 false)
  obtain ⟨log, hlog⟩ := (hlost.2 r₂).mp ((leads_push hpush).trans (leads_remainder hlast))
  exact ⟨r₁, r₂, hlast, hvideo, haudio, log, hlog, (hlost.1 log r₂ hlog).2⟩

end Reader

end Rustorr.Mp4
