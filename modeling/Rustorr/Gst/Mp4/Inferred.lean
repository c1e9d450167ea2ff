import Mathlib.Data.List.Chain
import Rustorr.Gst.Mp4.EndOfStream

/-! Durations that a `moof` does not tell: they are taken from a hint until the next `moof` of
the track settles them. -/

namespace Rustorr.Mp4

open BigEndian Except

/-! ### Fragments in a row -/

/-- Each fragment begins where the one before it ends. -/
def InARow (queue : List Fragment) : Prop :=
  queue.IsChain fun previous next => previous.endTime = next.decodeTime

/-- Each fragment is told to begin where the one before it ends, if that is told. -/
def ToldInARow (told : List Fragment) : Prop :=
  told.IsChain fun previous next =>
    previous.hasInferredDuration = false → previous.endTime = next.decodeTime

theorem inARow_cons_iff {f : Fragment} {rest : List Fragment} :
    InARow (f :: rest) ↔ (∀ next ∈ rest.head?, f.endTime = next.decodeTime) ∧ InARow rest :=
  List.isChain_cons

theorem inARow_append_iff {queue more : List Fragment} :
    InARow (queue ++ more) ↔ InARow queue ∧ InARow more ∧
      ∀ last ∈ queue.getLast?, ∀ next ∈ more.head?, last.endTime = next.decodeTime :=
  List.isChain_append

theorem inARow_map {g : Fragment → Fragment} (htime : ∀ f, (g f).decodeTime = f.decodeTime)
    (hend : ∀ f, (g f).endTime = f.endTime) {queue : List Fragment} :
    InARow (queue.map g) ↔ InARow queue := by
  unfold InARow
  rw [List.isChain_map]
  simp only [htime, hend]

theorem InARow.drop {queue : List Fragment} (h : InARow queue) (k : ℕ) : InARow (queue.drop k) := by
  rw [← List.take_append_drop k queue] at h
  exact (inARow_append_iff.mp h).2.1

theorem InARow.take {queue : List Fragment} (h : InARow queue) (k : ℕ) : InARow (queue.take k) := by
  rw [← List.take_append_drop k queue] at h
  exact (inARow_append_iff.mp h).1

theorem follows_of_inARow {track : TrackIds} {index : UInt32} {first previous : Fragment}
    {rest : List Fragment} (h : InARow (previous :: rest)) (hfirst : first.Of track)
    (hindex : first.sampleDescriptionIndex = index)
    (hrest : ∀ f ∈ rest, f.Of track ∧ f.sampleDescriptionIndex = index) :
    follows first previous.endTime rest = true := by
  induction rest generalizing previous with
  | nil => rfl
  | cons current rest ih =>
    obtain ⟨hnext, htail⟩ := inARow_cons_iff.mp h
    obtain ⟨hof, hcurrent⟩ := hrest current List.mem_cons_self
    have htfhd : current.tfhd = first.tfhd := by
      rw [hof.tfhd, hfirst.tfhd, hof.trackId, hfirst.trackId, hcurrent, hindex]
    unfold follows
    rw [ih htail fun f hf => hrest f (List.mem_cons_of_mem _ hf)]
    rw [hof.trackId, hfirst.trackId, hof.timescale, hfirst.timescale, hcurrent, hindex, htfhd,
      hnext current rfl]
    simp

/-- Fragments in a row, with one sample description, can be merged. -/
theorem validateTrack_of_inARow {track : TrackIds} {index : UInt32} {queue : List Fragment}
    (h : InARow queue) (hne : queue ≠ [])
    (hqueue : ∀ f ∈ queue, f.Of track ∧ f.sampleDescriptionIndex = index) :
    validateTrack queue = .ok () := by
  obtain ⟨first, rest, rfl⟩ := List.exists_cons_of_ne_nil hne
  obtain ⟨hof, hindex⟩ := hqueue first List.mem_cons_self
  have hfollows := follows_of_inARow h hof hindex fun f hf => hqueue f (List.mem_cons_of_mem _ hf)
  exact failIf_of_not (by simp [hfollows]) _

namespace Reader

variable {r r' : Reader}

/-! ### What a selection keeps -/

/-- The first fragment that reaches the end of the video is cut in two, though its last duration
was only inferred. -/
def splitsInferred (r : Reader) (videoEnd : ℕ) : List Fragment → Prop
  | [] => False
  | fragment :: rest =>
    match r.findAudioSplitSampleCount fragment videoEnd with
    | .ok (count, true) => fragment.hasInferredDuration = true ∧ count < fragment.sampleCount
    | .ok (_, false) => splitsInferred r videoEnd rest
    | .error _ => False

theorem endTime_of_isSplit {fragment left right : Fragment} (h : IsSplit fragment left right) :
    left.endTime = right.decodeTime ∧ right.endTime = fragment.endTime := by
  obtain ⟨hright, hlt⟩ := h.rightTime
  have hduration := h.duration
  unfold Fragment.endTime
  rw [h.leftTime, hright, ← hduration]
  rw [hright] at hlt
  exact ⟨Nat.mod_eq_of_lt hlt, by rw [Nat.add_assoc]⟩

/-- A selection leaves the row as it is, and where it ends. -/
theorem inARow_selectAudioFrom {videoEnd k : ℕ} {queue audio : List Fragment}
    (h : r.selectAudioFrom videoEnd queue = .ok (audio, k)) (hrow : InARow queue) :
    InARow audio ∧ (audio.head?.map Fragment.decodeTime = queue.head?.map Fragment.decodeTime) ∧
      ∀ last ∈ audio.getLast?, ∃ last' ∈ queue.getLast?, last.endTime = last'.endTime ∧
        (¬r.splitsInferred videoEnd queue → last.hasInferredDuration = last'.hasInferredDuration) := by
  induction queue generalizing audio k with
  | nil =>
    unfold selectAudioFrom at h
    cases h
    exact ⟨hrow, rfl, fun last hlast => by cases hlast⟩
  | cons fragment rest ih =>
    obtain ⟨hnext, htail⟩ := inARow_cons_iff.mp hrow
    rcases selectAudioFrom_cases h with
      ⟨split, rest', k', hfind, hselect, rfl, -⟩ | ⟨split, total, hfind, htotal, -, -, -, hcase⟩
    · obtain ⟨hrow', hhead, hlast⟩ := ih hselect htail
      refine ⟨inARow_cons_iff.mpr ⟨fun next hmem => ?_, hrow'⟩, rfl, fun last hmem => ?_⟩
      · rw [hmem] at hhead
        obtain ⟨next', hnext', htime⟩ := Option.map_eq_some_iff.mp hhead.symm
        rw [hnext next' hnext', htime]
      · cases rest' with
        | nil =>
          have hrest : rest = [] := by
            cases rest with
            | nil => rfl
            | cons f rest => cases hhead
          subst hrest
          exact ⟨last, hmem, rfl, fun _ => rfl⟩
        | cons f rest' =>
          rw [List.getLast?_cons_cons] at hmem
          obtain ⟨last', hlast', hend, hmark⟩ := hlast last hmem
          refine ⟨last', ?_, hend, fun hspare => hmark ?_⟩
          · cases rest with
            | nil => cases hlast'
            | cons f rest => rwa [List.getLast?_cons_cons]
          · unfold splitsInferred at hspare
            rwa [hfind] at hspare
    · rcases hcase with ⟨-, rfl⟩ | ⟨left, right, hlt, hsplit, rfl⟩
      · exact ⟨hrow, rfl, fun last hmem => ⟨last, hmem, rfl, fun _ => rfl⟩⟩
      · have hparts := splitFragmentAtSample_ok hsplit
        obtain ⟨hleft, hright⟩ := endTime_of_isSplit hparts
        refine ⟨?_, ?_, fun last hmem => ?_⟩
        · refine inARow_cons_iff.mpr ⟨fun next hmem => ?_, inARow_cons_iff.mpr ⟨fun next hmem => ?_, htail⟩⟩
          · cases hmem
            exact hleft
          · rw [hright]
            exact hnext next hmem
        · show some left.decodeTime = some fragment.decodeTime
          rw [hparts.leftTime]
        · rw [List.getLast?_cons_cons] at hmem
          cases rest with
          | nil =>
            obtain rfl : right = last := Option.some.inj hmem
            refine ⟨fragment, rfl, hright, fun hspare => ?_⟩
            rw [hparts.explicit.2]
            unfold splitsInferred at hspare
            rw [hfind] at hspare
            rw [fragmentSampleCount_ok htotal, length_sampleEnds] at hlt
            rw [eq_comm, ← Bool.not_eq_true]
            exact fun hmark => hspare ⟨hmark, hlt⟩
          | cons f rest =>
            rw [List.getLast?_cons_cons] at hmem
            exact ⟨last, by rwa [List.getLast?_cons_cons], rfl, fun _ => rfl⟩

theorem inARow_rebase {queue : List Fragment} (start k : ℕ) (h : InARow queue) :
    InARow ((queue.drop k).map (rebase start)) ∧
      ∀ last ∈ ((queue.drop k).map (rebase start)).getLast?, ∃ last' ∈ queue.getLast?,
        last.endTime = last'.endTime ∧ last.hasInferredDuration = last'.hasInferredDuration := by
  have htime : ∀ f, (rebase start f).decodeTime = f.decodeTime := by
    intro f
    unfold rebase
    split <;> rfl
  have hend : ∀ f, (rebase start f).endTime = f.endTime := by
    intro f
    unfold rebase
    split <;> rfl
  have hmark : ∀ f, (rebase start f).hasInferredDuration = f.hasInferredDuration := by
    intro f
    unfold rebase
    split <;> rfl
  refine ⟨(inARow_map htime hend).mpr (h.drop k), fun last hlast => ?_⟩
  rw [List.getLast?_map] at hlast
  obtain ⟨f, hf, rfl⟩ := Option.map_eq_some_iff.mp hlast
  rw [List.getLast?_drop] at hf
  split at hf
  · cases hf
  · exact ⟨f, hf, hend f, hmark f⟩

/-! ### The queue of a track, and what the stream told of it -/

/-- The fragments of a track that the stream told, in order. -/
def toldOf (id : UInt32) (log : List Event) : List Fragment :=
  log.filterMap fun
    | .told fragment => if fragment.trackId = id then some fragment else none
    | _ => none

theorem toldOf_append (id : UInt32) (log told : List Event) :
    toldOf id (log ++ told) = toldOf id log ++ toldOf id told := List.filterMap_append

/-- The queue of a track is in a row, and goes on where the stream does: it ends where the
fragment begins that waits for its payload, or else as the last one told does. -/
structure GoesOn (id : UInt32) (queue : List Fragment) (pending : Option Fragment)
    (told : List Fragment) : Prop where
  row : InARow queue
  waits : ∀ f, pending = some f → f.trackId = id →
    (∀ last ∈ queue.getLast?, last.endTime = f.decodeTime) ∧
      ∃ p ∈ told.getLast?, f.endTime = p.endTime ∧ f.hasInferredDuration = p.hasInferredDuration
  last : (∀ f, pending = some f → f.trackId ≠ id) → ∀ last ∈ queue.getLast?,
    ∃ p ∈ told.getLast?, last.endTime = p.endTime ∧ last.hasInferredDuration = p.hasInferredDuration

variable {id : UInt32} {queue queue' told : List Fragment} {pending : Option Fragment}

theorem goesOn_nil (hpending : pending = none) : GoesOn id [] pending told := by
  refine ⟨List.isChain_nil, fun f hf => ?_, fun _ last hlast => (nomatch hlast)⟩
  rw [hpending] at hf
  cases hf

/-- What only changes before its end goes on all the same. -/
theorem GoesOn.shorten (h : GoesOn id queue pending told) (hrow : InARow queue')
    (hlast : ∀ last ∈ queue'.getLast?, ∃ last' ∈ queue.getLast?, last.endTime = last'.endTime ∧
      last.hasInferredDuration = last'.hasInferredDuration) : GoesOn id queue' pending told := by
  refine ⟨hrow, fun f hf hid => ⟨fun last hmem => ?_, (h.waits f hf hid).2⟩, fun hnone last hmem => ?_⟩
  · obtain ⟨last', hlast', hend, -⟩ := hlast last hmem
    rw [hend, (h.waits f hf hid).1 last' hlast']
  · obtain ⟨last', hlast', hend, hmark⟩ := hlast last hmem
    obtain ⟨p, hp, hend', hmark'⟩ := h.last hnone last' hlast'
    exact ⟨p, hp, hend.trans hend', hmark.trans hmark'⟩

/-- A `moof` of the track: what was inferred is settled, and the queue ends where it begins. -/
theorem GoesOn.tell {current : Fragment} {hint : Option UInt32} (h : GoesOn id queue none told)
    (hid : current.trackId = id) (htime : current.decodeTime < 2 ^ 64)
    (htold : ToldInARow (told ++ [current]))
    (hresolve : resolveQueue queue current = .ok (queue', hint)) :
    GoesOn id queue' (some { current with payloadStart := 0 }) (told ++ [current]) := by
  have hends : ∀ last ∈ queue'.getLast?, last.endTime = current.decodeTime := by
    intro last hmem
    rcases resolveQueue_cases hresolve with
      ⟨rfl, hexplicit⟩ | ⟨before, previous, settled, duration, rfl, -, hsettled, rfl⟩
    · obtain ⟨p, hp, hend, hmark⟩ := h.last (fun f hf => nomatch hf) last hmem
      rw [hend]
      refine (List.isChain_append.mp htold).2.2 p hp current rfl ?_
      rw [← hmark]
      exact hexplicit last hmem
    · rw [List.getLast?_concat] at hmem
      cases hmem
      exact (resolveInferredDuration_ok hsettled).2.2.2 htime
  refine ⟨?_, fun f hf _ => ?_, fun hnone => ?_⟩
  · rcases resolveQueue_cases hresolve with
      ⟨rfl, -⟩ | ⟨before, previous, settled, duration, rfl, -, hsettled, rfl⟩
    · exact h.row
    · obtain ⟨-, -, ⟨runs, d, rfl⟩, -⟩ := resolveInferredDuration_ok hsettled
      obtain ⟨hbefore, -, hjoin⟩ := inARow_append_iff.mp h.row
      exact inARow_append_iff.mpr ⟨hbefore, List.isChain_singleton _, fun last hlast next hnext => by
        cases hnext
        exact hjoin last hlast previous rfl⟩
  · cases hf
    refine ⟨hends, current, ?_, rfl, rfl⟩
    rw [List.getLast?_concat]
    rfl
  · exact absurd hid (hnone { current with payloadStart := 0 } rfl)

/-- A `moof` of another track changes nothing of this one. -/
theorem GoesOn.tellOther {current : Fragment} (h : GoesOn id queue none told)
    (hid : current.trackId ≠ id) :
    GoesOn id queue (some { current with payloadStart := 0 }) told := by
  refine ⟨h.row, fun f hf heq => ?_, fun _ => h.last fun f hf => nomatch hf⟩
  cases hf
  exact absurd heq hid

/-- The payload of the fragment that waits has come. -/
theorem GoesOn.attach {waiting fragment : Fragment} (h : GoesOn id queue (some waiting) told)
    (hid : waiting.trackId = id) (htime : fragment.decodeTime = waiting.decodeTime)
    (hend : fragment.endTime = waiting.endTime)
    (hmark : fragment.hasInferredDuration = waiting.hasInferredDuration) :
    GoesOn id (queue ++ [fragment]) none told := by
  obtain ⟨hlast, p, hp, hend', hmark'⟩ := h.waits waiting rfl hid
  refine ⟨?_, fun f hf => (nomatch hf), fun _ last hmem => ?_⟩
  · refine inARow_append_iff.mpr ⟨h.row, List.isChain_singleton _, fun last hmem next hnext => ?_⟩
    cases hnext
    rw [hlast last hmem, htime]
  · rw [List.getLast?_concat] at hmem
    cases hmem
    exact ⟨p, hp, hend.trans hend', hmark.trans hmark'⟩

theorem GoesOn.attachOther {waiting : Fragment} (h : GoesOn id queue (some waiting) told)
    (hid : waiting.trackId ≠ id) : GoesOn id queue none told := by
  refine ⟨h.row, fun f hf => (nomatch hf), fun _ => h.last fun f hf => ?_⟩
  cases hf
  exact hid

/-! ### Runs that spare what was inferred -/

/-- The step that tells something does not split a fragment whose last duration is inferred. -/
def Spares (r : Reader) : Event → Prop
  | .cut _ => ∀ k, r.selectVideoCount = .ok k → k ≠ 0 →
      ¬r.splitsInferred (((r.video[k - 1]?).map Fragment.endTime).getD 0) r.audio
  | .ended _ => ¬r.splitsInferred ((r.video.getLast?.map Fragment.endTime).getD 0) r.audio
  | _ => True

/-- A step that splits no fragment whose last duration is inferred. -/
def CarefulStep (r : Reader) (told : List Event) (r' : Reader) : Prop :=
  Step r told r' ∧ ∀ e ∈ told, r.Spares e

/-- Both queues go on where the stream does, as far as it is told in a row. -/
structure Kept (id : UInt32) (log : List Event) (r : Reader) : Prop where
  video : r.videoTrack.id = id → GoesOn id r.video r.pending (toldOf id log)
  audio : r.audioTrack.id = id → r.videoTrack.id ≠ id → GoesOn id r.audio r.pending (toldOf id log)

/-- Steps that leave the queues alone, and the tracks unless nothing has been read yet. -/
theorem Kept.same {log : List Event} (h : Kept id log r) (hqueued : r.Queued)
    (hvideo : r'.video = r.video) (haudio : r'.audio = r.audio) (hpending : r'.pending = r.pending)
    (htracks : r.initDone = true → r'.videoTrack = r.videoTrack ∧ r'.audioTrack = r.audioTrack) :
    Kept id log r' := by
  cases hdone : r.initDone with
  | false =>
    obtain ⟨hnoVideo, hnoAudio, hnone⟩ := hqueued.fresh hdone
    refine ⟨fun _ => ?_, fun _ _ => ?_⟩
    · rw [hvideo, hnoVideo]
      exact goesOn_nil (hpending.trans hnone)
    · rw [haudio, hnoAudio]
      exact goesOn_nil (hpending.trans hnone)
  | true =>
    obtain ⟨hv, ha⟩ := htracks hdone
    refine ⟨fun hid => ?_, fun hid hne => ?_⟩
    · rw [hvideo, hpending]
      exact h.video (hv ▸ hid)
    · rw [haudio, hpending]
      exact h.audio (ha ▸ hid) (hv ▸ hne)

theorem Kept.selectAudioCount {log : List Event} {videoEnd k : ℕ} (h : Kept id log r)
    (hspare : ¬r.splitsInferred videoEnd r.audio)
    (hselect : r.selectAudioCount videoEnd = .ok (r', k)) : Kept id log r' := by
  obtain ⟨audio, haudio, rfl⟩ := selectAudioCount_cases hselect
  refine ⟨h.video, fun hid hne => ?_⟩
  have hgoes := h.audio hid hne
  obtain ⟨hrow, -, hlast⟩ := inARow_selectAudioFrom haudio hgoes.row
  refine hgoes.shorten hrow fun last hmem => ?_
  obtain ⟨last', hlast', hend, hmark⟩ := hlast last hmem
  exact ⟨last', hlast', hend, hmark hspare⟩

theorem Kept.buildSegment {log : List Event} {videoCount audioCount : ℕ} {allow : Bool}
    (h : Kept id log r) (hbuild : r.buildSegment videoCount audioCount allow = .ok r') :
    Kept id log r' := by
  obtain ⟨segment, -, -, -, -, rfl⟩ := buildSegment_cases hbuild
  obtain ⟨start, sourcePayload, currentPayloadStart, hreclaim, -⟩ :=
    reclaimPayloads_cases (r.cutOff videoCount audioCount segment).resetPrefix
  rw [hreclaim]
  refine ⟨fun hid => ?_, fun hid hne => ?_⟩
  · have hgoes := h.video hid
    obtain ⟨hrow, hlast⟩ := inARow_rebase start videoCount hgoes.row
    exact hgoes.shorten hrow hlast
  · have hgoes := h.audio hid hne
    obtain ⟨hrow, hlast⟩ := inARow_rebase start audioCount hgoes.row
    exact hgoes.shorten hrow hlast

theorem Kept.log {log : List Event} {e : Event} (h : Kept id log r)
    (he : ∀ fragment, e ≠ .told fragment) : Kept id (log ++ [e]) r := by
  have htold : toldOf id (log ++ [e]) = toldOf id log := by
    rw [toldOf_append]
    cases e with
    | told fragment => exact absurd rfl (he fragment)
    | cut segment => exact List.append_nil _
    | ended segment => exact List.append_nil _
    | moved => exact List.append_nil _
  exact ⟨fun hid => htold ▸ h.video hid, fun hid hne => htold ▸ h.audio hid hne⟩

theorem toldOf_told_self {log : List Event} {fragment : Fragment} (hid : fragment.trackId = id) :
    toldOf id (log ++ [.told fragment]) = toldOf id log ++ [fragment] := by
  rw [toldOf_append]
  unfold toldOf
  simp [hid]

theorem toldOf_told_other {log : List Event} {fragment : Fragment} (hid : fragment.trackId ≠ id) :
    toldOf id (log ++ [.told fragment]) = toldOf id log := by
  rw [toldOf_append]
  unfold toldOf
  simp [hid]

theorem Kept.moof {log : List Event} {fragment : Fragment} (h : Kept id log r)
    (hpending : r.pending = none) (htold : ToldInARow (toldOf id (log ++ [.told fragment])))
    (hparse : r.sourceFragment = .ok fragment) (hmoof : r.completeMoof = .ok r') :
    Kept id (log ++ [.told fragment]) r'.resetBoxState := by
  obtain ⟨fragment', video, audio, vd, vt, ad, t, hparse', hresolve, rfl⟩ := completeMoof_cases hmoof
  obtain rfl : fragment = fragment' := Except.ok.inj (hparse.symm.trans hparse')
  have hparsed := parseSourceMoof_ok hparse
  refine ⟨fun hid => ?_, fun hid hne => ?_⟩
  · have hgoes := h.video hid
    rw [hpending] at hgoes
    show GoesOn id video (some { fragment with payloadStart := 0 }) _
    rcases hresolve with ⟨htrack, -, hint, hvideo⟩ | ⟨htrack, -, rfl, -⟩ | ⟨htrack, -, rfl, -⟩
    · rw [toldOf_told_self (htrack.trans hid)] at htold ⊢
      exact hgoes.tell (htrack.trans hid) hparsed.decodeTime htold hvideo
    · have hother : fragment.trackId ≠ id := fun heq => htrack (heq.trans hid.symm)
      rw [toldOf_told_other hother]
      exact hgoes.tellOther hother
    · have hother : fragment.trackId ≠ id := fun heq => htrack (heq.trans hid.symm)
      rw [toldOf_told_other hother]
      exact hgoes.tellOther hother
  · have hgoes := h.audio hid hne
    rw [hpending] at hgoes
    show GoesOn id audio (some { fragment with payloadStart := 0 }) _
    rcases hresolve with ⟨htrack, rfl, -⟩ | ⟨-, htrack, -, hint, haudio⟩ | ⟨-, htrack, -, rfl⟩
    · have hother : fragment.trackId ≠ id := fun heq => hne (htrack.symm.trans heq)
      rw [toldOf_told_other hother]
      exact hgoes.tellOther hother
    · rw [toldOf_told_self (htrack.trans hid)] at htold ⊢
      exact hgoes.tell (htrack.trans hid) hparsed.decodeTime htold haudio
    · have hother : fragment.trackId ≠ id := fun heq => htrack (heq.trans hid.symm)
      rw [toldOf_told_other hother]
      exact hgoes.tellOther hother

theorem Kept.mdat {log : List Event} (h : Kept id log r) (hmdat : r.completeMdat = .ok r') :
    Kept id log r' := by
  obtain ⟨waiting, fragment, hpending, hattach, hcase⟩ := completeMdat_cases hmdat
  obtain ⟨-, -, -, runs, rfl⟩ := attachPayload_ok hattach
  rcases hcase with ⟨htrack, rfl⟩ | ⟨hne, htrack, rfl⟩
  · refine ⟨fun hid => ?_, fun hid hother => ?_⟩
    · have hgoes := h.video hid
      rw [hpending] at hgoes
      exact hgoes.attach (htrack.trans hid) rfl rfl rfl
    · have hgoes := h.audio hid hother
      rw [hpending] at hgoes
      exact hgoes.attachOther fun heq => hother (htrack.symm.trans heq)
  · refine ⟨fun hid => ?_, fun hid _ => ?_⟩
    · have hgoes := h.video hid
      rw [hpending] at hgoes
      exact hgoes.attachOther fun heq => hne (heq.trans hid.symm)
    · have hgoes := h.audio hid ‹_›
      rw [hpending] at hgoes
      exact hgoes.attach (htrack.trans hid) rfl rfl rfl

theorem tracks_of_begins {r₀ : Reader} (h : r₀.begins r') :
    r'.video = r₀.video ∧ r'.audio = r₀.audio ∧ r'.pending = r₀.pending ∧
      r'.videoTrack = r₀.videoTrack ∧ r'.audioTrack = r₀.audioTrack := by
  rcases h with ⟨-, -, rfl⟩ | ⟨-, -, _, rfl⟩ | ⟨-, -, _, _, _, _, _, -, rfl⟩ <;>
    exact ⟨rfl, rfl, rfl, rfl, rfl⟩

theorem Kept.opened {log : List Event} {bytes : List UInt8} (h : Kept id log r) (hqueued : r.Queued)
    (hopen : openBox { r with boxHeader := r.boxHeader ++ bytes } = .ok r') : Kept id log r' := by
  rcases openBox_cases hopen with ⟨-, kind, rfl⟩ | ⟨kind, size, headerSize, hbegin⟩
  · exact h.same hqueued rfl rfl rfl fun _ => ⟨rfl, rfl⟩
  · obtain ⟨-, ⟨-, -, -, rfl⟩ | ⟨hfirst, _, _, _, hbegins⟩ | ⟨-, hbegins⟩⟩ := beginBox_cases hbegin
    · exact h.same hqueued rfl rfl rfl fun _ => ⟨rfl, rfl⟩
    · obtain ⟨hvideo, haudio, hpending, -, -⟩ := tracks_of_begins hbegins
      refine h.same hqueued hvideo haudio hpending fun hdone => ?_
      exact absurd hdone (by simp [show r.initDone = false from hfirst])
    · obtain ⟨hvideo, haudio, hpending, hv, ha⟩ := tracks_of_begins hbegins
      exact h.same hqueued hvideo haudio hpending fun _ => ⟨hv, ha⟩

/-- A careful step keeps both queues going on where the stream does. -/
theorem Kept.step {log told : List Event} (hstep : CarefulStep r told r') (hframed : r.Framed)
    (hqueued : r.Queued) (htold : ToldInARow (toldOf id (log ++ told))) (h : Kept id log r) :
    Kept id (log ++ told) r' := by
  obtain ⟨hstep, hspares⟩ := hstep
  cases hstep with
  | header =>
    rw [List.append_nil]
    exact h.same hqueued rfl rfl rfl fun _ => ⟨rfl, rfl⟩
  | opened hne hfull hopen =>
    rw [List.append_nil]
    exact h.opened hqueued hopen
  | body =>
    rw [List.append_nil]
    unfold writeCurrentBoxData
    split <;> exact h.same hqueued rfl rfl rfl fun _ => ⟨rfl, rfl⟩
  | closed hend hmoof hmdat hclose =>
    rw [List.append_nil]
    obtain ⟨_, _, _, _, _, rfl⟩ := hclose
    exact h.same hqueued rfl rfl rfl fun _ => ⟨rfl, rfl⟩
  | moof hend hkind hparse hmoof =>
    exact h.moof (hframed.moof hend.1 hkind).2 htold hparse hmoof
  | mdat hend hkind hmdat =>
    rw [List.append_nil]
    exact h.mdat hmdat
  | reset =>
    rw [List.append_nil]
    exact h.same hqueued rfl rfl rfl fun _ => ⟨rfl, rfl⟩
  | build hbuild hnew =>
    refine Kept.log ?_ fun _ hparsed => by cases hparsed
    have hspare := hspares _ (List.mem_singleton_self _)
    rcases tryBuildSegment_cases hbuild with
      ⟨hb, -⟩ | ⟨k, hvideo, hk, ⟨-, hlast, -⟩ | ⟨r₁, a, -, hselect, ⟨-, -, hb⟩ | ⟨-, hlast, -⟩⟩⟩
    · cases hb
    · exact h.buildSegment hlast
    · cases hb
    · exact (h.selectAudioCount (hspare k hvideo hk) hselect).buildSegment hlast
  | remainder hbuild hnew =>
    refine Kept.log ?_ fun _ hparsed => by cases hparsed
    have hspare := hspares _ (List.mem_singleton_self _)
    obtain ⟨r₁, r₂, a, -, hselect, hlast, rfl⟩ := remainder_cases hbuild
    have h₂ : Kept id log r₂ := by
      rcases hselect with ⟨-, -, selected, hselect, -⟩ | ⟨-, rfl, -⟩
      · exact (h.selectAudioCount hspare hselect).buildSegment hlast
      · exact h.buildSegment hlast
    split
    · refine ⟨h₂.video, fun hid hne => ?_⟩
      exact (h₂.audio hid hne).shorten List.isChain_nil fun last hlast => by cases hlast
    · exact h₂
  | defer =>
    rw [List.append_nil]
    exact h.same hqueued rfl rfl rfl fun _ => ⟨rfl, rfl⟩
  | taken =>
    rw [List.append_nil]
    exact h.same hqueued rfl rfl rfl fun _ => ⟨rfl, rfl⟩
  | targeted htarget =>
    rw [List.append_nil]
    unfold setTargetSegment at htarget
    split at htarget
    · cases htarget
      exact h
    · obtain ⟨u, -, htarget⟩ := bind_eq_ok.mp htarget
      cases htarget
      exact h.same hqueued rfl rfl rfl fun _ => ⟨rfl, rfl⟩
  | moved => exact Kept.log (h.same hqueued rfl rfl rfl fun _ => ⟨rfl, rfl⟩) fun _ hparsed => by cases hparsed

theorem Blank.kept (h : r.Blank) : Kept id [] r := by
  refine ⟨fun _ => ?_, fun _ _ => ?_⟩
  · rw [h.video]
    exact goesOn_nil h.pending
  · rw [h.audio]
    exact goesOn_nil h.pending

/-- A run of careful steps keeps both queues going on where the stream does. -/
theorem Kept.run {r₀ : Reader} {log : List Event} (hblank : r₀.Blank)
    (hrun : Trace.Run CarefulStep r₀ log r) (htold : ToldInARow (toldOf id log)) :
    r.Framed ∧ r.Queued ∧ Kept id log r := by
  refine hrun.keeps_log (P := fun log r => ToldInARow (toldOf id log) →
    r.Framed ∧ r.Queued ∧ Kept id log r) (fun log s told t hstep hs htold => ?_)
    (fun _ => ⟨hblank.framed, hblank.queued, hblank.kept⟩) htold
  have hbefore : ToldInARow (toldOf id log) := by
    rw [toldOf_append] at htold
    exact (List.isChain_append.mp htold).1
  obtain ⟨hframed, hqueued, hkept⟩ := hs hbefore
  exact ⟨hframed.step hstep.1, hqueued.step hstep.1 hframed,
    hkept.step hstep hframed hqueued htold⟩

/-- The queue of a track. -/
def queueOf (r : Reader) (id : UInt32) : List Fragment :=
  if r.videoTrack.id = id then r.video else if r.audioTrack.id = id then r.audio else []

theorem Kept.goesOn {log : List Event} (h : Kept id log r) :
    InARow (r.queueOf id) ∧ ∀ f, r.pending = some f → f.trackId = id →
      ∀ last ∈ (r.queueOf id).getLast?, last.endTime = f.decodeTime := by
  unfold queueOf
  split
  · next hid => exact ⟨(h.video hid).row, fun f hf hf' => ((h.video hid).waits f hf hf').1⟩
  · next hne =>
    split
    · next hid => exact ⟨(h.audio hid hne).row, fun f hf hf' => ((h.audio hid hne).waits f hf hf').1⟩
    · exact ⟨List.isChain_nil, fun f _ _ last hlast => nomatch hlast⟩

theorem Queued.queueOf_of (h : r.Queued) : ∃ track, ∀ f ∈ r.queueOf id, f.Of track := by
  unfold queueOf
  split
  · exact ⟨r.videoTrack, h.video⟩
  · split
    · exact ⟨r.audioTrack, h.audio⟩
    · exact ⟨r.videoTrack, fun f hf => absurd hf List.not_mem_nil⟩

/-- A selection keeps a queue in a row, and its sample description. -/
theorem queueOf_selectAudioCount {videoEnd k : ℕ} {index : UInt32}
    (hselect : r.selectAudioCount videoEnd = .ok (r', k)) (hrow : InARow (r.queueOf id))
    (hindex : ∀ f ∈ r.queueOf id, f.sampleDescriptionIndex = index) :
    InARow (r'.queueOf id) ∧ ∀ f ∈ r'.queueOf id, f.sampleDescriptionIndex = index := by
  obtain ⟨audio, haudio, rfl⟩ := selectAudioCount_cases hselect
  unfold queueOf at hrow hindex ⊢
  simp only
  split at hrow
  · next hid =>
    rw [if_pos hid] at hindex ⊢
    exact ⟨hrow, hindex⟩
  · next hne =>
    rw [if_neg hne] at hindex ⊢
    split at hrow
    · next hid =>
      rw [if_pos hid] at hindex ⊢
      refine ⟨(inARow_selectAudioFrom haudio hrow).1, ?_⟩
      refine forall_of_selectAudioFrom (fun hf hparts => ?_) haudio hindex
      exact ⟨hparts.leftTrack.2.2.1.trans hf, hparts.rightTrack.2.2.1.trans hf⟩
    · next hid =>
      rw [if_neg hid] at hindex ⊢
      exact ⟨hrow, hindex⟩

/-- The rest of a box, in one piece. -/
def fullBody (r : Reader) (body : List UInt8) : Reader :=
  { r.writeCurrentBoxData body with currentBoxRemaining := r.currentBoxRemaining - body.length }

/-- A box has begun where none was being read, and this is the rest of it. -/
def Opens (r r₁ : Reader) (body : List UInt8) : Prop :=
  r.boxHeader = [] ∧ r.boxHeaderRequired = 8 ∧ ¬r₁.boxHeader.length < r₁.boxHeaderRequired ∧
    body ≠ [] ∧ r₁.currentBoxRemaining = body.length

instance (r r₁ : Reader) (body : List UInt8) : Decidable (Opens r r₁ body) :=
  inferInstanceAs (Decidable (_ ∧ _ ∧ _ ∧ _ ∧ _))

/-- A box that comes in two pieces, its header and the rest, up to its end. -/
theorem run_box {r₀ r₁ : Reader} {header body : List UInt8} {log : List Event}
    (h : Trace.Run CarefulStep r₀ log r) (hheader : header.length = 8) (hopens : Opens r r₁ body)
    (hopen : openBox { r with boxHeader := header } = .ok r₁) :
    Trace.Run CarefulStep r₀ log (r₁.fullBody body) ∧ (r₁.fullBody body).AtEnd := by
  obtain ⟨hempty, hrequired, hin, hbody, hsize⟩ := hopens
  have hopened : Step r [] r₁ := by
    refine @Step.opened r r₁ header ?_ ?_ ?_
    · rintro rfl
      cases hheader
    · rw [hempty, hrequired, hheader]
      rfl
    · rw [hempty, List.nil_append]
      exact hopen
  have hread : Step r₁ [] (r₁.fullBody body) := Step.body hin hbody hsize.ge
  have hquiet : ∀ e ∈ ([] : List Event), ∀ r : Reader, r.Spares e :=
    fun e he => absurd he List.not_mem_nil
  have hhead : CarefulStep r [] r₁ := ⟨hopened, fun e he => hquiet e he r⟩
  have hbodyStep : CarefulStep r₁ [] (r₁.fullBody body) := ⟨hread, fun e he => hquiet e he r₁⟩
  have hrun := (h.snoc hhead).snoc hbodyStep
  rw [List.append_nil, List.append_nil] at hrun
  refine ⟨hrun, ?_, ?_⟩
  · have hkeep : (r₁.writeCurrentBoxData body).boxHeader = r₁.boxHeader ∧
        (r₁.writeCurrentBoxData body).boxHeaderRequired = r₁.boxHeaderRequired := by
      unfold writeCurrentBoxData
      split <;> exact ⟨rfl, rfl⟩
    show ¬(r₁.writeCurrentBoxData body).boxHeader.length < (r₁.writeCurrentBoxData body).boxHeaderRequired
    rwa [hkeep.1, hkeep.2]
  · show r₁.currentBoxRemaining - body.length = 0
    rw [hsize, Nat.sub_self]

theorem run_moof {r₀ : Reader} {log : List Event} {fragment : Fragment}
    (h : Trace.Run CarefulStep r₀ log r ∧ r.AtEnd) (hkind : r.currentBoxType = Kind.moof)
    (hparse : r.sourceFragment = .ok fragment) (hmoof : r.completeMoof = .ok r') :
    Trace.Run CarefulStep r₀ (log ++ [.told fragment]) r'.resetBoxState := by
  refine h.1.snoc ⟨Step.moof h.2 hkind hparse hmoof, fun e he => ?_⟩
  rw [List.mem_singleton.mp he]
  trivial

/-- A `moof` that does not tell durations, and its `mdat`. -/
def hintedMediaOf (id : UInt32) (decodeTime : ℕ) (samples : List Sample) (payload : List UInt8) :
    List UInt8 :=
  boxOf Kind.moof (boxOf Kind.traf (
    boxOf Kind.tfhd (toBe32 TfhdFlag.defaultBaseIsMoof ++ toBe32 id) ++
    writeTfdt decodeTime ++
    boxOf Kind.trun (toBe32 0x000601 ++ toBe32 (UInt32.ofNat samples.length) ++
      toBe32 (UInt32.ofNat (80 + 8 * samples.length)) ++
      samples.flatMap fun s => toBe32 s.size ++ toBe32 s.flags))) ++
  boxOf Kind.mdat payload

/-- Video in two seconds each; audio whose second sample after the first second takes half a
second, which only the `moof` after it tells. -/
def hintedStream : List UInt8 :=
  bothInit ++ mediaOf 1 0 [{ second with duration := 2000 }] [7] ++ mediaOf 2 0 [second] [8] ++
    hintedMediaOf 2 1000 [second, second] [9, 10] ++
    mediaOf 1 2000 [{ second with duration := 2000 }] [11] ++
    mediaOf 2 2500 [{ second with duration := 1500 }] [12] ++
    mediaOf 1 4000 [{ second with duration := 2000 }] [13]

end Reader

end Rustorr.Mp4
