import Rustorr.Gst.Mp4.Parsed

/-! The fragments a reader has queued: what they are, through all that is done to them. -/

namespace Rustorr.Mp4

open BigEndian Except

/-! ### What is done to a fragment -/

theorem any_head?_modify {α : Type*} {p : α → Bool} {g : α → α} (hg : ∀ a, p (g a) = p a)
    (l : List α) (i : ℕ) : (l.modify i g).head?.any p = l.head?.any p := by
  cases l with
  | nil => cases i <;> rfl
  | cons a l =>
    cases i with
    | zero => exact hg a
    | succ i => rfl

theorem firstIsSync_resolveRuns (duration : UInt32) (runs : List Run) (index : ℕ) :
    (Reader.resolveRuns duration runs index).head?.any Run.firstIsSync =
      runs.head?.any Run.firstIsSync := by
  unfold Reader.resolveRuns
  rw [List.head?_map, Option.any_map]
  refine any_head?_modify (fun run => ?_) runs index
  show ((run.samples.modify (run.samples.length - 1) fun s => { s with duration }).head?.any
    fun s => isSyncSample s.flags) = run.samples.head?.any fun s => isSyncSample s.flags
  refine any_head?_modify ?_ run.samples _
  exact fun _ => rfl

theorem map_length_resolveRuns (duration : UInt32) (runs : List Run) (index : ℕ) :
    ((Reader.resolveRuns duration runs index).map fun run => run.samples.length) =
      runs.map fun run => run.samples.length := by
  unfold Reader.resolveRuns
  rw [List.map_map]
  induction runs generalizing index with
  | nil => cases index <;> rfl
  | cons run rest ih =>
    cases index with
    | zero =>
      rw [List.modify_zero_cons, List.map_cons, List.map_cons]
      refine congrArg₂ List.cons ?_ rfl
      show (run.samples.modify _ _).length = run.samples.length
      rw [List.length_modify]
    | succ index =>
      rw [List.modify_succ_cons, List.map_cons, List.map_cons, ih index]
      rfl

/-- A duration that is settled changes nothing but durations, and that it was inferred. -/
theorem resolveInferredDuration_ok {previous current settled : Fragment} {exact : UInt32}
    (h : Reader.resolveInferredDuration previous current = .ok (settled, exact)) :
    settled.firstIsSync = previous.firstIsSync ∧ settled.sampleCount = previous.sampleCount ∧
      (∃ runs duration, settled = { previous with runs, duration, hasInferredDuration := false }) ∧
      (current.decodeTime < 2 ^ 64 → settled.endTime = current.decodeTime) := by
  unfold Reader.resolveInferredDuration at h
  simp only at h
  obtain ⟨run, -, h⟩ := bind_eq_ok.mp h
  obtain ⟨u, hold, h⟩ := bind_eq_ok.mp h
  obtain ⟨u, hstart, h⟩ := bind_eq_ok.mp h
  obtain ⟨u, -, h⟩ := bind_eq_ok.mp h
  rw [failIf_eq_ok, not_lt] at hold hstart
  cases h
  refine ⟨?_, ?_, ⟨_, _, rfl⟩, fun htime => ?_⟩
  · exact firstIsSync_resolveRuns _ previous.runs _
  · exact congrArg List.sum (map_length_resolveRuns _ previous.runs _)
  · unfold Fragment.endTime
    simp only
    omega

theorem attachRuns_ok {payloadFromMoof expected expected' : ℕ} {runs runs' : List Run}
    (h : attachRuns payloadFromMoof runs expected = .ok (runs', expected')) :
    expected' = expected + (runs.map Run.dataSize).sum ∧
      runs'.head?.any Run.firstIsSync = runs.head?.any Run.firstIsSync ∧
      (runs'.map fun run => run.samples.length) = runs.map fun run => run.samples.length := by
  induction runs generalizing expected runs' with
  | nil =>
    cases h
    exact ⟨rfl, rfl, rfl⟩
  | cons run rest ih =>
    unfold attachRuns at h
    simp only at h
    obtain ⟨u, -, h⟩ := bind_eq_ok.mp h
    obtain ⟨u, -, h⟩ := bind_eq_ok.mp h
    obtain ⟨⟨runs₁, expected₁⟩, hrest, h⟩ := bind_eq_ok.mp h
    cases h
    obtain ⟨hsum, -, hlength⟩ := ih hrest
    refine ⟨?_, rfl, ?_⟩
    · rw [hsum, List.map_cons, List.sum_cons, Nat.add_assoc]
    · rw [List.map_cons, List.map_cons, hlength]

/-- A fragment given its payload has just what its samples take up. -/
theorem attachPayload_ok {pending fragment : Fragment} {payloadStart payloadLen payloadFromMoof : ℕ}
    (h : attachPayload pending payloadStart payloadLen payloadFromMoof = .ok fragment) :
    payloadLen = pending.size ∧ fragment.firstIsSync = pending.firstIsSync ∧
      fragment.sampleCount = pending.sampleCount ∧
      ∃ runs, fragment = { pending with runs, payloadStart, payloadLen } := by
  unfold attachPayload at h
  obtain ⟨⟨runs, expected⟩, hruns, h⟩ := bind_eq_ok.mp h
  obtain ⟨u, hlen, h⟩ := bind_eq_ok.mp h
  rw [failIf_eq_ok, not_not] at hlen
  cases h
  obtain ⟨hsum, hsync, hlength⟩ := attachRuns_ok hruns
  exact ⟨by rw [← hlen, hsum, Nat.zero_add]; rfl, hsync, congrArg List.sum hlength, runs, rfl⟩

/-- Runs that a split makes are marked by their first sample, and hold data. -/
def Half.Sound (half : Half) : Prop :=
  (∀ run ∈ half.runs, run.startsWithSync = run.firstIsSync ∧ run.samples ≠ []) ∧
    (half.runs ≠ [] → 0 < half.bytes)

theorem Half.push_ok {half half' : Half} {source : Run} {samples : List Sample}
    (h : half.push source samples = .ok half') (hhalf : half.Sound) : half'.Sound := by
  unfold Half.push at h
  split at h
  · cases h
    exact hhalf
  obtain ⟨run, hrun, h⟩ := bind_eq_ok.mp h
  cases h
  unfold buildExplicitRun at hrun
  split at hrun
  · cases hrun
  obtain ⟨⟨duration, dataSize⟩, -, hrun⟩ := bind_eq_ok.mp hrun
  obtain ⟨u, hpos, hrun⟩ := bind_eq_ok.mp hrun
  rw [failIf_eq_ok, not_or] at hpos
  cases hrun
  refine ⟨fun run' hmem => ?_, fun _ => Nat.add_pos_right _ (Nat.pos_of_ne_zero hpos.2)⟩
  rcases List.mem_append.mp hmem with hmem | hmem
  · exact hhalf.1 run' hmem
  · rw [List.mem_singleton.mp hmem]
    exact ⟨rfl, List.cons_ne_nil _ _⟩

theorem splitRuns_ok {runs : List Run} {remaining remaining' : ℕ} {left right left' right' : Half}
    (h : splitRuns runs remaining left right = .ok (remaining', left', right'))
    (hleft : left.Sound) (hright : right.Sound) : left'.Sound ∧ right'.Sound := by
  induction runs generalizing remaining left right with
  | nil =>
    cases h
    exact ⟨hleft, hright⟩
  | cons source rest ih =>
    unfold splitRuns at h
    obtain ⟨u, -, h⟩ := bind_eq_ok.mp h
    simp only at h
    obtain ⟨left₁, hleft₁, h⟩ := bind_eq_ok.mp h
    obtain ⟨right₁, hright₁, h⟩ := bind_eq_ok.mp h
    exact ih h (Half.push_ok hleft₁ hleft) (Half.push_ok hright₁ hright)

/-- The two parts of a fragment: they are marked by their first samples, hold data, and
follow each other in time and in the payload. That a duration was inferred is forgotten. -/
structure IsSplit (fragment left right : Fragment) : Prop where
  leftTrack : left.trackId = fragment.trackId ∧ left.timescale = fragment.timescale ∧
    left.sampleDescriptionIndex = fragment.sampleDescriptionIndex ∧ left.tfhd = fragment.tfhd
  rightTrack : right.trackId = fragment.trackId ∧ right.timescale = fragment.timescale ∧
    right.sampleDescriptionIndex = fragment.sampleDescriptionIndex ∧ right.tfhd = fragment.tfhd
  sync : left.startsWithSync = left.firstIsSync ∧ right.startsWithSync = right.firstIsSync
  leftTime : left.decodeTime = fragment.decodeTime
  rightTime : right.decodeTime = fragment.decodeTime + left.duration ∧ right.decodeTime < 2 ^ 64
  duration : left.duration + right.duration = fragment.duration
  payloadStart : left.payloadStart = fragment.payloadStart ∧
    right.payloadStart = fragment.payloadStart + left.payloadLen
  payloadLen : left.payloadLen + right.payloadLen = fragment.payloadLen
  positive : 0 < left.payloadLen ∧ 0 < right.payloadLen
  sampleCount : 0 < left.sampleCount ∧ 0 < right.sampleCount
  explicit : left.hasInferredDuration = false ∧ right.hasInferredDuration = false

theorem splitFragmentAtSample_ok {fragment left right : Fragment} {split : ℕ}
    (h : splitFragmentAtSample fragment split = .ok (left, right)) : IsSplit fragment left right := by
  unfold splitFragmentAtSample at h
  obtain ⟨total, -, h⟩ := bind_eq_ok.mp h
  obtain ⟨u, -, h⟩ := bind_eq_ok.mp h
  obtain ⟨⟨remaining, leftHalf, rightHalf⟩, hsplit, h⟩ := bind_eq_ok.mp h
  obtain ⟨hleft, hright⟩ := splitRuns_ok hsplit
    ⟨fun _ hmem => absurd hmem List.not_mem_nil, fun hne => absurd rfl hne⟩
    ⟨fun _ hmem => absurd hmem List.not_mem_nil, fun hne => absurd rfl hne⟩
  obtain ⟨leftRuns, leftBytes, leftDuration⟩ := leftHalf
  obtain ⟨rightRuns, rightBytes, rightDuration⟩ := rightHalf
  cases leftRuns with
  | nil => cases h
  | cons firstLeft restLeft =>
    cases rightRuns with
    | nil => cases h
    | cons firstRight restRight =>
      simp only at h
      obtain ⟨u, -, h⟩ := bind_eq_ok.mp h
      obtain ⟨u, hduration, h⟩ := bind_eq_ok.mp h
      obtain ⟨u, hbytes, h⟩ := bind_eq_ok.mp h
      obtain ⟨decodeTime, htime, h⟩ := bind_eq_ok.mp h
      rw [failIf_eq_ok, not_not] at hduration hbytes
      unfold add64 at htime
      split at htime
      · next hfits =>
        cases htime
        cases h
        have hpositive : 0 < leftBytes ∧ 0 < rightBytes :=
          ⟨hleft.2 (List.cons_ne_nil _ _), hright.2 (List.cons_ne_nil _ _)⟩
        refine ⟨⟨rfl, rfl, rfl, rfl⟩, ⟨rfl, rfl, rfl, rfl⟩, ⟨(hleft.1 _ List.mem_cons_self).1, ?_⟩,
          rfl, ⟨rfl, hfits⟩, hduration, ⟨rfl, rfl⟩, ?_, ⟨hpositive.1, ?_⟩, ⟨?_, ?_⟩, rfl, rfl⟩
        · exact (hright.1 _ List.mem_cons_self).1
        · show leftBytes + (fragment.payloadLen - leftBytes) = fragment.payloadLen
          omega
        · show 0 < fragment.payloadLen - leftBytes
          omega
        · exact Nat.add_pos_left
            (List.length_pos_iff.mpr (hleft.1 _ List.mem_cons_self).2) _
        · exact Nat.add_pos_left
            (List.length_pos_iff.mpr (hright.1 _ List.mem_cons_self).2) _
      · cases htime

/-! ### The queues -/

/-- A fragment that lies in the queue of a track. -/
structure Fragment.Of (track : TrackIds) (f : Fragment) : Prop where
  trackId : f.trackId = track.id
  timescale : f.timescale = track.timescale
  decodeTime : f.decodeTime < 2 ^ 64
  payloadLen : 0 < f.payloadLen
  sampleCount : 0 < f.sampleCount
  sync : f.startsWithSync = f.firstIsSync
  tfhd : f.tfhd = canonicalTfhd f.trackId f.sampleDescriptionIndex

variable {track : TrackIds} {f : Fragment}

theorem Fragment.Of.rebase (h : f.Of track) (start : ℕ) : (Reader.rebase start f).Of track := by
  unfold Reader.rebase
  split
  · exact ⟨h.trackId, h.timescale, h.decodeTime, h.payloadLen, h.sampleCount, h.sync, h.tfhd⟩
  · exact h

theorem Fragment.Of.split {left right : Fragment} (h : f.Of track) (hsplit : IsSplit f left right) :
    left.Of track ∧ right.Of track := by
  obtain ⟨hid, htimescale, hindex, htfhd⟩ := hsplit.leftTrack
  obtain ⟨hid', htimescale', hindex', htfhd'⟩ := hsplit.rightTrack
  refine ⟨⟨hid.trans h.trackId, htimescale.trans h.timescale, ?_, hsplit.positive.1,
      hsplit.sampleCount.1, hsplit.sync.1, ?_⟩,
    hid'.trans h.trackId, htimescale'.trans h.timescale, hsplit.rightTime.2, hsplit.positive.2,
    hsplit.sampleCount.2, hsplit.sync.2, ?_⟩
  · rw [hsplit.leftTime]
    exact h.decodeTime
  · rw [htfhd, hid, hindex]
    exact h.tfhd
  · rw [htfhd', hid', hindex']
    exact h.tfhd

theorem Fragment.Of.resolve {current settled : Fragment} {duration : UInt32} (h : f.Of track)
    (hresolve : Reader.resolveInferredDuration f current = .ok (settled, duration)) :
    settled.Of track := by
  obtain ⟨hsync, hcount, ⟨runs, d, rfl⟩, -⟩ := resolveInferredDuration_ok hresolve
  exact ⟨h.trackId, h.timescale, h.decodeTime, h.payloadLen, hcount ▸ h.sampleCount,
    h.sync.trans hsync.symm, h.tfhd⟩

namespace Reader

variable {r r' : Reader}

/-- A queue whose last duration is settled: the last fragment is another one, or none is. -/
theorem resolveQueue_cases {queue queue' : List Fragment} {current : Fragment} {hint : Option UInt32}
    (h : resolveQueue queue current = .ok (queue', hint)) :
    (queue' = queue ∧ ∀ last, queue.getLast? = some last → last.hasInferredDuration = false) ∨
      ∃ before previous settled duration, queue = before ++ [previous] ∧
        previous.hasInferredDuration = true ∧
        resolveInferredDuration previous current = .ok (settled, duration) ∧
        queue' = before ++ [settled] := by
  unfold resolveQueue at h
  split at h
  · next hnone =>
    cases h
    exact Or.inl ⟨rfl, fun last hlast => absurd (hnone.symm.trans hlast) (by simp)⟩
  · next previous hlast =>
    split at h
    · next hsettled =>
      cases h
      rw [Bool.not_eq_true] at hsettled
      refine Or.inl ⟨rfl, fun last hlast' => ?_⟩
      rw [hlast] at hlast'
      cases hlast'
      exact hsettled
    · next hinferred =>
      obtain ⟨⟨settled, duration⟩, hresolve, h⟩ := bind_eq_ok.mp h
      cases h
      obtain ⟨before, rfl⟩ := List.getLast?_eq_some_iff.mp hlast
      refine Or.inr ⟨before, previous, settled, duration, rfl, not_not.mp hinferred, hresolve, ?_⟩
      rw [List.dropLast_concat]

/-- What the parser knows of the box it is in. -/
structure Framed (r : Reader) : Prop where
  required : 0 < r.boxHeaderRequired
  header : r.InHeader → r.currentTarget = .none ∧ r.currentBoxRemaining = 0
  moof : ¬r.InHeader → r.currentBoxType = Kind.moof → r.initDone = true ∧ r.pending = none
  target : r.currentTarget = .moof → r.currentBoxType = Kind.moof
  source : r.sourceMoof ≠ [] → r.pending ≠ none ∨ r.currentTarget = .moof

theorem Blank.framed (h : r.Blank) : r.Framed := by
  have hin : r.InHeader := by
    unfold InHeader
    rw [h.boxHeader, h.boxHeaderRequired]
    decide
  refine ⟨?_, fun _ => ⟨h.currentTarget, h.currentBoxRemaining⟩, fun hout => absurd hin hout, ?_, ?_⟩
  · rw [h.boxHeaderRequired]
    decide
  · rw [h.currentTarget]
    exact fun heq => nomatch heq
  · exact fun hne => absurd h.sourceMoof hne

theorem Framed.sameBox (h : r.Framed) (hsame : SameBox r r') : r'.Framed := by
  obtain ⟨hheader, hrequired, htype, hremaining, htarget, hdone, hpending, hmoof, -⟩ := hsame
  constructor
  · rw [hrequired]
    exact h.required
  · unfold InHeader
    rw [hheader, hrequired, htarget, hremaining]
    exact h.header
  · unfold InHeader
    rw [hheader, hrequired, htype, hdone, hpending]
    exact h.moof
  · rw [htarget, htype]
    exact h.target
  · rw [hmoof, hpending, htarget]
    exact h.source

/-- Between boxes nothing of one is kept. -/
theorem framed_resetBoxState (hsource : r.sourceMoof ≠ [] → r.pending ≠ none) :
    r.resetBoxState.Framed := by
  have hin : r.resetBoxState.InHeader := Nat.succ_pos 7
  refine ⟨Nat.succ_pos 7, fun _ => ⟨rfl, rfl⟩, fun hout => absurd hin hout, ?_, ?_⟩
  · exact fun heq => nomatch heq
  · exact fun hne => Or.inl (hsource hne)

theorem framed_of_begins (hin : ¬r.InHeader) (hdone : r.initDone = true)
    (hrequired : 0 < r.boxHeaderRequired)
    (hsource : r.sourceMoof ≠ [] → r.pending ≠ none) (hbegins : r.begins r') : r'.Framed := by
  rcases hbegins with
    ⟨hkind, hpending, rfl⟩ | ⟨hkind, -, _, rfl⟩ | ⟨hkind, -, _, _, _, _, target, htarget, rfl⟩
  · exact ⟨hrequired, fun h => absurd h hin, fun _ _ => ⟨hdone, hpending⟩, fun _ => hkind,
      fun _ => Or.inr rfl⟩
  · refine ⟨hrequired, fun h => absurd h hin, fun _ hmoof => ?_, fun h => (nomatch h),
      fun hne => Or.inl (hsource hne)⟩
    rw [show r.currentBoxType = Kind.mdat from hkind] at hmoof
    exact absurd hmoof (by decide)
  · refine ⟨hrequired, fun h => absurd h hin, fun _ hmoof => absurd hmoof hkind, fun h => ?_,
      fun hne => Or.inl (hsource hne)⟩
    rcases htarget with rfl | rfl | rfl <;> cases h

theorem Framed.opened {bytes : List UInt8} (h : r.Framed)
    (hfull : r.boxHeader.length + bytes.length = r.boxHeaderRequired) (hne : bytes ≠ [])
    (hopen : openBox { r with boxHeader := r.boxHeader ++ bytes } = .ok r') : r'.Framed := by
  have hin : r.InHeader := by
    have hpos := List.length_pos_iff.mpr hne
    unfold InHeader
    omega
  obtain ⟨htarget, hremaining⟩ := h.header hin
  have hsource : r.sourceMoof ≠ [] → r.pending ≠ none := by
    intro hmoof
    refine (h.source hmoof).resolve_right fun heq => ?_
    rw [htarget] at heq
    cases heq
  have hout : ¬(r.boxHeader ++ bytes).length < r.boxHeaderRequired := by
    rw [List.length_append, hfull]
    exact lt_irrefl _
  rcases openBox_cases hopen with ⟨hrequired, kind, rfl⟩ | ⟨kind, size, headerSize, hbegin⟩
  · refine ⟨Nat.succ_pos 15, fun _ => ⟨htarget, hremaining⟩, fun hlong => ?_, fun heq => ?_,
      fun hmoof => Or.inl (hsource hmoof)⟩
    · refine absurd ?_ hlong
      show (r.boxHeader ++ bytes).length < 16
      have height : r.boxHeaderRequired = 8 := hrequired
      rw [List.length_append, hfull, height]
      decide
    · have hmoof : r.currentTarget = .moof := heq
      rw [htarget] at hmoof
      cases hmoof
  · obtain ⟨-, ⟨-, hkind, -, rfl⟩ | ⟨-, _, _, _, hbegins⟩ | ⟨hdone, hbegins⟩⟩ := beginBox_cases hbegin
    · exact ⟨h.required, fun hlt => absurd hlt hout, fun _ heq => absurd heq hkind,
        fun heq => (nomatch heq), fun hmoof => Or.inl (hsource hmoof)⟩
    · refine framed_of_begins ?_ ?_ ?_ ?_ hbegins
      exacts [hout, rfl, h.required, hsource]
    · refine framed_of_begins ?_ ?_ ?_ ?_ hbegins
      exacts [hout, hdone, h.required, hsource]

theorem Framed.step {told : List Event} (hstep : Step r told r') (h : r.Framed) : r'.Framed := by
  cases hstep with
  | header hne hshort =>
    have hin : r.InHeader := by
      unfold InHeader
      omega
    refine ⟨h.required, fun _ => h.header hin, fun hlong => ?_, h.target, h.source⟩
    refine absurd ?_ hlong
    show (r.boxHeader ++ _).length < r.boxHeaderRequired
    rw [List.length_append]
    exact hshort
  | opened hne hfull hopen => exact h.opened hfull hne hopen
  | @body data hout hne hle =>
    have hwrite : (r.writeCurrentBoxData data).boxHeader = r.boxHeader ∧
        (r.writeCurrentBoxData data).boxHeaderRequired = r.boxHeaderRequired ∧
        (r.writeCurrentBoxData data).currentBoxType = r.currentBoxType ∧
        (r.writeCurrentBoxData data).currentTarget = r.currentTarget ∧
        (r.writeCurrentBoxData data).initDone = r.initDone ∧
        (r.writeCurrentBoxData data).pending = r.pending ∧
        (r.currentTarget ≠ .moof → (r.writeCurrentBoxData data).sourceMoof = r.sourceMoof) := by
      unfold writeCurrentBoxData
      split
      all_goals
        refine ⟨rfl, rfl, rfl, rfl, rfl, rfl, fun hne => ?_⟩
        first
          | rfl
          | exact absurd ‹_› hne
    obtain ⟨hheader, hrequired, htype, htarget, hdone, hpending, hmoof⟩ := hwrite
    have hout' : ¬(r.writeCurrentBoxData data).boxHeader.length <
        (r.writeCurrentBoxData data).boxHeaderRequired := by
      rwa [hheader, hrequired]
    refine ⟨?_, fun hin => absurd hin hout', fun _ heq => ?_, fun heq => ?_, fun hne => ?_⟩
    · show 0 < (r.writeCurrentBoxData data).boxHeaderRequired
      rw [hrequired]
      exact h.required
    · show (r.writeCurrentBoxData data).initDone = true ∧ (r.writeCurrentBoxData data).pending = none
      rw [hdone, hpending]
      exact h.moof hout (htype.symm.trans heq)
    · exact htype.trans (h.target (htarget.symm.trans heq))
    · show (r.writeCurrentBoxData data).pending ≠ none ∨
        (r.writeCurrentBoxData data).currentTarget = .moof
      rw [hpending, htarget]
      by_cases hm : r.currentTarget = .moof
      · exact Or.inr hm
      · exact h.source ((hmoof hm).symm.trans_ne hne)
  | closed hend hmoof hmdat hclose =>
    obtain ⟨_, _, _, _, _, rfl⟩ := hclose
    refine framed_resetBoxState fun hne => ?_
    exact (h.source hne).resolve_right fun heq => hmoof (h.target heq)
  | moof hend hkind hparse hmoof =>
    obtain ⟨_, _, _, _, _, _, _, -, -, rfl⟩ := completeMoof_cases hmoof
    exact framed_resetBoxState fun _ => Option.some_ne_none _
  | mdat hend hkind hmdat =>
    have hempty : Framed { r with pending := none, sourceMoof := [] } :=
      ⟨h.required, h.header, fun hout hmoof => ⟨(h.moof hout hmoof).1, rfl⟩, h.target,
        fun hne => absurd rfl hne⟩
    obtain ⟨_, _, -, -, ⟨-, rfl⟩ | ⟨-, -, rfl⟩⟩ := completeMdat_cases hmdat <;>
      exact hempty.sameBox ⟨rfl, rfl, rfl, rfl, rfl, rfl, rfl, rfl, rfl⟩
  | reset hend hkind hpending =>
    refine framed_resetBoxState fun hne => ?_
    refine (h.source hne).resolve_right fun heq => ?_
    have hmoof := h.target heq
    rw [hkind] at hmoof
    exact absurd hmoof (by decide)
  | build hbuild hnew => exact h.sameBox (tryBuildSegment_sameBox hbuild).1
  | remainder hbuild hnew => exact h.sameBox (remainder_sameBox hbuild).1
  | defer => exact ⟨h.required, h.header, h.moof, h.target, h.source⟩
  | taken => exact ⟨h.required, h.header, h.moof, h.target, h.source⟩
  | targeted htarget =>
    unfold setTargetSegment at htarget
    split at htarget
    · cases htarget
      exact h
    · obtain ⟨u, -, htarget⟩ := bind_eq_ok.mp htarget
      cases htarget
      exact ⟨h.required, h.header, h.moof, h.target, h.source⟩
  | moved => exact ⟨h.required, h.header, h.moof, h.target, h.source⟩

/-- All that is queued, and what waits for its payload, is of the tracks. -/
structure Queued (r : Reader) : Prop where
  fresh : r.initDone = false → r.video = [] ∧ r.audio = [] ∧ r.pending = none
  video : ∀ f ∈ r.video, f.Of r.videoTrack
  audio : ∀ f ∈ r.audio, f.Of r.audioTrack
  pending : ∀ f, r.pending = some f → f.Parsed r.videoTrack r.audioTrack

theorem Blank.queued (h : r.Blank) : r.Queued := by
  refine ⟨fun _ => ⟨h.video, h.audio, h.pending⟩, ?_, ?_, ?_⟩
  · rw [h.video]
    exact fun f hf => absurd hf List.not_mem_nil
  · rw [h.audio]
    exact fun f hf => absurd hf List.not_mem_nil
  · rw [h.pending]
    exact fun f hf => nomatch hf

theorem forall_of_resolveQueue {queue queue' : List Fragment} {current : Fragment}
    {hint : Option UInt32} (h : resolveQueue queue current = .ok (queue', hint))
    (hqueue : ∀ f ∈ queue, f.Of track) : ∀ f ∈ queue', f.Of track := by
  rcases resolveQueue_cases h with ⟨rfl, -⟩ | ⟨before, previous, settled, duration, rfl, -, hresolve, rfl⟩
  · exact hqueue
  · intro f hf
    rcases List.mem_append.mp hf with hf | hf
    · exact hqueue f (List.mem_append_left _ hf)
    · rw [List.mem_singleton.mp hf]
      exact (hqueue previous (List.mem_append_right _ (List.mem_singleton_self _))).resolve hresolve

/-- What both parts of a split have holds of all the audio after a selection. -/
theorem forall_of_selectAudioFrom {P : Fragment → Prop}
    (hsplit : ∀ {f left right : Fragment}, P f → IsSplit f left right → P left ∧ P right)
    {videoEnd k : ℕ} {queue audio : List Fragment}
    (h : r.selectAudioFrom videoEnd queue = .ok (audio, k)) (hqueue : ∀ f ∈ queue, P f) :
    ∀ f ∈ audio, P f := by
  induction queue generalizing audio k with
  | nil =>
    unfold selectAudioFrom at h
    cases h
    exact hqueue
  | cons fragment rest ih =>
    have hrest : ∀ f ∈ rest, P f := fun f hf => hqueue f (List.mem_cons_of_mem _ hf)
    have hfirst := hqueue fragment List.mem_cons_self
    rcases selectAudioFrom_cases h with
      ⟨_, rest', k', -, hselect, rfl, -⟩ | ⟨_, _, -, -, -, -, -, ⟨-, rfl⟩ | ⟨left, right, -, hparts, rfl⟩⟩
    · exact List.forall_mem_cons.mpr ⟨hfirst, ih hselect hrest⟩
    · exact hqueue
    · obtain ⟨hleft, hright⟩ := hsplit hfirst (splitFragmentAtSample_ok hparts)
      exact List.forall_mem_cons.mpr ⟨hleft, List.forall_mem_cons.mpr ⟨hright, hrest⟩⟩

theorem Queued.selectAudioCount {videoEnd k : ℕ} (h : r.Queued)
    (hselect : r.selectAudioCount videoEnd = .ok (r', k)) : r'.Queued := by
  obtain ⟨audio, haudio, rfl⟩ := selectAudioCount_cases hselect
  refine ⟨fun hfresh => ?_, h.video,
    forall_of_selectAudioFrom Fragment.Of.split haudio h.audio, h.pending⟩
  obtain ⟨hvideo, hempty, hpending⟩ := h.fresh hfresh
  refine ⟨hvideo, ?_, hpending⟩
  rw [hempty] at haudio
  unfold selectAudioFrom at haudio
  cases haudio
  rfl

theorem Queued.buildSegment {videoCount audioCount : ℕ} {allow : Bool} (h : r.Queued)
    (hbuild : r.buildSegment videoCount audioCount allow = .ok r') : r'.Queued := by
  obtain ⟨segment, -, -, -, -, rfl⟩ := buildSegment_cases hbuild
  obtain ⟨start, sourcePayload, currentPayloadStart, hreclaim, -⟩ :=
    reclaimPayloads_cases (r.cutOff videoCount audioCount segment).resetPrefix
  rw [hreclaim]
  refine ⟨fun hfresh => ?_, ?_, ?_, h.pending⟩
  · obtain ⟨hvideo, haudio, hpending⟩ := h.fresh hfresh
    refine ⟨?_, ?_, hpending⟩
    · show (r.video.drop videoCount).map (rebase start) = []
      rw [hvideo, List.drop_nil, List.map_nil]
    · show (r.audio.drop audioCount).map (rebase start) = []
      rw [haudio, List.drop_nil, List.map_nil]
  · intro f hf
    obtain ⟨f₀, hf₀, rfl⟩ := List.mem_map.mp hf
    exact (h.video f₀ (List.mem_of_mem_drop hf₀)).rebase start
  · intro f hf
    obtain ⟨f₀, hf₀, rfl⟩ := List.mem_map.mp hf
    exact (h.audio f₀ (List.mem_of_mem_drop hf₀)).rebase start

theorem Queued.tryBuildSegment {b : Bool} (h : r.Queued)
    (hbuild : r.tryBuildSegment = .ok (r', b)) : r'.Queued := by
  rcases tryBuildSegment_cases hbuild with
    ⟨-, rfl, -⟩ | ⟨k, -, -, ⟨-, hbuild, -⟩ | ⟨r₁, a, -, hselect, ⟨-, rfl, -⟩ | ⟨-, hbuild, -⟩⟩⟩
  · exact h
  · exact h.buildSegment hbuild
  · exact h.selectAudioCount hselect
  · exact (h.selectAudioCount hselect).buildSegment hbuild

theorem Queued.remainder (h : r.Queued)
    (hbuild : r.tryBuildEndOfStreamRemainder = .ok (r', true)) : r'.Queued := by
  obtain ⟨r₁, r₂, a, -, hselect, hlast, rfl⟩ := remainder_cases hbuild
  have h₁ : r₁.Queued := by
    rcases hselect with ⟨-, -, selected, hselect, -⟩ | ⟨-, rfl, -⟩
    · exact h.selectAudioCount hselect
    · exact h
  have h₂ := h₁.buildSegment hlast
  split
  · refine ⟨fun hfresh => ?_, h₂.video, fun f hf => absurd hf List.not_mem_nil, h₂.pending⟩
    obtain ⟨hvideo, -, hpending⟩ := h₂.fresh hfresh
    exact ⟨hvideo, rfl, hpending⟩
  · exact h₂

theorem Queued.begins (h : r.Queued) (hbegins : r.begins r') : r'.Queued := by
  rcases hbegins with ⟨-, -, rfl⟩ | ⟨-, -, _, rfl⟩ | ⟨-, -, _, _, _, _, _, -, rfl⟩ <;>
    exact ⟨h.fresh, h.video, h.audio, h.pending⟩

theorem Queued.beginBox {size headerSize : ℕ} (h : r.Queued)
    (hbegin : r.beginBox size headerSize = .ok r') : r'.Queued := by
  obtain ⟨-, ⟨-, -, -, rfl⟩ | ⟨hfirst, video, audio, newInit, hbegins⟩ | ⟨-, hbegins⟩⟩ :=
    beginBox_cases hbegin
  · exact ⟨h.fresh, h.video, h.audio, h.pending⟩
  · obtain ⟨hvideo, haudio, hpending⟩ := h.fresh hfirst
    refine Queued.begins ?_ hbegins
    refine ⟨(fun hfresh => nomatch hfresh), ?_, ?_, ?_⟩
    · show ∀ f ∈ r.video, f.Of video
      rw [hvideo]
      exact fun f hf => absurd hf List.not_mem_nil
    · show ∀ f ∈ r.audio, f.Of audio
      rw [haudio]
      exact fun f hf => absurd hf List.not_mem_nil
    · show ∀ f, r.pending = some f → f.Parsed video audio
      rw [hpending]
      exact fun f hf => nomatch hf
  · refine Queued.begins ?_ hbegins
    exact ⟨h.fresh, h.video, h.audio, h.pending⟩

theorem Queued.completeMoof (h : r.Queued) (hdone : r.initDone = true)
    (hmoof : r.completeMoof = .ok r') : r'.Queued := by
  obtain ⟨fragment, video, audio, vd, vt, ad, t, hparse, hresolve, rfl⟩ := completeMoof_cases hmoof
  have hparsed := parseSourceMoof_ok hparse
  refine ⟨fun hfresh => absurd hfresh (by simp [hdone]), ?_, ?_, ?_⟩
  · show ∀ f ∈ video, f.Of r.videoTrack
    rcases hresolve with ⟨-, -, hint, hvideo⟩ | ⟨-, -, rfl, -⟩ | ⟨-, -, rfl, -⟩
    · exact forall_of_resolveQueue hvideo h.video
    · exact h.video
    · exact h.video
  · show ∀ f ∈ audio, f.Of r.audioTrack
    rcases hresolve with ⟨-, rfl, -⟩ | ⟨-, -, -, hint, haudio⟩ | ⟨-, -, -, rfl⟩
    · exact h.audio
    · exact forall_of_resolveQueue haudio h.audio
    · exact h.audio
  · intro f hf
    cases hf
    exact ⟨hparsed.track, hparsed.decodeTime, hparsed.size, hparsed.sampleCount, hparsed.sync,
      hparsed.tfhd⟩

theorem Fragment.Parsed.attach {video audio : TrackIds} {pending fragment : Fragment}
    {payloadStart payloadLen payloadFromMoof : ℕ} (h : pending.Parsed video audio)
    (hattach : attachPayload pending payloadStart payloadLen payloadFromMoof = .ok fragment) :
    (fragment.trackId = video.id → fragment.Of video) ∧
      (fragment.trackId ≠ video.id → fragment.Of audio) := by
  obtain ⟨hlen, hsync, hcount, runs, rfl⟩ := attachPayload_ok hattach
  have hpositive : 0 < payloadLen := hlen ▸ h.size
  constructor
  · intro hvideo
    rcases h.track with ⟨-, htimescale⟩ | ⟨hne, -⟩
    · exact ⟨hvideo, htimescale, h.decodeTime, hpositive, hcount ▸ h.sampleCount,
        h.sync.trans hsync.symm, h.tfhd⟩
    · exact absurd hvideo hne
  · intro hvideo
    rcases h.track with ⟨heq, -⟩ | ⟨-, -, haudio, htimescale⟩
    · exact absurd heq hvideo
    · exact ⟨haudio, htimescale, h.decodeTime, hpositive, hcount ▸ h.sampleCount,
        h.sync.trans hsync.symm, h.tfhd⟩

theorem forall_mem_concat {p : Fragment → Prop} {queue : List Fragment} {f : Fragment}
    (hqueue : ∀ f ∈ queue, p f) (hf : p f) : ∀ f' ∈ queue ++ [f], p f' := by
  intro f' hmem
  rcases List.mem_append.mp hmem with hmem | hmem
  · exact hqueue f' hmem
  · rwa [List.mem_singleton.mp hmem]

theorem Queued.completeMdat (h : r.Queued) (hmdat : r.completeMdat = .ok r') : r'.Queued := by
  obtain ⟨pending, fragment, hpending, hattach, hcase⟩ := completeMdat_cases hmdat
  obtain ⟨hvideo, haudio⟩ := Fragment.Parsed.attach (h.pending pending hpending) hattach
  have hdone : r.initDone ≠ false := fun hfresh =>
    nomatch hpending.symm.trans (h.fresh hfresh).2.2
  rcases hcase with ⟨htrack, rfl⟩ | ⟨htrack, -, rfl⟩
  · exact ⟨fun hfresh => absurd hfresh hdone, forall_mem_concat h.video (hvideo htrack), h.audio,
      fun f hf => nomatch hf⟩
  · exact ⟨fun hfresh => absurd hfresh hdone, h.video, forall_mem_concat h.audio (haudio htrack),
      fun f hf => nomatch hf⟩

theorem Queued.step {told : List Event} (hstep : Step r told r') (hframed : r.Framed)
    (h : r.Queued) : r'.Queued := by
  cases hstep with
  | header => exact ⟨h.fresh, h.video, h.audio, h.pending⟩
  | opened hne hfull hopen =>
    rcases openBox_cases hopen with ⟨-, kind, rfl⟩ | ⟨kind, size, headerSize, hbegin⟩
    · exact ⟨h.fresh, h.video, h.audio, h.pending⟩
    · refine Queued.beginBox ?_ hbegin
      exact ⟨h.fresh, h.video, h.audio, h.pending⟩
  | body =>
    unfold writeCurrentBoxData
    split <;> exact ⟨h.fresh, h.video, h.audio, h.pending⟩
  | closed hend hmoof hmdat hclose =>
    obtain ⟨_, _, _, _, _, rfl⟩ := hclose
    exact ⟨h.fresh, h.video, h.audio, h.pending⟩
  | moof hend hkind hparse hmoof =>
    have h' := h.completeMoof (hframed.moof hend.1 hkind).1 hmoof
    exact ⟨h'.fresh, h'.video, h'.audio, h'.pending⟩
  | mdat hend hkind hmdat => exact h.completeMdat hmdat
  | reset => exact ⟨h.fresh, h.video, h.audio, h.pending⟩
  | build hbuild hnew => exact h.tryBuildSegment hbuild
  | remainder hbuild hnew => exact h.remainder hbuild
  | defer => exact ⟨h.fresh, h.video, h.audio, h.pending⟩
  | taken => exact ⟨h.fresh, h.video, h.audio, h.pending⟩
  | targeted htarget =>
    unfold setTargetSegment at htarget
    split at htarget
    · cases htarget
      exact h
    · obtain ⟨u, -, htarget⟩ := bind_eq_ok.mp htarget
      cases htarget
      exact ⟨h.fresh, h.video, h.audio, h.pending⟩
  | moved => exact ⟨h.fresh, h.video, h.audio, h.pending⟩

/-- A reader that got where it is by reading a stream from its start. -/
def Reachable (r : Reader) : Prop := ∃ r₀ : Reader, r₀.Blank ∧ r₀.Leads r

theorem Reachable.leads (h : r.Reachable) (hleads : r.Leads r') : r'.Reachable := by
  obtain ⟨r₀, hblank, hfirst⟩ := h
  exact ⟨r₀, hblank, hfirst.trans hleads⟩

theorem Reachable.framed (h : r.Reachable) : r.Framed := by
  obtain ⟨r₀, hblank, log, hrun⟩ := h
  exact hrun.keeps (fun _ _ _ hstep => Framed.step hstep) hblank.framed

theorem Reachable.queued (h : r.Reachable) : r.Queued := by
  obtain ⟨r₀, hblank, log, hrun⟩ := h
  have hboth := hrun.keeps (P := fun r => r.Framed ∧ r.Queued)
    (fun _ _ _ hstep h => ⟨h.1.step hstep, h.2.step hstep h.1⟩) ⟨hblank.framed, hblank.queued⟩
  exact hboth.2

end Reader

end Rustorr.Mp4
