import Rustorr.Gst.Cue

/-! What the cue timeline is made of: no step of reading it faults, and it starts at the times
of the cue points that have a position in the video track. -/

namespace Rustorr.Gst

open Checked

variable {data : Bytes} {e : Element}

/-! ### Metadata -/

theorem returns_findSegment (data : Bytes) :
    Returns (findSegment data) ∧ ∀ segment, findSegment data = .ok (some segment) →
      segment.Within data := by
  obtain ⟨found, hfound, hebml⟩ := readElementAt_ok data 0
  unfold findSegment
  rw [hfound, Except.ok_bind]
  split
  · exact ⟨returns_ok _, fun _ h => nomatch h⟩
  next ebml =>
  rw [(hebml ebml rfl).2.end_eq, Except.ok_bind]
  split
  · exact ⟨returns_ok _, fun _ h => nomatch h⟩
  obtain ⟨found, hfound, hsegment⟩ := readElementAt_ok data ebml.stop
  rw [hfound, Except.ok_bind]
  split
  · exact ⟨returns_ok _, fun _ h => nomatch h⟩
  next segment =>
  refine ⟨returns_ok _, fun s hs => ?_⟩
  split at hs
  · cases hs
    exact (hsegment segment rfl).2
  · cases hs

theorem returns_seekField (s : ℕ × Option ℕ) (e : Element) (h : e.Within data) :
    Returns (seekField data s e) := by
  unfold seekField
  split
  · exact returns_bind (returns_unsigned h) fun _ _ => returns_ok _
  · split
    · exact returns_bind (returns_unsigned h) fun _ _ => returns_ok _
    · exact returns_ok _

theorem returns_seekEntry (positions : Positions) (e : Element) (h : e.Within data) :
    Returns (seekEntry data positions e) := by
  unfold seekEntry
  split
  · exact returns_ok _
  · obtain ⟨fields, hfields, hwithin⟩ := exists_children h
    rw [hfields, Except.ok_bind]
    refine returns_bind (returns_foldlM returns_seekField hwithin _) fun s _ => ?_
    obtain ⟨target, position⟩ := s
    cases position <;> exact returns_ok _

theorem returns_parseSeekHead (h : e.Within data) (positions : Positions) :
    Returns (parseSeekHead data e positions) := by
  obtain ⟨entries, hentries, hwithin⟩ := exists_children h
  unfold parseSeekHead
  rw [hentries, Except.ok_bind]
  exact returns_foldlM returns_seekEntry hwithin _

theorem returns_parseTimestampScale (h : e.Within data) (result : ℕ) :
    Returns (parseTimestampScale data e result) := by
  obtain ⟨fields, hfields, hwithin⟩ := exists_children h
  unfold parseTimestampScale
  rw [hfields, Except.ok_bind]
  split
  · exact returns_ok _
  next child hchild =>
  refine returns_bind (returns_unsigned (hwithin child (List.mem_of_find?_eq_some hchild))) ?_
  intro value _
  cases value <;> exact returns_ok _

theorem returns_trackField (s : ℕ × ℕ) (e : Element) (h : e.Within data) :
    Returns (trackField data s e) := by
  unfold trackField
  split
  · exact returns_bind (returns_unsigned h) fun _ _ => returns_ok _
  · split
    · exact returns_bind (returns_unsigned h) fun _ _ => returns_ok _
    · exact returns_ok _

theorem returns_videoTrackNumber (h : e.Within data) : Returns (videoTrackNumber data e) := by
  obtain ⟨entries, hentries, hwithin⟩ := exists_children h
  unfold videoTrackNumber
  rw [hentries, Except.ok_bind]
  clear hentries h
  induction entries with
  | nil => exact returns_ok 0
  | cons entry rest ih =>
    have hrest := ih fun e he => hwithin e (List.mem_cons_of_mem entry he)
    unfold firstVideoTrack
    split
    · exact hrest
    · obtain ⟨fields, hfields, hin⟩ := exists_children (hwithin entry List.mem_cons_self)
      rw [hfields, Except.ok_bind]
      refine returns_bind (returns_foldlM returns_trackField hin _) fun s _ => ?_
      obtain ⟨number, kind⟩ := s
      dsimp only
      split
      · exact returns_ok _
      · exact hrest

theorem returns_parsePrefix (data : Bytes) (offset : ℕ) (found : Metadata) :
    Returns (parsePrefix data offset found) := by
  refine returns_scan (fun found e h => ?_) found
  unfold prefixElement
  split
  · exact returns_bind (returns_parseSeekHead h _) fun _ _ => returns_ok _
  · split
    · exact returns_bind (returns_parseTimestampScale h _) fun _ _ => returns_ok _
    · split
      · exact returns_bind (returns_videoTrackNumber h) fun _ _ => returns_ok _
      · exact returns_ok _

/-! ### Cue points -/

/-- The last child with the id. -/
def lastOf (id : ℕ) (l : List Element) : Option Element := (l.filter fun e => e.id = id).getLast?

/-- The children of an element, which fill it. -/
def Children (data : Bytes) (parent : Element) (l : List Element) : Prop :=
  Walk data parent.stop parent.dataOffset l true

/-- The positions of a cue point are those of a cluster in the video track. -/
def VideoPosition (data : Bytes) (positions : Element) (videoTrack : ℕ) : Prop :=
  ∃ l, Children data positions l ∧
    ((lastOf CUE_TRACK l).bind (number data)).getD 0 = videoTrack ∧
    ((lastOf CUE_CLUSTER_POSITION l).bind (number data)).isSome = true

/-- The time of a cue point that has a position in the video track. -/
def CueTime (data : Bytes) (point : Element) (videoTrack time : ℕ) : Prop :=
  ∃ l, Children data point l ∧ (lastOf CUE_TIME l).bind (number data) = some time ∧
    ∃ positions ∈ l, positions.id = CUE_TRACK_POSITIONS ∧ VideoPosition data positions videoTrack

/-- A time of the cues in nanoseconds. -/
def CueStart (data : Bytes) (cues : Element) (videoTrack scale ns : ℕ) : Prop :=
  ∃ points, Children data cues points ∧ ∃ point ∈ points, point.id = CUE_POINT ∧
    ∃ time, CueTime data point videoTrack time ∧ time * scale = ns

theorem lastOf_cons (id : ℕ) (e : Element) (l : List Element) :
    lastOf id (e :: l) = (lastOf id l).or (if e.id = id then some e else none) := by
  unfold lastOf
  rw [List.filter_cons]
  by_cases h : e.id = id
  · rw [if_pos (decide_eq_true h), if_pos h, List.getLast?_cons]
    cases (l.filter fun e => decide (e.id = id)).getLast? <;> rfl
  · rw [if_neg (by rw [decide_eq_false h]; exact Bool.false_ne_true), if_neg h, Option.or_none]

theorem foldl_lastOf {σ : Type} (id : ℕ) (f : Element → σ) (l : List Element) (s : σ) :
    l.foldl (fun s e => if e.id = id then f e else s) s = ((lastOf id l).map f).getD s := by
  induction l generalizing s with
  | nil => rfl
  | cons e l ih =>
    rw [List.foldl_cons, ih, lastOf_cons]
    by_cases h : e.id = id
    · rw [if_pos h, if_pos h]
      cases lastOf id l <;> rfl
    · rw [if_neg h, if_neg h, Option.or_none]

theorem foldl_any (c : Element → Bool) (l : List Element) (s : Bool) :
    l.foldl (fun s e => if c e = true then true else s) s = (s || l.any c) := by
  induction l generalizing s with
  | nil => exact (Bool.or_false s).symm
  | cons e l ih =>
    rw [List.foldl_cons, ih, List.any_cons]
    cases c e <;> cases s <;> rfl

/-- A loop that goes through all elements and keeps two things apart. -/
theorem runLoop_pair {σ τ ρ : Type} (p : σ → Element → σ) (q : τ → Element → τ)
    (finish : σ × τ → ρ) (l : List Element) (s : σ × τ) :
    runLoop (fun s e => .inl (p s.1 e, q s.2 e)) finish l s =
      finish (l.foldl p s.1, l.foldl q s.2) := by
  induction l generalizing s with
  | nil => rfl
  | cons e l ih => exact ih _

theorem videoPositionField_eq (s : ℕ × Bool) (e : Element) (h : e.Within data) :
    videoPositionField data s e = .ok (.inl (if e.id = CUE_TRACK then (number data e).getD 0 else s.1,
      if e.id = CUE_CLUSTER_POSITION then (number data e).isSome else s.2)) := by
  unfold videoPositionField
  rw [unsigned_eq h]
  by_cases htrack : e.id = CUE_TRACK
  · have hother : e.id ≠ CUE_CLUSTER_POSITION := by
      rw [htrack]
      decide
    rw [if_pos htrack, if_pos htrack, if_neg hother]
    rfl
  · rw [if_neg htrack, if_neg htrack]
    split
    · rfl
    · rfl

theorem hasVideoPosition_spec (h : e.Within data) (videoTrack : ℕ) :
    ∃ b, hasVideoPosition data e videoTrack = .ok b ∧
      (b = true ↔ VideoPosition data e videoTrack) := by
  obtain ⟨l, full, hwalk, hl⟩ := exists_walk data e.stop e.dataOffset
  unfold hasVideoPosition
  rw [h.end_eq, Except.ok_bind, scan_eq videoPositionField_eq hwalk (by omega),
    runLoop_pair (fun track e => if e.id = CUE_TRACK then (number data e).getD 0 else track)
      (fun found e => if e.id = CUE_CLUSTER_POSITION then (number data e).isSome else found),
    foldl_lastOf, foldl_lastOf]
  refine ⟨_, rfl, ?_⟩
  cases full with
  | false =>
    refine ⟨(fun hb => nomatch hb), fun ⟨l', hl', _⟩ => ?_⟩
    cases (hwalk.unique hl').2
  | true =>
    have htrack : ((lastOf CUE_TRACK l).map fun e => (number data e).getD 0).getD 0 =
        ((lastOf CUE_TRACK l).bind (number data)).getD 0 := by
      cases lastOf CUE_TRACK l <;> rfl
    have hcluster : ((lastOf CUE_CLUSTER_POSITION l).map fun e => (number data e).isSome).getD
        false = ((lastOf CUE_CLUSTER_POSITION l).bind (number data)).isSome := by
      cases lastOf CUE_CLUSTER_POSITION l <;> rfl
    rw [if_pos rfl, Bool.and_eq_true, beq_iff_eq, htrack, hcluster]
    refine ⟨fun hb => ⟨l, hwalk, hb⟩, fun ⟨l', hl', hb⟩ => ?_⟩
    obtain rfl := (hwalk.unique hl').1
    exact hb

/-- What `has_video_position` answers. -/
def positionIn (data : Bytes) (videoTrack : ℕ) (e : Element) : Bool :=
  match hasVideoPosition data e videoTrack with
  | .ok b => b
  | .error _ => false

theorem hasVideoPosition_eq (h : e.Within data) (videoTrack : ℕ) :
    hasVideoPosition data e videoTrack = .ok (positionIn data videoTrack e) := by
  obtain ⟨b, hb, -⟩ := hasVideoPosition_spec h videoTrack
  unfold positionIn
  rw [hb]

theorem positionIn_iff (h : e.Within data) (videoTrack : ℕ) :
    positionIn data videoTrack e = true ↔ VideoPosition data e videoTrack := by
  obtain ⟨b, hb, hiff⟩ := hasVideoPosition_spec h videoTrack
  unfold positionIn
  rw [hb]
  exact hiff

theorem cueField_eq (videoTrack : ℕ) (s : Option ℕ × Bool) (e : Element) (h : e.Within data) :
    cueField data videoTrack s e = .ok (.inl (if e.id = CUE_TIME then number data e else s.1,
      if (decide (e.id = CUE_TRACK_POSITIONS) && positionIn data videoTrack e) = true then true
      else s.2)) := by
  unfold cueField
  rw [unsigned_eq h, hasVideoPosition_eq h]
  by_cases htime : e.id = CUE_TIME
  · have hother : decide (e.id = CUE_TRACK_POSITIONS) = false := by
      rw [htime]
      decide
    rw [if_pos htime, if_pos htime, hother]
    rfl
  · rw [if_neg htime, if_neg htime]
    by_cases hpositions : e.id = CUE_TRACK_POSITIONS
    · rw [if_pos hpositions, decide_eq_true hpositions, Bool.true_and]
      rfl
    · rw [if_neg hpositions, decide_eq_false hpositions]
      rfl

theorem videoCueTime_spec (h : e.Within data) (videoTrack : ℕ) :
    ∃ found, videoCueTime data e videoTrack = .ok found ∧
      ∀ time, found = some time ↔ CueTime data e videoTrack time := by
  obtain ⟨l, full, hwalk, hl⟩ := exists_walk data e.stop e.dataOffset
  unfold videoCueTime
  rw [h.end_eq, Except.ok_bind, scan_eq (cueField_eq videoTrack) hwalk (by omega),
    runLoop_pair (fun time e => if e.id = CUE_TIME then number data e else time)
      (fun found e => if (decide (e.id = CUE_TRACK_POSITIONS) && positionIn data videoTrack e) = true
        then true else found),
    foldl_lastOf, foldl_any]
  refine ⟨_, rfl, fun time => ?_⟩
  cases full with
  | false =>
    refine ⟨(fun hb => nomatch hb), fun ⟨l', hl', _⟩ => ?_⟩
    cases (hwalk.unique hl').2
  | true =>
    have htime : ((lastOf CUE_TIME l).map (number data)).getD none =
        (lastOf CUE_TIME l).bind (number data) := by
      cases lastOf CUE_TIME l <;> rfl
    have hposition : (false || l.any fun e => decide (e.id = CUE_TRACK_POSITIONS) &&
        positionIn data videoTrack e) = true ↔
        ∃ p ∈ l, p.id = CUE_TRACK_POSITIONS ∧ VideoPosition data p videoTrack := by
      rw [Bool.false_or, List.any_eq_true]
      refine exists_congr fun p => and_congr_right fun hp => ?_
      rw [Bool.and_eq_true, decide_eq_true_iff, positionIn_iff (hwalk.within p hp)]
    rw [if_pos rfl, Option.filter_eq_some_iff, htime, hposition]
    refine ⟨fun hb => ⟨l, hwalk, hb⟩, fun ⟨l', hl', hb⟩ => ?_⟩
    obtain rfl := (hwalk.unique hl').1
    exact hb

/-! ### The times of the cues -/

/-- The time that a point gives to the timeline. -/
def cueNs (data : Bytes) (videoTrack scale durationNs : ℕ) (point : Element) : Option ℕ :=
  if point.id ≠ CUE_POINT then none
  else match videoCueTime data point videoTrack with
    | .ok (some time) => if time * scale < durationNs then some (time * scale) else none
    | _ => none

theorem cueNs_eq_some (h : e.Within data) {videoTrack scale durationNs ns : ℕ} :
    cueNs data videoTrack scale durationNs e = some ns ↔ e.id = CUE_POINT ∧
      (∃ time, CueTime data e videoTrack time ∧ time * scale = ns) ∧ ns < durationNs := by
  obtain ⟨found, hfound, hspec⟩ := videoCueTime_spec h videoTrack
  unfold cueNs
  rw [hfound]
  by_cases hid : e.id = CUE_POINT
  · rw [if_neg (not_not.mpr hid)]
    cases found with
    | none =>
      refine ⟨(fun hns => nomatch hns), fun ⟨_, ⟨time, htime, _⟩, _⟩ => ?_⟩
      cases (hspec time).mpr htime
    | some time =>
      dsimp only
      split
      · next hlt =>
        rw [Option.some.injEq]
        refine ⟨?_, fun ⟨_, ⟨other, hother, hns⟩, _⟩ => ?_⟩
        · rintro rfl
          exact ⟨hid, ⟨time, (hspec time).mp rfl, rfl⟩, hlt⟩
        · rw [Option.some.inj ((hspec other).mpr hother), hns]
      · next hge =>
        refine ⟨(fun hns => nomatch hns), fun ⟨_, ⟨other, hother, hns⟩, hlt⟩ => ?_⟩
        rw [Option.some.inj ((hspec other).mpr hother), hns] at hge
        exact absurd hlt hge
  · rw [if_pos hid]
    exact ⟨(fun hns => nomatch hns), fun hns => absurd hns.1 hid⟩

/-- A round of the loop over the points. -/
def cueRound (data : Bytes) (videoTrack scale durationNs : ℕ) (times : List ℕ) (point : Element) :
    List ℕ ⊕ Option (List ℕ) :=
  match cueNs data videoTrack scale durationNs point with
  | none => .inl times
  | some ns =>
    if (times ++ [ns]).length > MAX_CUE_POINTS then .inr none else .inl (times ++ [ns])

variable {videoTrack scale durationNs : ℕ}

theorem cuePoint_eq (hscale : scale ≠ 0) (hduration : durationNs < 2 ^ 64) (times : List ℕ)
    (e : Element) (h : e.Within data) :
    cuePoint data videoTrack scale durationNs times e =
      .ok (cueRound data videoTrack scale durationNs times e) := by
  obtain ⟨found, hfound, -⟩ := videoCueTime_spec h videoTrack
  unfold cuePoint cueRound cueNs
  rw [hfound]
  split
  · rfl
  rw [Except.ok_bind]
  cases found with
  | none => rfl
  | some time =>
    dsimp only
    rw [div_of_ne_zero hscale, Except.ok_bind]
    have hpos : 0 < scale := Nat.pos_of_ne_zero hscale
    by_cases hsmall : time ≤ (2 ^ 64 - 1) / scale
    · have hmul : time * scale < 2 ^ 64 := by
        have := (Nat.le_div_iff_mul_le hpos).mp hsmall
        omega
      rw [if_pos hsmall, mul_of_lt hmul, Except.ok_bind]
      split
      · dsimp only
        split <;> rfl
      · rfl
    · -- a product that would overflow is past the duration
      have hlarge : ¬time * scale < durationNs := by
        have := mt (Nat.le_div_iff_mul_le hpos).mpr hsmall
        omega
      rw [if_neg hsmall, if_neg hlarge]

theorem runLoop_cueRound (finish : List ℕ → Option (List ℕ)) (l : List Element)
    (times : List ℕ) :
    runLoop (cueRound data videoTrack scale durationNs) finish l times = none ∨
      runLoop (cueRound data videoTrack scale durationNs) finish l times =
        finish (times ++ l.filterMap (cueNs data videoTrack scale durationNs)) := by
  induction l generalizing times with
  | nil => exact Or.inr (by rw [List.filterMap_nil, List.append_nil]; rfl)
  | cons e l ih =>
    unfold runLoop
    have hround : cueRound data videoTrack scale durationNs times e =
      match cueNs data videoTrack scale durationNs e with
      | none => .inl times
      | some ns =>
        if (times ++ [ns]).length > MAX_CUE_POINTS then .inr none else .inl (times ++ [ns]) := rfl
    rw [hround, List.filterMap_cons]
    cases cueNs data videoTrack scale durationNs e with
    | none => exact ih times
    | some ns =>
      dsimp only
      split
      · next s hs =>
        split at hs
        · cases hs
        · cases hs
          have hrest := ih (times ++ [ns])
          rw [List.append_assoc] at hrest
          exact hrest
      · next r hr =>
        split at hr
        · cases hr
          exact Or.inl rfl
        · cases hr

/-- What the loop over the points gives to the timeline. -/
theorem cueTimes_spec (data : Bytes) (cues : Element) (videoTrack : ℕ) (hscale : scale ≠ 0)
    (hduration : durationNs < 2 ^ 64) :
    ∃ found, scan data cues.stop (fun _ => none) some (cuePoint data videoTrack scale durationNs)
        (data.length + 1) cues.dataOffset [] = .ok found ∧
      ∀ times, found = some times → ∀ ns,
        ns ∈ times ↔ CueStart data cues videoTrack scale ns ∧ ns < durationNs := by
  obtain ⟨l, full, hwalk, hl⟩ := exists_walk data cues.stop cues.dataOffset
  rw [scan_eq (cuePoint_eq hscale hduration) hwalk (by omega)]
  refine ⟨_, rfl, fun times htimes ns => ?_⟩
  rcases runLoop_cueRound (if full then some else fun _ => none) l [] with hnone | hsome
  · rw [hnone] at htimes
    cases htimes
  rw [hsome, List.nil_append] at htimes
  cases full with
  | false => cases htimes
  | true =>
    obtain rfl : l.filterMap (cueNs data videoTrack scale durationNs) = times :=
      Option.some.inj htimes
    rw [List.mem_filterMap]
    constructor
    · rintro ⟨point, hpoint, hns⟩
      obtain ⟨hid, htime, hlt⟩ := (cueNs_eq_some (hwalk.within point hpoint)).mp hns
      exact ⟨⟨l, hwalk, point, hpoint, hid, htime⟩, hlt⟩
    · rintro ⟨⟨l', hl', point, hpoint, hid, htime⟩, hlt⟩
      obtain rfl := (hwalk.unique hl').1
      exact ⟨point, hpoint, (cueNs_eq_some (hwalk.within point hpoint)).mpr ⟨hid, htime, hlt⟩⟩

/-! ### Segments -/

theorem starts_segmentsFrom {previous : ℕ} {times : List ℕ}
    (hsorted : (previous :: times).Pairwise (· ≤ ·)) (hlt : ∀ t ∈ previous :: times, t < durationNs)
    (ns : ℕ) : (∃ s ∈ segmentsFrom durationNs previous times, s.startNs = ns) ↔
      ns ∈ previous :: times := by
  induction times generalizing previous with
  | nil =>
    unfold segmentsFrom
    rw [if_pos (hlt previous List.mem_cons_self)]
    simp only [List.mem_singleton, exists_eq_left, eq_comm]
  | cons current rest ih =>
    obtain ⟨hhead, htail⟩ := List.pairwise_cons.mp hsorted
    have hle : previous ≤ current := hhead current List.mem_cons_self
    unfold segmentsFrom
    split
    · next hback =>
      -- the same time once more
      obtain rfl : previous = current := le_antisymm hle hback
      rw [ih htail (fun t ht => hlt t (List.mem_cons_of_mem _ ht))]
      simp only [List.mem_cons, or_self_left]
    · next hahead =>
      have hrest := ih htail (fun t ht => hlt t (List.mem_cons_of_mem _ ht))
      rw [List.mem_cons, ← hrest, eq_comm]
      simp only [List.mem_cons, exists_eq_or_imp]

theorem getLast?_segmentsFrom {previous : ℕ} {times : List ℕ}
    (hlt : ∀ t ∈ previous :: times, t < durationNs) :
    (segmentsFrom durationNs previous times).getLast?.map CueSegment.endNs = some durationNs := by
  induction times generalizing previous with
  | nil =>
    unfold segmentsFrom
    rw [if_pos (hlt previous List.mem_cons_self)]
    rfl
  | cons current rest ih =>
    unfold segmentsFrom
    split
    · refine ih fun t ht => hlt t ?_
      rcases List.mem_cons.mp ht with rfl | ht
      · exact List.mem_cons_self
      · exact List.mem_cons_of_mem _ (List.mem_cons_of_mem _ ht)
    · have hrest := ih fun t ht => hlt t (List.mem_cons_of_mem _ ht)
      obtain ⟨last, hlast, hend⟩ := Option.map_eq_some_iff.mp hrest
      rw [List.getLast?_cons, hlast]
      exact congrArg some hend

theorem mapM_durationNs {segments : List CueSegment}
    (h : ∀ s ∈ segments, s.startNs < s.endNs) :
    segments.mapM CueSegment.durationNs = .ok (segments.map fun s => s.endNs - s.startNs) := by
  induction segments with
  | nil => rfl
  | cons s rest ih =>
    have hs : CueSegment.durationNs s = .ok (s.endNs - s.startNs) :=
      sub_of_le (h s List.mem_cons_self).le
    rw [List.mapM_cons, hs, ih fun s hs => h s (List.mem_cons_of_mem _ hs)]
    rfl

/-- The segments of a timeline begin at the given times, the last one ends with the source, and
its longest duration is that of a segment. -/
structure Describes (starts : ℕ → Prop) (scale durationNs : ℕ) (t : CueTimeline) : Prop where
  starts_iff : ∀ ns, (∃ s ∈ t.segments, s.startNs = ns) ↔ starts ns
  nonempty : ∀ s ∈ t.segments, s.startNs < s.endNs
  contiguous : t.segments.IsChain fun a b => a.endNs = b.startNs
  increasing : t.segments.Pairwise fun a b => a.endNs ≤ b.startNs
  last : t.segments.getLast?.map CueSegment.endNs = some durationNs
  longest : ∃ s ∈ t.segments, s.endNs - s.startNs = t.maxDurationNs
  bound : ∀ s ∈ t.segments, s.endNs - s.startNs ≤ t.maxDurationNs
  scale : t.timestampScaleNs = scale

theorem timelineOf_spec (scale : ℕ) {times : List ℕ} (hlt : ∀ t ∈ times, t < durationNs) :
    ∃ found, timelineOf scale durationNs times = .ok found ∧
      ∀ t, found = some t → Describes (· ∈ times) scale durationNs t := by
  have hmem : ∀ ns, ns ∈ times.mergeSort ↔ ns ∈ times := fun ns => List.mem_mergeSort
  have hsorted : times.mergeSort.Pairwise (· ≤ ·) := List.pairwise_mergeSort' _ times
  unfold timelineOf
  split
  · exact ⟨none, rfl, fun _ h => nomatch h⟩
  next hlength =>
  split
  · next hnil =>
    have hlen : times.mergeSort.length = times.length := List.length_mergeSort times
    rw [hnil, List.length_nil] at hlen
    omega
  next first rest hcons =>
  rw [hcons] at hsorted
  have hbelow : ∀ t ∈ first :: rest, t < durationNs := fun t ht =>
    hlt t ((hmem t).mp (hcons ▸ ht))
  split
  · exact ⟨none, rfl, fun _ h => nomatch h⟩
  next hsome =>
  have hnonempty := segmentsFrom_nonempty durationNs first rest
  rw [mapM_durationNs hnonempty, Except.ok_bind]
  refine ⟨_, rfl, fun t ht => ?_⟩
  obtain rfl := Option.some.inj ht
  have hdurations : (segmentsFrom durationNs first rest).map (fun s => s.endNs - s.startNs) ≠ [] :=
    fun hnil => hsome (List.map_eq_nil_iff.mp hnil)
  obtain ⟨longest, hlongest⟩ := Option.isSome_iff_exists.mp
    (List.isSome_max?_iff.mpr hdurations)
  obtain ⟨hin, hmax⟩ := List.max?_eq_some_iff.mp hlongest
  refine ⟨fun ns => ?_, hnonempty, segmentsFrom_contiguous durationNs first rest,
    CueTimeline.ordered _, getLast?_segmentsFrom hbelow, ?_, fun s hs => ?_, rfl⟩
  · rw [← hmem ns, hcons]
    exact starts_segmentsFrom hsorted hbelow ns
  · obtain ⟨s, hs, heq⟩ := List.mem_map.mp hin
    refine ⟨s, hs, ?_⟩
    show _ = Option.getD _ 0
    rw [hlongest]
    exact heq
  · show _ ≤ Option.getD _ 0
    rw [hlongest]
    exact hmax _ (List.mem_map_of_mem hs)

theorem parseTimeline_spec {cues : Element} (h : cues.Within data) (videoTrack : ℕ) (hscale : scale ≠ 0)
    (hduration : durationNs < 2 ^ 64) :
    ∃ found, parseTimeline data cues videoTrack scale durationNs = .ok found ∧
      ∀ t, found = some t → Describes
        (fun ns => CueStart data cues videoTrack scale ns ∧ ns < durationNs) scale durationNs t := by
  obtain ⟨found, hfound, hspec⟩ := cueTimes_spec data cues videoTrack hscale hduration
  unfold parseTimeline
  rw [h.end_eq, Except.ok_bind, hfound, Except.ok_bind]
  cases found with
  | none => exact ⟨none, rfl, fun _ h => nomatch h⟩
  | some times =>
    have htimes := hspec times rfl
    obtain ⟨t, ht, hdescribes⟩ := timelineOf_spec scale fun ns hns => ((htimes ns).mp hns).2
    refine ⟨t, ht, fun t' ht' => ?_⟩
    have hall := hdescribes t' ht'
    exact { hall with starts_iff := fun ns => (hall.starts_iff ns).trans (htimes ns) }

/-! ### Reading -/

open Prog in
theorem yields_readElement (segmentOffset relative expected : ℕ) {maxLength : ℕ}
    (hmax : maxLength ≤ MAX_CUES) (contentLength : I64) :
    Yields (fun _ => True) (readElement segmentOffset relative expected maxLength contentLength) := by
  obtain ⟨hlow, hhigh⟩ := contentLength.property
  have hcues : MAX_CUES = 67108864 := rfl
  unfold readElement
  split
  · exact yields_pure trivial
  next offset _ =>
  split
  · exact yields_pure trivial
  next hoffset =>
  have hi64 : asI64 offset = offset := if_pos (by omega)
  have hsub : 0 < contentLength.val →
      subI64 contentLength.val (asI64 offset) = .ok (contentLength.val - asI64 offset) := by
    intro hpos
    refine subI64_of_mem ?_
    rw [hi64]
    constructor
    · omega
    · omega
  have hleft : Returns (if contentLength.val > 0 then subI64 contentLength.val (asI64 offset)
      else .ok 16) := by
    split
    · next hpos => exact ⟨_, hsub hpos⟩
    · exact returns_ok _
  obtain ⟨left, hleft⟩ := hleft
  refine yields_bind_ofExcept hleft ?_
  dsimp only
  generalize (if left < 16 then left else 16) = headerLength
  split
  · exact yields_pure trivial
  refine yields_bind (yields_perform fun _ => trivial) fun header _ => ?_
  split
  · exact yields_pure trivial
  next header =>
  obtain ⟨found, hfound, hwithin⟩ := readElementAt_ok header 0
  refine yields_bind_ofExcept hfound ?_
  split
  · exact yields_pure trivial
  next element =>
  obtain ⟨-, hin⟩ := hwithin element rfl
  split
  · exact yields_pure trivial
  next hgood =>
  have hsize : element.size ≤ maxLength := by
    by_contra hlarge
    exact hgood (Or.inr (Or.inr (not_le.mp hlarge)))
  have hheader := hin.header
  refine yields_bind_ofExcept (sub_of_le hin.advances.le) ?_
  refine yields_bind_ofExcept (add_of_lt (by omega)) ?_
  refine yields_bind_ofExcept (add_of_lt (by omega)) ?_
  generalize element.dataOffset - element.offset + element.size = total
  split
  · exact yields_pure trivial
  have hpast : Returns (if contentLength.val > 0 then
      if asI64 offset > contentLength.val then .ok true
      else do
        let left ← subI64 contentLength.val (asI64 offset)
        .ok (decide (asI64 total > left))
      else .ok false) := by
    split
    · next hpos =>
      split
      · exact returns_ok _
      · exact returns_bind ⟨_, hsub hpos⟩ fun _ _ => returns_ok _
    · exact returns_ok _
  obtain ⟨past, hpast⟩ := hpast
  refine yields_bind_ofExcept hpast ?_
  split
  · exact yields_pure trivial
  · exact yields_perform fun _ => trivial

open Prog in
theorem yields_readAt (segmentData : ℕ) (positions : Positions) (id : ℕ) {max : ℕ}
    (hmax : max ≤ MAX_CUES) (contentLength : I64) :
    Yields (fun _ => True) (readAt segmentData positions id max contentLength) := by
  unfold readAt
  split
  · exact yields_pure trivial
  · exact yields_readElement _ _ _ hmax contentLength

open Prog in
theorem yields_readTracks (segmentData : ℕ) (found : Metadata) (contentLength : I64) :
    Yields (fun _ => True) (readTracks segmentData found contentLength) := by
  unfold readTracks
  split
  · exact yields_pure trivial
  refine yields_bind (yields_readAt _ _ _ (by decide) _) fun data _ => ?_
  split
  · exact yields_pure trivial
  next data =>
  obtain ⟨element, helement, hwithin⟩ := readElementAt_ok data 0
  refine yields_bind_ofExcept helement ?_
  split
  · exact yields_pure trivial
  next tracks =>
  obtain ⟨track, htrack⟩ := returns_videoTrackNumber (hwithin tracks rfl).2
  exact yields_ofExcept htrack trivial

open Prog in
theorem yields_readScale (segmentData : ℕ) (found : Metadata) (contentLength : I64) :
    Yields (fun _ => True) (readScale segmentData found contentLength) := by
  unfold readScale
  refine yields_bind (yields_readAt _ _ _ (by decide) _) fun data _ => ?_
  split
  · exact yields_pure trivial
  next data =>
  obtain ⟨element, helement, hwithin⟩ := readElementAt_ok data 0
  refine yields_bind_ofExcept helement ?_
  split
  · exact yields_pure trivial
  next info =>
  obtain ⟨scale, hscale⟩ := returns_parseTimestampScale (hwithin info rfl).2 found.scale
  exact yields_ofExcept hscale trivial

open Prog in
/-- The metadata are read without a fault, and those that are used have a scale. -/
theorem yields_readMetadata (contentLength : I64) :
    Yields (fun found => ∀ m, found = some m → m.2.scale ≠ 0) (readMetadata contentLength) := by
  unfold readMetadata
  dsimp only
  refine yields_bind (yields_perform fun _ => trivial) fun data _ => ?_
  split
  · exact yields_pure nofun
  next data =>
  obtain ⟨segment, hsegment⟩ := (returns_findSegment data).1
  refine yields_bind_ofExcept hsegment ?_
  split
  · exact yields_pure nofun
  next segment =>
  obtain ⟨found, hfound⟩ := returns_parsePrefix data segment.dataOffset
    ⟨[], DEFAULT_TIMESTAMP_SCALE_NS, 0⟩
  refine yields_bind_ofExcept hfound ?_
  refine yields_bind (yields_readTracks _ _ _) fun videoTrack _ => ?_
  refine yields_bind (yields_readScale _ _ _) fun scale _ => ?_
  split
  · exact yields_pure nofun
  next hall =>
  refine yields_pure fun m hm => ?_
  cases hm
  exact fun hzero => hall (Or.inr (Or.inr hzero))

open Prog in
/-- For every source, length and duration, and however the ranges are answered: no operation
faults and every loop ends; a timeline that is returned begins its segments at the times of
the cue points with a position in the video track, and ends with the source. -/
theorem read_timeline_describes {σ : Type} (contentLength durationNs : I64)
    (answer : (c : ReadRange) → σ → Option Bytes × σ) (s : σ) :
    ∃ found s', (readTimeline contentLength durationNs).run (answering answer) s =
        (some (.ok found), s') ∧
      ∀ t, found = some t → ∃ segmentData m s₁ cues root,
        (readMetadata contentLength).run (answering answer) s =
          (some (.ok (some (segmentData, m))), s₁) ∧
        (readAt segmentData m.positions CUES MAX_CUES contentLength).run (answering answer) s₁ =
          (some (.ok (some cues)), s') ∧
        readElementAt cues 0 = .ok (some root) ∧
        Describes (fun ns => CueStart cues root m.videoTrack m.scale ns ∧ ns < durationNs.val)
          m.scale durationNs.val.toNat t := by
  unfold readTimeline
  split
  · exact ⟨none, s, rfl, fun _ h => nomatch h⟩
  next hpositive =>
  obtain ⟨found, s₁, hmetadata, hscale⟩ := (yields_readMetadata contentLength).run answer s
  rw [run_bind_ok hmetadata]
  split
  · exact ⟨none, s₁, rfl, fun _ h => nomatch h⟩
  next segmentData m =>
  have hcues := yields_readAt segmentData m.positions CUES le_rfl contentLength
  obtain ⟨data, s₂, hdata, -⟩ := hcues.run answer s₁
  rw [run_bind_ok hdata]
  split
  · exact ⟨none, s₂, rfl, fun _ h => nomatch h⟩
  next cues =>
  obtain ⟨root, hroot, hwithin⟩ := readElementAt_ok cues 0
  have hread : (ofExcept (readElementAt cues 0) : SourceM (Option Element)).run (answering answer) s₂ =
      (some (.ok root), s₂) := by
    rw [hroot]
    rfl
  rw [run_bind_ok hread]
  split
  · exact ⟨none, s₂, rfl, fun _ h => nomatch h⟩
  next root =>
  have hduration := durationNs.property
  obtain ⟨found, hfound, hspec⟩ := parseTimeline_spec (hwithin root rfl).2 m.videoTrack
    (hscale _ rfl) (show durationNs.val.toNat < 2 ^ 64 by omega)
  rw [hfound]
  refine ⟨found, s₂, rfl, fun t ht => ⟨segmentData, m, s₁, cues, root, hmetadata, hdata, hroot, ?_⟩⟩
  have hdescribes := hspec t ht
  exact { hdescribes with
    starts_iff := fun ns => (hdescribes.starts_iff ns).trans (and_congr_right fun _ => by omega) }

end Rustorr.Gst
