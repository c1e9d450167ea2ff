import Rustorr.Gst.Mp4.Whole

/-! A fragment that is cut in two: what each half holds, and where no cut is made. -/

namespace Rustorr.Mp4

open BigEndian Except

/-- Samples that make a run: none, or some that last and take up bytes. -/
def MakesRun (samples : List Sample) : Prop :=
  samples ≠ [] → durationOf samples ≠ 0 ∧ bytesOf samples ≠ 0

/-- The parts of the runs before and after a number of samples. -/
def partsOf : List Run → ℕ → List (List Sample)
  | [], _ => []
  | run :: rest, n => run.samples.take n :: run.samples.drop n :: partsOf rest (n - run.samples.length)

/-- A sample, and the form that its run has it written in. -/
def Run.written (run : Run) : List (UInt8 × Bool × Sample) :=
  run.samples.map fun s => (run.version, run.hasCompositionTimeOffsets, s)

/-- The samples of a fragment, and how each is written. -/
def Fragment.written (f : Fragment) : List (UInt8 × Bool × Sample) := f.runs.flatMap Run.written

/-- Samples with the bytes each of them has in the source, one after the other. -/
def withBytes (source : List UInt8) : ℕ → List (UInt8 × Bool × Sample) →
    List ((UInt8 × Bool × Sample) × List UInt8)
  | _, [] => []
  | start, s :: rest =>
    (s, (source.drop start).take s.2.2.size.toNat) :: withBytes source (start + s.2.2.size.toNat) rest

/-- The samples of a fragment with their bytes, which each run says where they lie. -/
def Fragment.media (source : List UInt8) (f : Fragment) : List ((UInt8 × Bool × Sample) × List UInt8) :=
  f.runs.flatMap fun run => withBytes source (f.payloadStart + run.payloadOffset) run.written

/-- The bytes of a fragment. -/
def Fragment.payload (source : List UInt8) (f : Fragment) : List UInt8 :=
  (source.drop f.payloadStart).take f.payloadLen

/-- Two fragments that make up a third: in their samples, in time and in bytes. -/
structure AreHalves (f left right : Fragment) : Prop where
  media : ∀ source, left.media source ++ right.media source = f.media source
  payload : ∀ source, left.payload source ++ right.payload source = f.payload source
  durations : left.duration = durationOf left.samples ∧ right.duration = durationOf right.samples
  duration : left.duration + right.duration = f.duration
  decodeTime : left.decodeTime = f.decodeTime
  next : right.decodeTime = left.endTime ∧ left.endTime = left.decodeTime + left.duration
  track : ∀ half ∈ [left, right], half.trackId = f.trackId ∧ half.timescale = f.timescale ∧
    half.sampleDescriptionIndex = f.sampleDescriptionIndex ∧ half.tfhd = f.tfhd
  explicit : ∀ half ∈ [left, right], ∀ run ∈ half.runs, run.hasInferredDuration = false

/-! ### Bytes of samples -/

theorem withBytes_append (source : List UInt8) (start : ℕ) (a b : List (UInt8 × Bool × Sample)) :
    withBytes source start (a ++ b) =
      withBytes source start a ++ withBytes source (start + bytesOf (a.map fun s => s.2.2)) b := by
  induction a generalizing start with
  | nil => rfl
  | cons s a ih =>
    rw [List.cons_append, withBytes, withBytes, ih, List.cons_append, List.map_cons, bytesOf_cons,
      Nat.add_assoc]

theorem map_written (run : Run) : run.written.map (fun s => s.2.2) = run.samples := by
  unfold Run.written
  rw [List.map_map]
  exact List.map_id _

theorem map_written_flatMap (runs : List Run) :
    (runs.flatMap Run.written).map (fun s => s.2.2) = runs.flatMap Run.samples := by
  rw [List.map_flatMap]
  exact congrArg (fun g => runs.flatMap g) (funext map_written)

/-- Where runs lie one after the other, so do their samples. -/
theorem media_of_placed {runs : List Run} {at_ : ℕ} (h : Placed runs at_) (source : List UInt8) (start : ℕ) :
    (runs.flatMap fun run => withBytes source (start + run.payloadOffset) run.written) =
      withBytes source (start + at_) (runs.flatMap Run.written) := by
  induction runs generalizing at_ with
  | nil => rfl
  | cons run rest ih =>
    obtain ⟨hrun, hrest⟩ := h
    rw [List.flatMap_cons, List.flatMap_cons, withBytes_append, ih hrest, hrun, map_written, Nat.add_assoc]

/-! ### Filling the halves -/

/-- A half that holds these samples. -/
structure Half.Holds (half : Half) (written : List (UInt8 × Bool × Sample)) : Prop where
  written : half.runs.flatMap Run.written = written
  runs : ∀ run ∈ half.runs, run.Whole
  explicit : ∀ run ∈ half.runs, run.hasInferredDuration = false
  placed : Placed half.runs 0
  bytes : half.bytes = bytesOf (half.runs.flatMap Run.samples)
  duration : half.duration = durationOf (half.runs.flatMap Run.samples)

theorem Half.holds_nil : ({} : Half).Holds [] :=
  ⟨rfl, fun _ hmem => absurd hmem List.not_mem_nil, fun _ hmem => absurd hmem List.not_mem_nil, trivial, rfl,
    rfl⟩

theorem placed_append {runs more : List Run} {start : ℕ} :
    Placed (runs ++ more) start ↔
      Placed runs start ∧ Placed more (start + bytesOf (runs.flatMap Run.samples)) := by
  induction runs generalizing start with
  | nil => exact ⟨fun h => ⟨trivial, h⟩, fun h => h.2⟩
  | cons run rest ih =>
    rw [List.cons_append, Placed, Placed, ih, List.flatMap_cons, bytesOf_append, Nat.add_assoc, and_assoc]

theorem sumSamples_of_lt {samples : List Sample} {duration dataSize : ℕ}
    (hduration : duration + durationOf samples < 2 ^ 64) (hdataSize : dataSize + bytesOf samples < 2 ^ 64) :
    sumSamples samples duration dataSize =
      .ok (duration + durationOf samples, dataSize + bytesOf samples) := by
  induction samples generalizing duration dataSize with
  | nil => rfl
  | cons s rest ih =>
    rw [durationOf_cons, ← Nat.add_assoc] at hduration
    rw [bytesOf_cons, ← Nat.add_assoc] at hdataSize
    unfold sumSamples
    rw [add64_of_lt ((Nat.le_add_right _ _).trans_lt hduration), ok_bind,
      add64_of_lt ((Nat.le_add_right _ _).trans_lt hdataSize), ok_bind, ih hduration hdataSize,
      durationOf_cons, bytesOf_cons, Nat.add_assoc, Nat.add_assoc]

/-- The run that samples of another make. -/
def explicitRun (template : Run) (samples : List Sample) : Run where
  samples
  duration := durationOf samples
  dataSize := bytesOf samples
  version := template.version
  hasCompositionTimeOffsets := template.hasCompositionTimeOffsets
  startsWithSync := samples.head?.any fun s => isSyncSample s.flags

theorem buildExplicitRun_eq_ok {template run : Run} {samples : List Sample}
    (hduration : durationOf samples < 2 ^ 64) (hdataSize : bytesOf samples < 2 ^ 64) :
    buildExplicitRun template samples = .ok run ↔
      samples ≠ [] ∧ MakesRun samples ∧ run = explicitRun template samples := by
  cases samples with
  | nil => exact ⟨fun h => (nomatch h), fun h => absurd rfl h.1⟩
  | cons first rest =>
    unfold buildExplicitRun MakesRun
    rw [← Nat.zero_add (durationOf (first :: rest))] at hduration
    rw [← Nat.zero_add (bytesOf (first :: rest))] at hdataSize
    simp only [sumSamples_of_lt hduration hdataSize, ok_bind, Nat.zero_add]
    constructor
    · intro h
      obtain ⟨u, hbad, h⟩ := bind_eq_ok.mp h
      rw [failIf_eq_ok, not_or] at hbad
      cases h
      exact ⟨List.cons_ne_nil _ _, fun _ => hbad, rfl⟩
    · rintro ⟨hne, hmakes, rfl⟩
      rw [failIf_of_not (not_or.mpr (hmakes hne))]
      rfl

/-- A half with samples of a run at its end. -/
def Half.filled (half : Half) (source : Run) (samples : List Sample) : Half :=
  if samples = [] then half
  else ⟨half.runs ++ [{ explicitRun source samples with payloadOffset := half.bytes }],
    half.bytes + bytesOf samples, half.duration + durationOf samples⟩

theorem Half.push_eq_ok {half half' : Half} {source : Run} {samples : List Sample}
    (hduration : durationOf samples < 2 ^ 64) (hdataSize : bytesOf samples < 2 ^ 64) :
    half.push source samples = .ok half' ↔ MakesRun samples ∧ half' = half.filled source samples := by
  unfold Half.push Half.filled
  split
  · next hnil =>
    constructor
    · intro h
      exact ⟨fun hne => absurd hnil hne, (Except.ok.inj h).symm⟩
    · rintro ⟨-, rfl⟩
      rfl
  · next hne =>
    constructor
    · intro h
      obtain ⟨run, hrun, h⟩ := bind_eq_ok.mp h
      obtain ⟨-, hmakes, rfl⟩ := (buildExplicitRun_eq_ok hduration hdataSize).mp hrun
      exact ⟨hmakes, (Except.ok.inj h).symm⟩
    · rintro ⟨hmakes, rfl⟩
      rw [(buildExplicitRun_eq_ok hduration hdataSize).mpr ⟨hne, hmakes, rfl⟩]
      rfl

/-- The form of a run, on samples of it. -/
def Run.writes (run : Run) (samples : List Sample) : List (UInt8 × Bool × Sample) :=
  samples.map fun s => (run.version, run.hasCompositionTimeOffsets, s)

theorem Half.Holds.filled {half : Half} {written : List (UInt8 × Bool × Sample)} {source : Run}
    {samples : List Sample} (h : half.Holds written) (hsource : source.Whole)
    (hpart : samples.Sublist source.samples) (hmakes : MakesRun samples) (hdataSize : bytesOf samples < 2 ^ 64) :
    (half.filled source samples).Holds (written ++ source.writes samples) := by
  unfold Half.filled
  split
  · next hnil =>
    rw [hnil, show source.writes [] = [] from rfl, List.append_nil]
    exact h
  · next hne =>
    have hrun : ({ explicitRun source samples with payloadOffset := half.bytes } : Run).Whole :=
      ⟨hne, rfl, rfl, hdataSize, (hmakes hne).2, hsource.version, hpart.length_le.trans hsource.count,
        fun hnone s hmem => hsource.offsets hnone s (hpart.subset hmem)⟩
    constructor
    · show (half.runs ++ [_]).flatMap Run.written = _
      rw [List.flatMap_append, h.written, List.flatMap_singleton]
      rfl
    · intro run hmem
      rcases List.mem_append.mp hmem with hmem | hmem
      · exact h.runs run hmem
      · rw [List.mem_singleton.mp hmem]
        exact hrun
    · intro run hmem
      rcases List.mem_append.mp hmem with hmem | hmem
      · exact h.explicit run hmem
      · rw [List.mem_singleton.mp hmem]
        rfl
    · refine placed_append.mpr ⟨h.placed, ?_, trivial⟩
      rw [Nat.zero_add]
      exact h.bytes
    · show half.bytes + bytesOf samples = bytesOf ((half.runs ++ [_]).flatMap Run.samples)
      rw [List.flatMap_append, bytesOf_append, h.bytes, List.flatMap_singleton]
      rfl
    · show half.duration + durationOf samples = durationOf ((half.runs ++ [_]).flatMap Run.samples)
      rw [List.flatMap_append, durationOf_append, h.duration, List.flatMap_singleton]
      rfl

/-- Parts of samples are not more than all of them. -/
theorem parts_le (samples : List Sample) (n : ℕ) :
    (durationOf (samples.take n) ≤ durationOf samples ∧ durationOf (samples.drop n) ≤ durationOf samples) ∧
      bytesOf (samples.take n) ≤ bytesOf samples ∧ bytesOf (samples.drop n) ≤ bytesOf samples := by
  have hduration := durationOf_append (samples.take n) (samples.drop n)
  have hbytes := bytesOf_append (samples.take n) (samples.drop n)
  rw [List.take_append_drop] at hduration hbytes
  omega

/-- One run of a split: its first samples go to the left, the others to the right. -/
theorem splitRuns_cons {source : Run} {rest : List Run} {n : ℕ} {left right : Half}
    {out : ℕ × Half × Half} (hsource : source.Whole) :
    splitRuns (source :: rest) n left right = .ok out ↔
      (MakesRun (source.samples.take n) ∧ MakesRun (source.samples.drop n)) ∧
        splitRuns rest (n - source.samples.length) (left.filled source (source.samples.take n))
          (right.filled source (source.samples.drop n)) = .ok out := by
  obtain ⟨⟨htake, hdrop⟩, htake', hdrop'⟩ := parts_le source.samples n
  have hduration := hsource.short
  have hbytes := hsource.bytes
  rw [hsource.dataSize] at hbytes
  have hleft := @Half.push_eq_ok left (left.filled source (source.samples.take n)) source
    (source.samples.take n) (htake.trans_lt hduration) (htake'.trans_lt hbytes)
  have hright := @Half.push_eq_ok right (right.filled source (source.samples.drop n)) source
    (source.samples.drop n) (hdrop.trans_lt hduration) (hdrop'.trans_lt hbytes)
  have hrest : n - min n source.samples.length = n - source.samples.length := by omega
  rw [splitRuns, failIf_of_not hsource.samples, ok_bind]
  simp only
  rw [← List.take_eq_take_min, ← List.drop_eq_drop_min, hrest]
  constructor
  · intro h
    obtain ⟨left', hpush, h⟩ := bind_eq_ok.mp h
    obtain ⟨hmakes, rfl⟩ := (Half.push_eq_ok (htake.trans_lt hduration) (htake'.trans_lt hbytes)).mp hpush
    obtain ⟨right', hpush, h⟩ := bind_eq_ok.mp h
    obtain ⟨hmakes', rfl⟩ := (Half.push_eq_ok (hdrop.trans_lt hduration) (hdrop'.trans_lt hbytes)).mp hpush
    exact ⟨⟨hmakes, hmakes'⟩, h⟩
  · rintro ⟨⟨hmakes, hmakes'⟩, h⟩
    rw [hleft.mpr ⟨hmakes, rfl⟩, ok_bind, hright.mpr ⟨hmakes', rfl⟩, ok_bind]
    exact h

theorem splitRuns_ok_iff {runs : List Run} {n : ℕ} {left right : Half} (hruns : ∀ run ∈ runs, run.Whole) :
    (∃ out, splitRuns runs n left right = .ok out) ↔ ∀ part ∈ partsOf runs n, MakesRun part := by
  induction runs generalizing n left right with
  | nil => exact ⟨fun _ part hmem => absurd hmem List.not_mem_nil, fun _ => ⟨_, rfl⟩⟩
  | cons source rest ih =>
    obtain ⟨hsource, hrest⟩ := List.forall_mem_cons.mp hruns
    rw [partsOf, List.forall_mem_cons, List.forall_mem_cons, ← and_assoc]
    constructor
    · rintro ⟨out, h⟩
      obtain ⟨hmakes, h⟩ := (splitRuns_cons hsource).mp h
      exact ⟨hmakes, (ih hrest).mp ⟨out, h⟩⟩
    · rintro ⟨hmakes, hparts⟩
      obtain ⟨out, h⟩ := (ih hrest).mpr hparts
      exact ⟨out, (splitRuns_cons hsource).mpr ⟨hmakes, h⟩⟩

theorem splitRuns_holds {runs : List Run} {n m : ℕ} {left right left' right' : Half}
    {a b : List (UInt8 × Bool × Sample)} (hruns : ∀ run ∈ runs, run.Whole)
    (hleft : left.Holds a) (hright : right.Holds b) (h : splitRuns runs n left right = .ok (m, left', right')) :
    m = n - (runs.flatMap Run.written).length ∧
      left'.Holds (a ++ (runs.flatMap Run.written).take n) ∧
      right'.Holds (b ++ (runs.flatMap Run.written).drop n) := by
  induction runs generalizing n left right a b with
  | nil =>
    cases h
    rw [List.flatMap_nil, List.take_nil, List.drop_nil, List.append_nil, List.append_nil]
    exact ⟨rfl, hleft, hright⟩
  | cons source rest ih =>
    obtain ⟨hsource, hrest⟩ := List.forall_mem_cons.mp hruns
    obtain ⟨⟨hmakes, hmakes'⟩, h⟩ := (splitRuns_cons hsource).mp h
    obtain ⟨-, htake, hdrop⟩ := parts_le source.samples n
    have hbytes := hsource.bytes
    rw [hsource.dataSize] at hbytes
    obtain ⟨hm, hholds, hholds'⟩ := ih hrest
      (hleft.filled hsource (List.take_sublist n _) hmakes (htake.trans_lt hbytes))
      (hright.filled hsource (List.drop_sublist n _) hmakes' (hdrop.trans_lt hbytes)) h
    have hlength : source.written.length = source.samples.length := List.length_map _
    have hwrites : source.writes (source.samples.take n) = source.written.take n := List.map_take
    have hwrites' : source.writes (source.samples.drop n) = source.written.drop n := List.map_drop
    rw [hwrites, List.append_assoc, ← hlength, ← List.take_append] at hholds
    rw [hwrites', List.append_assoc, ← hlength, ← List.drop_append] at hholds'
    refine ⟨?_, hholds, hholds'⟩
    rw [hm, List.flatMap_cons, List.length_append, hlength, Nat.sub_sub]

/-! ### The fragments -/

theorem map_written_samples (f : Fragment) : f.written.map (fun s => s.2.2) = f.samples :=
  map_written_flatMap f.runs

theorem length_written (f : Fragment) : f.written.length = f.sampleCount := by
  rw [← List.length_map (f := fun s : UInt8 × Bool × Sample => s.2.2), map_written_samples]
  unfold Fragment.samples Fragment.sampleCount
  exact List.length_flatMap

theorem Fragment.Laid.sampleCount {f : Fragment} (h : f.Laid) :
    fragmentSampleCount f = .ok f.sampleCount := by
  have hnone : (f.runs.any fun run => run.samples.isEmpty) = false := by
    rw [List.any_eq_false]
    intro run hmem hempty
    exact (h.run run hmem).samples (List.isEmpty_iff.mp hempty)
  have hpos : f.sampleCount ≠ 0 := by
    obtain ⟨first, rest, heq⟩ := List.exists_cons_of_ne_nil h.runs
    have hfirst := (h.run first (by rw [heq]; exact List.mem_cons_self)).samples
    unfold Fragment.sampleCount
    rw [heq, List.map_cons, List.sum_cons]
    have hlength := List.length_pos_iff.mpr hfirst
    omega
  unfold Fragment.sampleCount at hpos ⊢
  unfold fragmentSampleCount
  rw [hnone, failIf_of_not Bool.false_ne_true, ok_bind]
  simp only
  rw [failIf_of_not hpos, ok_bind]

theorem Half.Holds.samples {half : Half} {written : List (UInt8 × Bool × Sample)}
    (h : half.Holds written) : half.runs.flatMap Run.samples = written.map fun s => s.2.2 := by
  rw [← h.written, map_written_flatMap]

theorem media_of_holds {half : Half} {written : List (UInt8 × Bool × Sample)} {f : Fragment}
    (h : half.Holds written) (hruns : f.runs = half.runs) (source : List UInt8) :
    f.media source = withBytes source f.payloadStart written := by
  unfold Fragment.media
  rw [hruns, media_of_placed h.placed, Nat.add_zero, h.written]

theorem Fragment.Laid.media_eq {f : Fragment} (h : f.Laid) (source : List UInt8) :
    f.media source = withBytes source f.payloadStart f.written := by
  unfold Fragment.media
  rw [media_of_placed h.placed, Nat.add_zero]
  rfl

theorem Fragment.Laid.splitRuns_holds {f : Fragment} {n m : ℕ} {left right : Half} (h : f.Laid)
    (hruns : splitRuns f.runs n {} {} = .ok (m, left, right)) :
    m = n - f.sampleCount ∧ left.Holds (f.written.take n) ∧ right.Holds (f.written.drop n) := by
  obtain ⟨hm, hleft, hright⟩ := Mp4.splitRuns_holds h.run Half.holds_nil Half.holds_nil hruns
  rw [List.nil_append] at hleft hright
  rw [← length_written]
  exact ⟨hm, hleft, hright⟩

/-- A fragment made of a half. -/
theorem laid_of_holds {half : Half} {written : List (UInt8 × Bool × Sample)} {f : Fragment}
    (h : half.Holds written) (hruns : f.runs = half.runs) (hne : half.runs ≠ [])
    (hnamed : f.trackId ≠ 0 ∧ f.sampleDescriptionIndex ≠ 0 ∧ f.timescale ≠ 0)
    (hlen : f.payloadLen = half.bytes) : f.Laid := by
  have hsamples : f.samples = half.runs.flatMap Run.samples := by
    unfold Fragment.samples
    rw [hruns]
  constructor
  · exact hnamed
  · rw [hruns]
    exact hne
  · rw [hruns]
    exact h.runs
  · rw [hlen, hsamples]
    exact h.bytes
  · rw [hruns]
    exact h.placed

/-- What a split leaves: the first samples to the left, the others to the right. -/
structure IsSplitAt (f : Fragment) (n : ℕ) (left right : Fragment) : Prop extends
    AreHalves f left right where
  first : left.Laid ∧ left.samples = f.samples.take n
  last : right.Laid ∧ right.samples = f.samples.drop n

theorem Fragment.Laid.isSplitAt {f left right : Fragment} {n : ℕ} (h : f.Laid)
    (hsplit : splitFragmentAtSample f n = .ok (left, right)) : IsSplitAt f n left right := by
  unfold splitFragmentAtSample at hsplit
  rw [h.sampleCount, ok_bind] at hsplit
  obtain ⟨u, -, hsplit⟩ := bind_eq_ok.mp hsplit
  obtain ⟨⟨m, leftHalf, rightHalf⟩, hruns, hsplit⟩ := bind_eq_ok.mp hsplit
  obtain ⟨-, hleft, hright⟩ := h.splitRuns_holds hruns
  obtain ⟨leftRuns, leftBytes, leftDuration⟩ := leftHalf
  obtain ⟨rightRuns, rightBytes, rightDuration⟩ := rightHalf
  cases leftRuns with
  | nil => cases hsplit
  | cons firstLeft restLeft =>
    cases rightRuns with
    | nil => cases hsplit
    | cons firstRight restRight =>
      simp only at hsplit
      obtain ⟨u, -, hsplit⟩ := bind_eq_ok.mp hsplit
      obtain ⟨u, hduration, hsplit⟩ := bind_eq_ok.mp hsplit
      obtain ⟨u, hlen, hsplit⟩ := bind_eq_ok.mp hsplit
      obtain ⟨decodeTime, htime, hsplit⟩ := bind_eq_ok.mp hsplit
      rw [failIf_eq_ok, not_not] at hduration hlen
      obtain ⟨hfits, rfl⟩ := of_add64_eq_ok htime
      cases hsplit
      have hlen' : f.payloadLen - leftBytes = rightBytes := by omega
      have hleftSamples := hleft.samples
      have hrightSamples := hright.samples
      rw [List.map_take, map_written_samples] at hleftSamples
      rw [List.map_drop, map_written_samples] at hrightSamples
      constructor
      · constructor
        · intro source
          rw [@media_of_holds _ _ _ hleft rfl, @media_of_holds _ _ _ hright rfl, h.media_eq]
          have hbytes : leftBytes = bytesOf ((f.written.take n).map fun s => s.2.2) := by
            rw [← hleft.samples]
            exact hleft.bytes
          show withBytes source f.payloadStart _ ++ withBytes source (f.payloadStart + leftBytes) _ = _
          rw [hbytes, ← withBytes_append, List.take_append_drop]
        · intro source
          show (source.drop f.payloadStart).take leftBytes ++
            (source.drop (f.payloadStart + leftBytes)).take (f.payloadLen - leftBytes) =
              (source.drop f.payloadStart).take f.payloadLen
          rw [hlen', ← List.drop_drop, ← List.take_add, hlen]
        · exact ⟨hleft.duration, hright.duration⟩
        · exact hduration
        · rfl
        · exact ⟨(Nat.mod_eq_of_lt hfits).symm, Nat.mod_eq_of_lt hfits⟩
        · intro half hmem
          rcases List.mem_pair.mp hmem with rfl | rfl
          · exact ⟨rfl, rfl, rfl, rfl⟩
          · exact ⟨rfl, rfl, rfl, rfl⟩
        · intro half hmem
          rcases List.mem_pair.mp hmem with rfl | rfl
          · exact hleft.explicit
          · exact hright.explicit
      · exact ⟨laid_of_holds hleft rfl (List.cons_ne_nil _ _) h.named rfl, hleftSamples⟩
      · exact ⟨laid_of_holds hright rfl (List.cons_ne_nil _ _) h.named hlen', hrightSamples⟩

/-- A half whose parts are laid is whole where the fragment was. -/
theorem Fragment.Whole.of_half {f half : Fragment} (h : f.Whole) (hlaid : half.Laid)
    (htrack : half.trackId = f.trackId ∧ half.timescale = f.timescale ∧
      half.sampleDescriptionIndex = f.sampleDescriptionIndex ∧ half.tfhd = f.tfhd)
    (hduration : half.duration = durationOf half.samples) (hle : half.duration ≤ f.duration) : half.Whole := by
  obtain ⟨hid, htimescale, hindex, htfhd⟩ := htrack
  refine ⟨⟨hid ▸ h.trackId, hindex ▸ h.sampleDescriptionIndex, ?_, htimescale ▸ h.timescale, hlaid.runs,
    hlaid.run, hduration, hle.trans_lt h.bound⟩, hlaid.payloadLen, hlaid.placed⟩
  rw [htfhd, hid, hindex]
  exact h.tfhd

theorem Fragment.Whole.halves {f left right : Fragment} {n : ℕ} (h : f.Whole)
    (hsplit : splitFragmentAtSample f n = .ok (left, right)) : left.Whole ∧ right.Whole := by
  have hparts := h.laid.isSplitAt hsplit
  have hduration := hparts.duration
  constructor
  · exact h.of_half hparts.first.1 (hparts.track left List.mem_cons_self) hparts.durations.1 (by omega)
  · apply h.of_half hparts.last.1 (hparts.track right (List.mem_cons_of_mem _ List.mem_cons_self))
      hparts.durations.2
    omega

/-- A cut inside a fragment is made just where every part of a run makes a run. -/
theorem Fragment.Whole.split_iff {f : Fragment} {n : ℕ} (h : f.Whole) (hpos : 0 < n)
    (hlt : n < f.sampleCount) (htime : f.decodeTime + durationOf (f.samples.take n) < 2 ^ 64) :
    (∃ left right, splitFragmentAtSample f n = .ok (left, right)) ↔
      ∀ part ∈ partsOf f.runs n, MakesRun part := by
  rw [← @splitRuns_ok_iff f.runs n {} {} h.run]
  unfold splitFragmentAtSample
  rw [h.laid.sampleCount, ok_bind, failIf_of_not (by omega), ok_bind]
  constructor
  · rintro ⟨left, right, hsplit⟩
    obtain ⟨out, hruns, -⟩ := bind_eq_ok.mp hsplit
    exact ⟨out, hruns⟩
  · rintro ⟨⟨m, leftHalf, rightHalf⟩, hruns⟩
    obtain ⟨hm, hleft, hright⟩ := h.laid.splitRuns_holds hruns
    rw [Nat.sub_eq_zero_of_le hlt.le] at hm
    have hlength := length_written f
    have hleftSamples := hleft.samples
    have hrightSamples := hright.samples
    rw [List.map_take, map_written_samples] at hleftSamples
    rw [List.map_drop, map_written_samples] at hrightSamples
    have hdurations : leftHalf.duration + rightHalf.duration = f.duration := by
      rw [hleft.duration, hright.duration, hleftSamples, hrightSamples, ← durationOf_append,
        List.take_append_drop, h.duration]
    have hlens : leftHalf.bytes + rightHalf.bytes = f.payloadLen := by
      rw [hleft.bytes, hright.bytes, hleftSamples, hrightSamples, ← bytesOf_append,
        List.take_append_drop, h.payloadLen]
    have hend : f.decodeTime + leftHalf.duration < 2 ^ 64 := by
      rw [hleft.duration, hleftSamples]
      exact htime
    obtain ⟨firstLeft, restLeft, hleftRuns⟩ : ∃ first rest, leftHalf.runs = first :: rest := by
      apply List.exists_cons_of_ne_nil
      intro hnil
      have hnone := congrArg List.length hleft.written
      rw [hnil, List.flatMap_nil, List.length_take, List.length_nil] at hnone
      omega
    obtain ⟨firstRight, restRight, hrightRuns⟩ : ∃ first rest, rightHalf.runs = first :: rest := by
      apply List.exists_cons_of_ne_nil
      intro hnil
      have hnone := congrArg List.length hright.written
      rw [hnil, List.flatMap_nil, List.length_drop, List.length_nil] at hnone
      omega
    rw [hruns, ok_bind]
    simp only
    rw [hleftRuns, hrightRuns]
    simp only
    rw [failIf_of_not (not_not.mpr hm), ok_bind, failIf_of_not (not_not.mpr hdurations), ok_bind,
      failIf_of_not (not_not.mpr hlens), ok_bind, add64_of_lt hend, ok_bind]
    exact ⟨_, _, rfl⟩

end Rustorr.Mp4
