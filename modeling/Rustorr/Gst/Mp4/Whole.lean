import Rustorr.Gst.Mp4.EndOfStream

/-! Fragments whose sums are those of their samples: so they are parsed, and so they stay. -/

namespace Rustorr.Mp4

open BigEndian Except

/-- How long samples last. -/
def durationOf (samples : List Sample) : ℕ := (samples.map fun s => s.duration.toNat).sum

/-- How many bytes samples take up. -/
def bytesOf (samples : List Sample) : ℕ := (samples.map fun s => s.size.toNat).sum

@[simp] theorem durationOf_nil : durationOf [] = 0 := rfl

@[simp] theorem bytesOf_nil : bytesOf [] = 0 := rfl

@[simp] theorem durationOf_cons (s : Sample) (samples : List Sample) :
    durationOf (s :: samples) = s.duration.toNat + durationOf samples := List.sum_cons

@[simp] theorem bytesOf_cons (s : Sample) (samples : List Sample) :
    bytesOf (s :: samples) = s.size.toNat + bytesOf samples := List.sum_cons

@[simp] theorem durationOf_append (samples more : List Sample) :
    durationOf (samples ++ more) = durationOf samples + durationOf more := by
  unfold durationOf
  rw [List.map_append, List.sum_append]

@[simp] theorem bytesOf_append (samples more : List Sample) :
    bytesOf (samples ++ more) = bytesOf samples + bytesOf more := by
  unfold bytesOf
  rw [List.map_append, List.sum_append]

theorem of_add64_eq_ok {ε : Type} {a b n : ℕ} {e : ε} (h : add64 a b e = .ok n) :
    a + b < 2 ^ 64 ∧ n = a + b := by
  unfold add64 at h
  split at h
  · next hlt => exact ⟨hlt, (Except.ok.inj h).symm⟩
  · cases h

theorem add64_of_lt {ε : Type} {a b : ℕ} (h : a + b < 2 ^ 64) (e : ε) : add64 a b e = .ok (a + b) := if_pos h

/-- The sums of a run are those of its samples, and it can be written. -/
structure Run.Whole (run : Run) : Prop where
  samples : run.samples ≠ []
  duration : run.duration = durationOf run.samples
  dataSize : run.dataSize = bytesOf run.samples
  bytes : run.dataSize < 2 ^ 64
  sized : run.dataSize ≠ 0
  version : run.version ≤ 1
  count : run.samples.length ≤ maxTrunSamples
  offsets : run.hasCompositionTimeOffsets = false → ∀ s ∈ run.samples, s.compositionTimeOffsetRaw = 0

theorem durationOf_le (samples : List Sample) : durationOf samples ≤ samples.length * 2 ^ 32 := by
  induction samples with
  | nil => exact Nat.zero_le _
  | cons s samples ih =>
    rw [durationOf_cons, List.length_cons, Nat.succ_mul, Nat.add_comm]
    exact Nat.add_le_add ih s.duration.toNat_lt.le

/-- No run lasts longer than 64 bits can tell. -/
theorem Run.Whole.short {run : Run} (h : run.Whole) : durationOf run.samples < 2 ^ 64 := by
  have hle := durationOf_le run.samples
  have hcount := h.count
  unfold maxTrunSamples at hcount
  omega

/-- So are those of a fragment, which has not been given its payload. -/
structure Fragment.Summed (f : Fragment) : Prop where
  trackId : f.trackId ≠ 0
  sampleDescriptionIndex : f.sampleDescriptionIndex ≠ 0
  tfhd : f.tfhd = canonicalTfhd f.trackId f.sampleDescriptionIndex
  timescale : f.timescale ≠ 0
  runs : f.runs ≠ []
  run : ∀ run ∈ f.runs, run.Whole
  duration : f.duration = durationOf f.samples
  bound : f.duration < 2 ^ 64

/-- Each run lies where the one before ends. -/
def Placed : List Run → ℕ → Prop
  | [], _ => True
  | run :: rest, start => run.payloadOffset = start ∧ Placed rest (start + bytesOf run.samples)

/-- A fragment with its payload. -/
structure Fragment.Whole (f : Fragment) : Prop extends f.Summed where
  payloadLen : f.payloadLen = bytesOf f.samples
  placed : Placed f.runs 0

/-- The runs of a fragment make up its payload, whatever its times. -/
structure Fragment.Laid (f : Fragment) : Prop where
  named : f.trackId ≠ 0 ∧ f.sampleDescriptionIndex ≠ 0 ∧ f.timescale ≠ 0
  runs : f.runs ≠ []
  run : ∀ run ∈ f.runs, run.Whole
  payloadLen : f.payloadLen = bytesOf f.samples
  placed : Placed f.runs 0

theorem Fragment.Whole.laid {f : Fragment} (h : f.Whole) : f.Laid :=
  ⟨⟨h.trackId, h.sampleDescriptionIndex, h.timescale⟩, h.runs, h.run, h.payloadLen, h.placed⟩

/-! ### What is parsed -/

theorem TrunFields.sums_of_readSamples {fields : TrunFields} {n : ℕ} {ownFlags : Option UInt32}
    {duration dataSize duration' dataSize' : ℕ} {data rest : List UInt8} {samples : List Sample}
    (hduration : duration < 2 ^ 64) (hdataSize : dataSize < 2 ^ 64)
    (h : fields.readSamples n ownFlags duration dataSize data =
      .ok (samples, duration', dataSize', rest)) :
    (duration' = duration + durationOf samples ∧ duration' < 2 ^ 64) ∧
      dataSize' = dataSize + bytesOf samples ∧ dataSize' < 2 ^ 64 := by
  induction n generalizing ownFlags duration dataSize data samples with
  | zero =>
    cases h
    exact ⟨⟨rfl, hduration⟩, rfl, hdataSize⟩
  | succ n ih =>
    unfold readSamples at h
    obtain ⟨⟨sample, data₁⟩, -, h⟩ := bind_eq_ok.mp h
    obtain ⟨d, hd, h⟩ := bind_eq_ok.mp h
    obtain ⟨s, hs, h⟩ := bind_eq_ok.mp h
    obtain ⟨⟨samples₁, d₁, s₁, data₂⟩, hrest, h⟩ := bind_eq_ok.mp h
    cases h
    obtain ⟨hdlt, rfl⟩ := of_add64_eq_ok hd
    obtain ⟨hslt, rfl⟩ := of_add64_eq_ok hs
    obtain ⟨⟨hsum, hlt⟩, hsum', hlt'⟩ := ih hdlt hslt hrest
    rw [durationOf_cons, bytesOf_cons, ← Nat.add_assoc, ← Nat.add_assoc]
    exact ⟨⟨hsum, hlt⟩, hsum', hlt'⟩

theorem TrunFields.offset_of_readSample {fields : TrunFields} {ownFlags : Option UInt32}
    {data rest : List UInt8} {sample : Sample} (hnone : fields.hasOffsets = false)
    (h : fields.readSample ownFlags data = .ok (sample, rest)) : sample.compositionTimeOffsetRaw = 0 := by
  unfold readSample at h
  obtain ⟨⟨duration, data₁⟩, h⟩ := of_ite_bind_eq_ok h
  obtain ⟨⟨size, data₂⟩, h⟩ := of_ite_bind_eq_ok h
  obtain ⟨⟨flags, data₃⟩, h⟩ := of_ite_bind_eq_ok h
  simp only at h
  rw [if_neg (by rw [hnone]; exact Bool.false_ne_true)] at h
  cases h
  rfl

theorem TrunFields.offsets_of_readSamples {fields : TrunFields} {n : ℕ} {ownFlags : Option UInt32}
    {duration dataSize duration' dataSize' : ℕ} {data rest : List UInt8} {samples : List Sample}
    (hnone : fields.hasOffsets = false)
    (h : fields.readSamples n ownFlags duration dataSize data =
      .ok (samples, duration', dataSize', rest)) : ∀ s ∈ samples, s.compositionTimeOffsetRaw = 0 := by
  induction n generalizing ownFlags duration dataSize data samples with
  | zero =>
    cases h
    exact fun s hmem => absurd hmem List.not_mem_nil
  | succ n ih =>
    unfold readSamples at h
    obtain ⟨⟨sample, data₁⟩, hsample, h⟩ := bind_eq_ok.mp h
    obtain ⟨d, -, h⟩ := bind_eq_ok.mp h
    obtain ⟨s, -, h⟩ := bind_eq_ok.mp h
    obtain ⟨⟨samples₁, d₁, s₁, data₂⟩, hrest, h⟩ := bind_eq_ok.mp h
    cases h
    exact List.forall_mem_cons.mpr ⟨offset_of_readSample hnone hsample, ih hrest⟩

theorem whole_of_normalizeTrun {data : List UInt8} {header : ℕ}
    {defaultDuration defaultSize defaultFlags : UInt32} {durationIsHint : Bool} {run : Run}
    (h : normalizeTrun data header defaultDuration defaultSize defaultFlags durationIsHint = .ok run) :
    run.Whole := by
  have hsamples := (normalizeTrun_ok h).2.2
  unfold normalizeTrun at h
  obtain ⟨u, -, h⟩ := bind_eq_ok.mp h
  simp only at h
  obtain ⟨u, hversion, h⟩ := bind_eq_ok.mp h
  obtain ⟨u, -, h⟩ := bind_eq_ok.mp h
  obtain ⟨u, -, h⟩ := bind_eq_ok.mp h
  obtain ⟨⟨offset, cursor⟩, h⟩ := of_ite_bind_eq_ok h
  obtain ⟨u, -, h⟩ := bind_eq_ok.mp h
  obtain ⟨⟨firstFlags, cursor⟩, h⟩ := of_ite_bind_eq_ok h
  obtain ⟨u, -, h⟩ := bind_eq_ok.mp h
  obtain ⟨u, -, h⟩ := bind_eq_ok.mp h
  obtain ⟨u, hcount, h⟩ := bind_eq_ok.mp h
  obtain ⟨u, -, h⟩ := bind_eq_ok.mp h
  obtain ⟨⟨samples, duration, dataSize, cursor⟩, hread, h⟩ := bind_eq_ok.mp h
  obtain ⟨u, hbody, h⟩ := bind_eq_ok.mp h
  rw [failIf_eq_ok, not_lt] at hcount
  rw [failIf_eq_ok] at hversion hbody
  cases h
  obtain ⟨⟨hduration, -⟩, hdataSize, hbytes⟩ :=
    TrunFields.sums_of_readSamples (by decide) (by decide) hread
  rw [Nat.zero_add] at hduration hdataSize
  refine ⟨hsamples, hduration, hdataSize, hbytes, fun hzero => hbody (Or.inr (Or.inr hzero)),
    UInt8.not_lt.mp hversion, ?_, fun hnone => ?_⟩
  · rw [TrunFields.readSamples_length hread]
    exact hcount
  · exact TrunFields.offsets_of_readSamples hnone hread

theorem whole_of_readTruns {defaultDuration defaultSize defaultFlags : UInt32} {durationIsHint : Bool}
    {children : List Box} {duration duration' : ℕ} {runs : List Run} (hlt : duration < 2 ^ 64)
    (h : readTruns defaultDuration defaultSize defaultFlags durationIsHint children duration =
      .ok (runs, duration')) :
    (∀ run ∈ runs, run.Whole) ∧
      duration' = duration + durationOf (runs.flatMap Run.samples) ∧ duration' < 2 ^ 64 := by
  induction children generalizing duration runs with
  | nil =>
    cases h
    exact ⟨fun run hrun => absurd hrun List.not_mem_nil, rfl, hlt⟩
  | cons b rest ih =>
    unfold readTruns at h
    split at h
    · obtain ⟨run, hrun, h⟩ := bind_eq_ok.mp h
      obtain ⟨d, hd, h⟩ := bind_eq_ok.mp h
      obtain ⟨⟨runs₁, d₁⟩, hrest, h⟩ := bind_eq_ok.mp h
      cases h
      obtain ⟨hdlt, rfl⟩ := of_add64_eq_ok hd
      have hwhole := whole_of_normalizeTrun hrun
      obtain ⟨hall, hsum, hbound⟩ := ih hdlt hrest
      refine ⟨List.forall_mem_cons.mpr ⟨hwhole, hall⟩, ?_, hbound⟩
      rw [hsum, List.flatMap_cons, durationOf_append, hwhole.duration, Nat.add_assoc]
    · exact ih hlt h

theorem trackId_of_parseTfhd {data : List UInt8} {header : ℕ} {tfhd : Tfhd}
    (h : parseTfhd data header = .ok tfhd) : tfhd.trackId ≠ 0 := by
  unfold parseTfhd at h
  obtain ⟨u, -, h⟩ := bind_eq_ok.mp h
  simp only at h
  obtain ⟨u, -, h⟩ := bind_eq_ok.mp h
  obtain ⟨u, -, h⟩ := bind_eq_ok.mp h
  obtain ⟨u, -, h⟩ := bind_eq_ok.mp h
  obtain ⟨u, -, h⟩ := bind_eq_ok.mp h
  obtain ⟨u, hid, h⟩ := bind_eq_ok.mp h
  rw [failIf_eq_ok] at hid
  split at h
  · split at h
    · split at h
      · obtain ⟨⟨index, cursor⟩, -, h⟩ := bind_eq_ok.mp h
        obtain ⟨⟨duration, cursor⟩, h⟩ := of_ite_bind_eq_ok h
        obtain ⟨⟨size, cursor⟩, h⟩ := of_ite_bind_eq_ok h
        obtain ⟨⟨flags, cursor⟩, h⟩ := of_ite_bind_eq_ok h
        obtain ⟨u, -, h⟩ := bind_eq_ok.mp h
        cases h
        exact hid
      · cases h
    · cases h
  · obtain ⟨⟨index, cursor⟩, -, h⟩ := bind_eq_ok.mp h
    obtain ⟨⟨duration, cursor⟩, h⟩ := of_ite_bind_eq_ok h
    obtain ⟨⟨size, cursor⟩, h⟩ := of_ite_bind_eq_ok h
    obtain ⟨⟨flags, cursor⟩, h⟩ := of_ite_bind_eq_ok h
    obtain ⟨u, -, h⟩ := bind_eq_ok.mp h
    cases h
    exact hid

theorem trackId_of_readTrafHeaders {children : List Box} {tfhd tfhd' : Option Tfhd}
    {decodeTime decodeTime' : Option ℕ} (hbefore : ∀ t, tfhd = some t → t.trackId ≠ 0)
    (h : readTrafHeaders children tfhd decodeTime = .ok (tfhd', decodeTime')) :
    ∀ t, tfhd' = some t → t.trackId ≠ 0 := by
  induction children generalizing tfhd decodeTime with
  | nil =>
    cases h
    exact hbefore
  | cons b rest ih =>
    unfold readTrafHeaders at h
    split at h
    · obtain ⟨u, -, h⟩ := bind_eq_ok.mp h
      obtain ⟨t, ht, h⟩ := bind_eq_ok.mp h
      refine ih (fun t' heq => ?_) h
      cases heq
      exact trackId_of_parseTfhd ht
    split at h
    · obtain ⟨u, -, h⟩ := bind_eq_ok.mp h
      obtain ⟨time, -, h⟩ := bind_eq_ok.mp h
      exact ih hbefore h
    split at h
    · exact ih hbefore h
    · cases h

theorem summed_of_parseTraf {traf : List UInt8} {trafHeader : ℕ} {video audio : TrackIds}
    {videoHint audioHint : UInt32} {f : Fragment}
    (h : parseTraf traf trafHeader video audio videoHint audioHint = .ok f) : f.Summed := by
  unfold parseTraf at h
  simp only at h
  obtain ⟨headers, hheaders, h⟩ := bind_eq_ok.mp h
  split at h
  · next tfhd decodeTime =>
    obtain ⟨⟨track, hint⟩, -, h⟩ := bind_eq_ok.mp h
    obtain ⟨u, htimescale, h⟩ := bind_eq_ok.mp h
    obtain ⟨u, hindex, h⟩ := bind_eq_ok.mp h
    obtain ⟨⟨runs, duration⟩, hruns, h⟩ := bind_eq_ok.mp h
    obtain ⟨hall, hsum, hbound⟩ := whole_of_readTruns (by decide) hruns
    rw [Nat.zero_add] at hsum
    cases runs with
    | nil => cases h
    | cons first rest =>
      obtain ⟨u, -, h⟩ := bind_eq_ok.mp h
      cases h
      have hid := trackId_of_readTrafHeaders (fun _ heq => by cases heq) hheaders tfhd rfl
      exact ⟨hid, failIf_eq_ok.mp hindex, rfl, failIf_eq_ok.mp htimescale, List.cons_ne_nil first rest,
        hall, hsum, hbound⟩
  · cases h

theorem summed_of_parseTrafs {video audio : TrackIds} {videoHint audioHint : UInt32}
    {children : List Box} {found found' : Option Fragment}
    (hbefore : ∀ f, found = some f → f.Summed)
    (h : parseTrafs video audio videoHint audioHint children found = .ok found') :
    ∀ f, found' = some f → f.Summed := by
  induction children generalizing found with
  | nil =>
    cases h
    exact hbefore
  | cons b rest ih =>
    unfold parseTrafs at h
    split at h
    · obtain ⟨u, -, h⟩ := bind_eq_ok.mp h
      obtain ⟨f, hf, h⟩ := bind_eq_ok.mp h
      refine ih (fun f' heq => ?_) h
      cases heq
      exact summed_of_parseTraf hf
    · exact ih hbefore h

theorem summed_of_parseSourceMoof {moof : List UInt8} {video audio : TrackIds}
    {videoHint audioHint : UInt32} {f : Fragment}
    (h : parseSourceMoof moof video audio videoHint audioHint = .ok f) : f.Summed := by
  unfold parseSourceMoof at h
  split at h
  · cases h
  · obtain ⟨u, -, h⟩ := bind_eq_ok.mp h
    obtain ⟨found, hfound, h⟩ := bind_eq_ok.mp h
    exact summed_of_parseTrafs (fun _ heq => by cases heq) hfound f (okOr_eq_ok.mp h)

/-! ### What is given its payload -/

theorem Run.Whole.moved {run : Run} (h : run.Whole) (payloadOffset : ℕ) :
    ({ run with payloadOffset } : Run).Whole :=
  ⟨h.samples, h.duration, h.dataSize, h.bytes, h.sized, h.version, h.count, h.offsets⟩

theorem placed_attachRuns {payloadFromMoof start stop : ℕ} {runs runs' : List Run}
    (hruns : ∀ run ∈ runs, run.Whole)
    (h : attachRuns payloadFromMoof runs start = .ok (runs', stop)) :
    (∀ run ∈ runs', run.Whole) ∧ Placed runs' start ∧
      (runs'.map Run.samples) = runs.map Run.samples ∧
      stop = start + bytesOf (runs.flatMap Run.samples) := by
  induction runs generalizing start runs' with
  | nil =>
    cases h
    exact ⟨hruns, trivial, rfl, rfl⟩
  | cons run rest ih =>
    obtain ⟨hrun, hrest⟩ := List.forall_mem_cons.mp hruns
    unfold attachRuns at h
    simp only at h
    obtain ⟨u, -, h⟩ := bind_eq_ok.mp h
    obtain ⟨u, -, h⟩ := bind_eq_ok.mp h
    obtain ⟨⟨runs₁, stop₁⟩, hattach, h⟩ := bind_eq_ok.mp h
    cases h
    obtain ⟨hall, hplaced, hsamples, hstop⟩ := ih hrest hattach
    refine ⟨List.forall_mem_cons.mpr ⟨hrun.moved start, hall⟩,
      ⟨rfl, ?_⟩, ?_, ?_⟩
    · rw [← hrun.dataSize]
      exact hplaced
    · rw [List.map_cons, List.map_cons, hsamples]
    · rw [hstop, List.flatMap_cons, bytesOf_append, hrun.dataSize, Nat.add_assoc]

theorem samples_eq_of_map {f g : Fragment} (h : f.runs.map Run.samples = g.runs.map Run.samples) :
    f.samples = g.samples := by
  unfold Fragment.samples
  rw [List.flatMap_def, List.flatMap_def, h]

theorem whole_of_attachPayload {pending f : Fragment} {payloadStart payloadLen payloadFromMoof : ℕ}
    (hpending : pending.Summed)
    (h : attachPayload pending payloadStart payloadLen payloadFromMoof = .ok f) : f.Whole := by
  unfold attachPayload at h
  obtain ⟨⟨runs, stop⟩, hruns, h⟩ := bind_eq_ok.mp h
  obtain ⟨u, hlen, h⟩ := bind_eq_ok.mp h
  rw [failIf_eq_ok, not_not] at hlen
  cases h
  obtain ⟨hall, hplaced, hmap, hstop⟩ := placed_attachRuns hpending.run hruns
  have hsamples := @samples_eq_of_map { pending with runs, payloadStart, payloadLen } pending hmap
  refine ⟨⟨hpending.trackId, hpending.sampleDescriptionIndex, hpending.tfhd, hpending.timescale, ?_, hall, ?_,
    hpending.bound⟩, ?_, hplaced⟩
  · intro hnil
    have hnone : runs.map Run.samples = [] := by rw [show runs = [] from hnil]; rfl
    rw [hmap, List.map_eq_nil_iff] at hnone
    exact hpending.runs hnone
  · rw [hsamples]
    exact hpending.duration
  · rw [hsamples]
    show payloadLen = _
    rw [← hlen, hstop, Nat.zero_add]
    rfl

/-! ### What is settled, and what is moved -/

theorem modify_middle {α : Type*} (g : α → α) (before : List α) (a : α) (after : List α) :
    (before ++ a :: after).modify before.length g = before ++ g a :: after := by
  induction before with
  | nil => rfl
  | cons b before ih =>
    rw [List.cons_append, List.length_cons, List.modify_succ_cons, ih, List.cons_append]

/-- The last run that a mark is on, with the runs before and after it. -/
theorem last_marked {runs : List Run} {run : Run}
    (h : runs.reverse.find? Run.hasInferredDuration = some run) :
    ∃ before after, runs = before ++ run :: after ∧
      runs.length - 1 - runs.reverse.findIdx Run.hasInferredDuration = before.length := by
  obtain ⟨hmark, after, before, heq, hnone⟩ := List.find?_eq_some_iff_append.mp h
  have hruns : runs = before.reverse ++ run :: after.reverse := by
    rw [← List.reverse_inj, heq, List.reverse_append, List.reverse_cons, List.reverse_reverse,
      List.reverse_reverse, List.append_assoc, List.singleton_append]
  have hfirst : after.findIdx Run.hasInferredDuration = after.length := by
    apply List.findIdx_eq_length_of_false
    intro a ha
    simpa using hnone a ha
  have hindex : runs.reverse.findIdx Run.hasInferredDuration = after.length := by
    rw [heq, List.findIdx_append, hfirst, if_neg (lt_irrefl _), List.findIdx_cons, hmark]
    exact Nat.zero_add _
  refine ⟨before.reverse, after.reverse, hruns, ?_⟩
  rw [hindex, hruns, List.length_append, List.length_cons, List.length_reverse, List.length_reverse]
  omega

/-- A run whose last sample lasts as long as is told now. -/
def Run.settle (run : Run) (exact : UInt32) : Run :=
  { run with
    samples := run.samples.modify (run.samples.length - 1) fun s => { s with duration := exact }
    duration := run.duration - ((run.samples.getLast?.map Sample.duration).getD 0).toNat + exact.toNat
    hasInferredDuration := false }

theorem settle_samples {run : Run} {samples : List Sample} {last : Sample} (exact : UInt32)
    (h : run.samples = samples ++ [last]) :
    (run.settle exact).samples = samples ++ [{ last with duration := exact }] ∧
      (run.settle exact).duration = run.duration - last.duration.toNat + exact.toNat := by
  unfold Run.settle
  simp only [h, List.length_append, List.length_singleton, Nat.add_sub_cancel]
  exact ⟨modify_middle _ samples last [], by rw [List.getLast?_concat]; rfl⟩

/-- How long the last sample of a run lasts. -/
def Run.lastDuration (run : Run) : ℕ := ((run.samples.getLast?.map Sample.duration).getD 0).toNat

/-- Settled, the run lasts longer or shorter by as much as its last sample. -/
theorem Run.Whole.settle {run : Run} (h : run.Whole) (exact : UInt32) :
    (run.settle exact).Whole ∧ bytesOf (run.settle exact).samples = bytesOf run.samples ∧
      run.lastDuration ≤ durationOf run.samples ∧
      durationOf (run.settle exact).samples = durationOf run.samples - run.lastDuration + exact.toNat := by
  obtain ⟨samples, last, hlast⟩ := (List.eq_nil_or_concat' run.samples).resolve_left h.samples
  obtain ⟨hsamples, hduration⟩ := settle_samples exact hlast
  have hold : run.lastDuration = last.duration.toNat := by
    unfold Run.lastDuration
    rw [hlast, List.getLast?_concat]
    rfl
  have hsum : durationOf run.samples = durationOf samples + last.duration.toNat := by
    rw [hlast, durationOf_append, durationOf_cons, durationOf_nil, Nat.add_zero]
  have hbytes : bytesOf (run.settle exact).samples = bytesOf run.samples := by
    rw [hsamples, hlast, bytesOf_append, bytesOf_append, bytesOf_cons, bytesOf_cons]
  have hsettled : durationOf (run.settle exact).samples = durationOf samples + exact.toNat := by
    rw [hsamples, durationOf_append, durationOf_cons, durationOf_nil, Nat.add_zero]
  refine ⟨⟨?_, ?_, h.dataSize.trans hbytes.symm, h.bytes, h.sized, h.version, ?_, fun hnone => ?_⟩, hbytes,
    ?_, ?_⟩
  · rw [hsamples]
    exact List.append_ne_nil_of_right_ne_nil _ (List.cons_ne_nil _ _)
  · rw [hduration, hsettled, h.duration, hsum, Nat.add_sub_cancel]
  · have hcount := h.count
    rw [hlast, List.length_append] at hcount
    rw [hsamples, List.length_append]
    exact hcount
  · have hzero := h.offsets hnone
    rw [hlast, List.forall_mem_append, List.forall_mem_singleton] at hzero
    rw [hsamples, List.forall_mem_append, List.forall_mem_singleton]
    exact hzero
  · rw [hold, hsum]
    exact Nat.le_add_left _ _
  · rw [hold, hsettled, hsum, Nat.add_sub_cancel]

theorem Run.Whole.settled {run : Run} (h : run.Whole) :
    ({ run with hasInferredDuration := false } : Run).Whole :=
  ⟨h.samples, h.duration, h.dataSize, h.bytes, h.sized, h.version, h.count, h.offsets⟩

theorem placed_of_map {runs runs' : List Run} {start : ℕ}
    (h : runs'.map (fun run => (run.payloadOffset, bytesOf run.samples)) =
      runs.map fun run => (run.payloadOffset, bytesOf run.samples))
    (hplaced : Placed runs start) : Placed runs' start := by
  induction runs generalizing runs' start with
  | nil =>
    rw [List.map_nil, List.map_eq_nil_iff] at h
    rw [h]
    trivial
  | cons run rest ih =>
    obtain ⟨run', rest', rfl, hrun, hrest⟩ := List.map_eq_cons_iff.mp h
    obtain ⟨hoffset, hbytes⟩ := Prod.mk.inj hrun
    refine ⟨hoffset.trans hplaced.1, ?_⟩
    rw [hbytes]
    exact ih hrest hplaced.2

/-- The runs before and after the one that is settled, and the duration it had. -/
theorem resolve_cases {previous current settled : Fragment} {hint : UInt32}
    (h : Reader.resolveInferredDuration previous current = .ok (settled, hint)) :
    ∃ before run after exact, previous.runs = before ++ run :: after ∧ run.hasInferredDuration = true ∧
      run.lastDuration ≤ previous.duration ∧
      (previous.decodeTime + (previous.duration - run.lastDuration)) % 2 ^ 64 ≤ current.decodeTime ∧
      exact = current.decodeTime - (previous.decodeTime + (previous.duration - run.lastDuration)) % 2 ^ 64 ∧
      exact < 2 ^ 32 ∧ hint = UInt32.ofNat exact ∧
      settled = { previous with
        runs := before.map (fun run => { run with hasInferredDuration := false }) ++
          run.settle (UInt32.ofNat exact) :: after.map fun run => { run with hasInferredDuration := false }
        duration := (previous.duration - run.lastDuration + exact) % 2 ^ 64
        hasInferredDuration := false } := by
  unfold Reader.resolveInferredDuration at h
  simp only at h
  obtain ⟨run, hrun, h⟩ := bind_eq_ok.mp h
  obtain ⟨u, hold, h⟩ := bind_eq_ok.mp h
  obtain ⟨u, hstart, h⟩ := bind_eq_ok.mp h
  obtain ⟨u, hexact, h⟩ := bind_eq_ok.mp h
  rw [failIf_eq_ok, not_lt] at hold hstart hexact
  have hfind := (Option.filter_eq_some_iff.mp (okOr_eq_ok.mp hrun)).1
  have hmarked := List.find?_some hfind
  obtain ⟨before, after, hruns, hindex⟩ := last_marked hfind
  cases h
  refine ⟨before, run, after, _, hruns, hmarked, hold, hstart, rfl, Nat.lt_succ_of_le hexact, rfl, ?_⟩
  rw [hindex]
  have hmodify : Reader.resolveRuns (UInt32.ofNat (current.decodeTime -
      (previous.decodeTime + (previous.duration - run.lastDuration)) % 2 ^ 64)) previous.runs before.length =
      before.map (fun run => { run with hasInferredDuration := false }) ++
        run.settle (UInt32.ofNat (current.decodeTime -
          (previous.decodeTime + (previous.duration - run.lastDuration)) % 2 ^ 64)) ::
        after.map fun run => { run with hasInferredDuration := false } := by
    unfold Reader.resolveRuns
    rw [hruns, modify_middle, List.map_append, List.map_cons]
    rfl
  exact congrArg (fun runs => { previous with
    runs
    duration := (previous.duration - run.lastDuration + (current.decodeTime -
      (previous.decodeTime + (previous.duration - run.lastDuration)) % 2 ^ 64)) % 2 ^ 64
    hasInferredDuration := false }) hmodify

/-- The samples of runs around one of them. -/
theorem sums_middle (before after : List Run) (run : Run) :
    durationOf ((before ++ run :: after).flatMap Run.samples) =
        durationOf (before.flatMap Run.samples) + durationOf run.samples +
          durationOf (after.flatMap Run.samples) ∧
      bytesOf ((before ++ run :: after).flatMap Run.samples) =
        bytesOf (before.flatMap Run.samples) + bytesOf run.samples +
          bytesOf (after.flatMap Run.samples) := by
  rw [List.flatMap_append, List.flatMap_cons, durationOf_append, durationOf_append, bytesOf_append,
    bytesOf_append, Nat.add_assoc, Nat.add_assoc]
  exact ⟨rfl, rfl⟩

theorem flatMap_unmarked (runs : List Run) :
    (runs.map fun run => { run with hasInferredDuration := false }).flatMap Run.samples =
      runs.flatMap Run.samples := by
  rw [List.flatMap_map]

/-- A duration that is settled leaves the bytes where they are. -/
theorem Fragment.Laid.resolve {previous current settled : Fragment} {hint : UInt32} (h : previous.Laid)
    (hresolve : Reader.resolveInferredDuration previous current = .ok (settled, hint)) :
    settled.Laid := by
  obtain ⟨before, run, after, exact, hruns, -, -, -, -, -, -, rfl⟩ := resolve_cases hresolve
  have hrun : run.Whole := by
    apply h.run
    rw [hruns]
    exact List.mem_append_right _ List.mem_cons_self
  obtain ⟨hsettled, hbytes, -, -⟩ := hrun.settle (UInt32.ofNat exact)
  have hlen := h.payloadLen
  have hplaced := h.placed
  unfold Fragment.samples at hlen
  rw [hruns] at hplaced
  rw [hruns, (sums_middle before after run).2] at hlen
  constructor
  · exact h.named
  · exact List.append_ne_nil_of_right_ne_nil _ (List.cons_ne_nil _ _)
  · intro run' hmem
    have hold : ∀ old ∈ previous.runs, ({ old with hasInferredDuration := false } : Run).Whole :=
      fun old hmem => (h.run old hmem).settled
    rw [hruns] at hold
    rcases List.mem_append.mp hmem with hmem | hmem
    · obtain ⟨old, hbefore, rfl⟩ := List.mem_map.mp hmem
      exact hold old (List.mem_append_left _ hbefore)
    · rcases List.mem_cons.mp hmem with rfl | hmem
      · exact hsettled
      · obtain ⟨old, hafter, rfl⟩ := List.mem_map.mp hmem
        exact hold old (List.mem_append_right _ (List.mem_cons_of_mem _ hafter))
  · unfold Fragment.samples
    rw [(sums_middle _ _ _).2, flatMap_unmarked, flatMap_unmarked, hbytes]
    exact hlen
  · refine placed_of_map ?_ hplaced
    rw [List.map_append, List.map_append, List.map_cons, List.map_cons, List.map_map, List.map_map, hbytes]
    rfl

theorem Fragment.Whole.resolve {previous current settled : Fragment} {hint : UInt32} (h : previous.Whole)
    (hend : previous.decodeTime + previous.duration < 2 ^ 64) (hcurrent : current.decodeTime < 2 ^ 64)
    (hresolve : Reader.resolveInferredDuration previous current = .ok (settled, hint)) :
    settled.Whole := by
  obtain ⟨-, hne, hrun', hlen, hplaced⟩ := h.laid.resolve hresolve
  obtain ⟨before, run, after, exact, hruns, -, hold, hstart, hexact, hsmall, -, rfl⟩ := resolve_cases hresolve
  have hrun : run.Whole := by
    apply h.run
    rw [hruns]
    exact List.mem_append_right _ List.mem_cons_self
  obtain ⟨-, -, hlast, hduration⟩ := hrun.settle (UInt32.ofNat exact)
  have hword : (UInt32.ofNat exact).toNat = exact := UInt32.toNat_ofNat_of_lt' hsmall
  have hsum := h.duration
  unfold Fragment.samples at hsum
  rw [hruns, (sums_middle before after run).1] at hsum
  have hfits : previous.duration - run.lastDuration + exact < 2 ^ 64 := by omega
  refine ⟨⟨h.trackId, h.sampleDescriptionIndex, h.tfhd, h.timescale, hne, hrun', ?_, ?_⟩, hlen, hplaced⟩
  · unfold Fragment.samples
    rw [(sums_middle _ _ _).1, flatMap_unmarked, flatMap_unmarked, hduration, hword]
    show (previous.duration - run.lastDuration + exact) % 2 ^ 64 = _
    rw [Nat.mod_eq_of_lt hfits, hsum]
    omega
  · exact Nat.mod_lt _ (by decide)

theorem Fragment.Laid.rebase {f : Fragment} (h : f.Laid) (start : ℕ) : (Reader.rebase start f).Laid := by
  unfold Reader.rebase
  split
  · exact ⟨h.named, h.runs, h.run, h.payloadLen, h.placed⟩
  · exact h

theorem Fragment.Whole.rebase {f : Fragment} (h : f.Whole) (start : ℕ) :
    (Reader.rebase start f).Whole := by
  unfold Reader.rebase
  split
  · exact ⟨⟨h.trackId, h.sampleDescriptionIndex, h.tfhd, h.timescale, h.runs, h.run, h.duration, h.bound⟩,
      h.payloadLen, h.placed⟩
  · exact h

end Rustorr.Mp4
