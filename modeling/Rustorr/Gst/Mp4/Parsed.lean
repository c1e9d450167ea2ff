import Mathlib.Tactic.Common
import Rustorr.Gst.Mp4.Runs

/-! What is known of a fragment that was parsed. -/

namespace Rustorr.Mp4

open BigEndian Except

/-- The first sample is one to start from. -/
def Run.firstIsSync (run : Run) : Bool := run.samples.head?.any fun s => isSyncSample s.flags

def Fragment.firstIsSync (f : Fragment) : Bool := f.runs.head?.any Run.firstIsSync

def Fragment.sampleCount (f : Fragment) : ℕ := (f.runs.map fun run => run.samples.length).sum

/-- The bytes the samples of a fragment take up. -/
def Fragment.size (f : Fragment) : ℕ := (f.runs.map Run.dataSize).sum

theorem TrunFields.readSamples_length {fields : TrunFields} {n : ℕ} {ownFlags : Option UInt32}
    {duration dataSize duration' dataSize' : ℕ} {data rest : List UInt8} {samples : List Sample}
    (h : fields.readSamples n ownFlags duration dataSize data =
      .ok (samples, duration', dataSize', rest)) : samples.length = n := by
  induction n generalizing ownFlags duration dataSize data samples with
  | zero =>
    cases h
    rfl
  | succ n ih =>
    unfold readSamples at h
    obtain ⟨⟨sample, data₁⟩, -, h⟩ := bind_eq_ok.mp h
    obtain ⟨d, -, h⟩ := bind_eq_ok.mp h
    obtain ⟨s, -, h⟩ := bind_eq_ok.mp h
    obtain ⟨⟨samples₁, d₁, s₁, data₂⟩, hrest, h⟩ := bind_eq_ok.mp h
    cases h
    rw [List.length_cons, ih hrest]

theorem normalizeTrun_ok {data : List UInt8} {header : ℕ}
    {defaultDuration defaultSize defaultFlags : UInt32} {durationIsHint : Bool} {run : Run}
    (h : normalizeTrun data header defaultDuration defaultSize defaultFlags durationIsHint = .ok run) :
    0 < run.dataSize ∧ run.startsWithSync = run.firstIsSync ∧ run.samples ≠ [] := by
  unfold normalizeTrun at h
  obtain ⟨u, -, h⟩ := bind_eq_ok.mp h
  simp only at h
  obtain ⟨u, -, h⟩ := bind_eq_ok.mp h
  obtain ⟨u, -, h⟩ := bind_eq_ok.mp h
  obtain ⟨u, hcount, h⟩ := bind_eq_ok.mp h
  rw [failIf_eq_ok] at hcount
  obtain ⟨⟨offset, cursor⟩, h⟩ := of_ite_bind_eq_ok h
  obtain ⟨u, -, h⟩ := bind_eq_ok.mp h
  obtain ⟨⟨firstFlags, cursor⟩, h⟩ := of_ite_bind_eq_ok h
  obtain ⟨u, -, h⟩ := bind_eq_ok.mp h
  obtain ⟨u, -, h⟩ := bind_eq_ok.mp h
  obtain ⟨u, -, h⟩ := bind_eq_ok.mp h
  obtain ⟨u, -, h⟩ := bind_eq_ok.mp h
  obtain ⟨⟨samples, duration, dataSize, cursor⟩, hsamples, h⟩ := bind_eq_ok.mp h
  obtain ⟨u, hbody, h⟩ := bind_eq_ok.mp h
  rw [failIf_eq_ok, not_or, not_or] at hbody
  cases h
  refine ⟨Nat.pos_of_ne_zero hbody.2.2, ?_⟩
  have hlength := TrunFields.readSamples_length hsamples
  cases samples with
  | nil => exact absurd (UInt32.toNat_inj.mp hlength.symm) hcount
  | cons sample rest => exact ⟨rfl, List.cons_ne_nil sample rest⟩

theorem readTruns_ok {defaultDuration defaultSize defaultFlags : UInt32} {durationIsHint : Bool}
    {children : List Box} {duration duration' : ℕ} {runs : List Run}
    (h : readTruns defaultDuration defaultSize defaultFlags durationIsHint children duration =
      .ok (runs, duration')) :
    ∀ run ∈ runs,
      0 < run.dataSize ∧ run.startsWithSync = run.firstIsSync ∧ run.samples ≠ [] := by
  induction children generalizing duration runs with
  | nil =>
    cases h
    exact fun run hrun => absurd hrun List.not_mem_nil
  | cons b rest ih =>
    unfold readTruns at h
    split at h
    · obtain ⟨run, hrun, h⟩ := bind_eq_ok.mp h
      obtain ⟨d, -, h⟩ := bind_eq_ok.mp h
      obtain ⟨⟨runs₁, d₁⟩, hrest, h⟩ := bind_eq_ok.mp h
      cases h
      intro run' hmem
      rcases List.mem_cons.mp hmem with rfl | hmem
      · exact normalizeTrun_ok hrun
      · exact ih hrest run' hmem
    · exact ih h

/-- What a parsed fragment is: of one of the tracks, with data, and marked by its first sample. -/
structure Fragment.Parsed (video audio : TrackIds) (f : Fragment) : Prop where
  track : (f.trackId = video.id ∧ f.timescale = video.timescale) ∨
    (f.trackId ≠ video.id ∧ audio.id ≠ 0 ∧ f.trackId = audio.id ∧ f.timescale = audio.timescale)
  decodeTime : f.decodeTime < 2 ^ 64
  size : 0 < f.size
  sampleCount : 0 < f.sampleCount
  sync : f.startsWithSync = f.firstIsSync
  tfhd : f.tfhd = canonicalTfhd f.trackId f.sampleDescriptionIndex

theorem readTfdt_lt {data : List UInt8} {header decodeTime : ℕ}
    (h : readTfdt data header = some decodeTime) : decodeTime < 2 ^ 64 := by
  unfold readTfdt at h
  split at h
  · cases h
  simp only at h
  split at h
  · split at h
    · cases h
      exact be64_lt _
    · cases h
  · cases h
    exact (be32 _).toNat_lt.trans (by decide)
  · cases h

theorem readTrafHeaders_lt {children : List Box} {tfhd tfhd' : Option Tfhd} {decodeTime : Option ℕ}
    {decodeTime' : ℕ} (hbefore : ∀ time, decodeTime = some time → time < 2 ^ 64)
    (h : readTrafHeaders children tfhd decodeTime = .ok (tfhd', some decodeTime')) :
    decodeTime' < 2 ^ 64 := by
  induction children generalizing tfhd decodeTime with
  | nil =>
    cases h
    exact hbefore _ rfl
  | cons b rest ih =>
    unfold readTrafHeaders at h
    split at h
    · obtain ⟨u, -, h⟩ := bind_eq_ok.mp h
      obtain ⟨t, -, h⟩ := bind_eq_ok.mp h
      exact ih hbefore h
    split at h
    · obtain ⟨u, -, h⟩ := bind_eq_ok.mp h
      obtain ⟨time, htime, h⟩ := bind_eq_ok.mp h
      refine ih (fun time' heq => ?_) h
      cases heq
      exact readTfdt_lt (okOr_eq_ok.mp htime)
    split at h
    · exact ih hbefore h
    · cases h

theorem trackOf_ok {trackId hint videoHint audioHint : UInt32} {video audio track : TrackIds}
    (h : trackOf trackId video audio videoHint audioHint = .ok (track, hint)) :
    (trackId = video.id ∧ track = video) ∨
      (trackId ≠ video.id ∧ audio.id ≠ 0 ∧ trackId = audio.id ∧ track = audio) := by
  unfold trackOf at h
  split at h
  · next hvideo =>
    cases h
    exact Or.inl ⟨hvideo, rfl⟩
  · next hvideo =>
    split at h
    · next haudio =>
      cases h
      exact Or.inr ⟨hvideo, haudio.1, haudio.2, rfl⟩
    · cases h

theorem parseTraf_ok {traf : List UInt8} {trafHeader : ℕ} {video audio : TrackIds}
    {videoHint audioHint : UInt32} {f : Fragment}
    (h : parseTraf traf trafHeader video audio videoHint audioHint = .ok f) :
    f.Parsed video audio := by
  unfold parseTraf at h
  simp only at h
  obtain ⟨headers, hheaders, h⟩ := bind_eq_ok.mp h
  split at h
  · next tfhd decodeTime =>
    obtain ⟨⟨track, hint⟩, htrack, h⟩ := bind_eq_ok.mp h
    obtain ⟨u, -, h⟩ := bind_eq_ok.mp h
    obtain ⟨u, -, h⟩ := bind_eq_ok.mp h
    obtain ⟨⟨runs, duration⟩, hruns, h⟩ := bind_eq_ok.mp h
    cases runs with
    | nil => cases h
    | cons first rest =>
      obtain ⟨u, -, h⟩ := bind_eq_ok.mp h
      cases h
      have hfirst := readTruns_ok hruns first List.mem_cons_self
      refine ⟨?_, ?_, ?_, ?_, hfirst.2.1, rfl⟩
      · rcases trackOf_ok htrack with ⟨heq, rfl⟩ | ⟨hne, hid, heq, rfl⟩
        · exact Or.inl ⟨heq, rfl⟩
        · exact Or.inr ⟨hne, hid, heq, rfl⟩
      · exact readTrafHeaders_lt (fun _ heq => by cases heq) hheaders
      · exact Nat.add_pos_left hfirst.1 _
      · exact Nat.add_pos_left (List.length_pos_iff.mpr hfirst.2.2) _
  · cases h

theorem parseTrafs_ok {video audio : TrackIds} {videoHint audioHint : UInt32} {children : List Box}
    {found found' : Option Fragment} (hbefore : ∀ f, found = some f → f.Parsed video audio)
    (h : parseTrafs video audio videoHint audioHint children found = .ok found') :
    ∀ f, found' = some f → f.Parsed video audio := by
  induction children generalizing found with
  | nil =>
    cases h
    exact hbefore
  | cons b rest ih =>
    unfold parseTrafs at h
    split at h
    · obtain ⟨u, -, h⟩ := bind_eq_ok.mp h
      obtain ⟨f, hf, h⟩ := bind_eq_ok.mp h
      refine ih (fun f' heq => ?_) h
      cases heq
      exact parseTraf_ok hf
    · exact ih hbefore h

theorem parseSourceMoof_ok {moof : List UInt8} {video audio : TrackIds}
    {videoHint audioHint : UInt32} {f : Fragment}
    (h : parseSourceMoof moof video audio videoHint audioHint = .ok f) : f.Parsed video audio := by
  unfold parseSourceMoof at h
  split at h
  · cases h
  · obtain ⟨u, -, h⟩ := bind_eq_ok.mp h
    obtain ⟨found, hfound, h⟩ := bind_eq_ok.mp h
    exact parseTrafs_ok (fun _ heq => by cases heq) hfound f (okOr_eq_ok.mp h)

end Rustorr.Mp4
