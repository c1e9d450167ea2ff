import Rustorr.Gst.Mp4.Passages
import Rustorr.Gst.Mp4.Written

/-! The segments a reader emits, read again by its own parser: the boxes, their sizes, and the media
that the tables point at. -/

namespace Rustorr.Mp4

open BigEndian Except
open Reader (boxOf)

/-! ### The payload -/

theorem writePayload_eq {source payload : List UInt8} {fragments : List Fragment}
    (h : Reader.writePayload source fragments = .ok payload) :
    payload = fragments.flatMap (Fragment.payload source) ∧
      ∀ f ∈ fragments, (f.payload source).length = f.payloadLen := by
  induction fragments generalizing payload with
  | nil =>
    cases h
    exact ⟨rfl, fun f hf => absurd hf List.not_mem_nil⟩
  | cons f rest ih =>
    unfold Reader.writePayload at h
    rw [List.flatMap_cons, List.forall_mem_cons]
    split at h
    · next hzero =>
      obtain ⟨heq, hall⟩ := ih h
      have hnone : f.payload source = [] := by
        unfold Fragment.payload
        rw [hzero, List.take_zero]
      rw [hnone, List.nil_append]
      exact ⟨heq, hzero.symm, hall⟩
    · obtain ⟨u, hfits, h⟩ := bind_eq_ok.mp h
      obtain ⟨payload', hrest, h⟩ := bind_eq_ok.mp h
      rw [failIf_eq_ok, not_lt] at hfits
      cases h
      obtain ⟨heq, hall⟩ := ih hrest
      refine ⟨by rw [← heq]; rfl, ?_, hall⟩
      unfold Fragment.payload
      rw [List.length_take, List.length_drop]
      omega

theorem length_payloads {source : List UInt8} {fragments : List Fragment}
    (h : ∀ f ∈ fragments, (f.payload source).length = f.payloadLen) :
    (fragments.flatMap (Fragment.payload source)).length = (fragments.map Fragment.payloadLen).sum := by
  rw [List.length_flatMap]
  exact congrArg List.sum (List.map_congr_left h)

/-! ### Where runs lie -/

theorem length_assignOffsets (fragments : List Fragment) (base : ℕ) :
    (assignOffsets fragments base).2 = base + (fragments.map Fragment.payloadLen).sum := by
  induction fragments generalizing base with
  | nil => rfl
  | cons f rest ih =>
    have hrest := ih (base + f.payloadLen)
    unfold assignOffsets
    rw [List.map_cons, List.sum_cons, ← Nat.add_assoc]
    exact hrest

/-- What of a run does not depend on where it comes to lie. -/
def Run.content (run : Run) : List Sample × UInt8 × Bool × ℕ × ℕ :=
  (run.samples, run.version, run.hasCompositionTimeOffsets, run.duration, run.dataSize)

theorem content_assignOffsets (fragments : List Fragment) (base : ℕ) :
    ((assignOffsets fragments base).1.flatMap Fragment.runs).map Run.content =
      (fragments.flatMap Fragment.runs).map Run.content := by
  induction fragments generalizing base with
  | nil => rfl
  | cons f rest ih =>
    have hrest := ih (base + f.payloadLen)
    unfold assignOffsets
    rw [List.flatMap_cons, List.flatMap_cons, List.map_append, List.map_append, List.map_map]
    exact congrArg (fun l => f.runs.map Run.content ++ l) hrest

theorem whole_of_content {runs runs' : List Run} (h : runs'.map Run.content = runs.map Run.content)
    (hruns : ∀ run ∈ runs, run.Whole) : ∀ run ∈ runs', run.Whole := by
  intro run hmem
  have hcontent : run.content ∈ runs.map Run.content := by
    rw [← h]
    exact List.mem_map_of_mem hmem
  obtain ⟨source, hsource, heq⟩ := List.mem_map.mp hcontent
  obtain ⟨hsamples, hversion, hoffsets, hduration, hdataSize⟩ :
      source.samples = run.samples ∧ source.version = run.version ∧
        source.hasCompositionTimeOffsets = run.hasCompositionTimeOffsets ∧
        source.duration = run.duration ∧ source.dataSize = run.dataSize := by
    simpa [Run.content] using heq
  obtain ⟨h₁, h₂, h₃, h₄, h₅, h₆, h₇, h₈⟩ := hruns source hsource
  rw [hsamples] at h₁ h₂ h₃ h₇ h₈
  rw [hduration] at h₂
  rw [hdataSize] at h₃ h₄ h₅
  rw [hversion] at h₆
  rw [hoffsets] at h₈
  exact ⟨h₁, h₂, h₃, h₄, h₅, h₆, h₇, h₈⟩

theorem samples_of_content {runs runs' : List Run} (h : runs'.map Run.content = runs.map Run.content) :
    runs'.flatMap Run.samples = runs.flatMap Run.samples := by
  have hsamples := congrArg (fun l => (l.map Prod.fst).flatten) h
  rw [List.map_map, List.map_map] at hsamples
  rwa [List.flatMap_def, List.flatMap_def]

theorem readable_of_content {runs runs' : List Run} (h : runs'.map Run.content = runs.map Run.content) :
    Readable runs' ↔ Readable runs := by
  have hdurations := congrArg (fun l => l.map fun content => content.2.2.2.1) h
  rw [List.map_map, List.map_map] at hdurations
  unfold Readable
  rw [samples_of_content h]
  refine and_congr_left fun _ => ?_
  have hall : ∀ runs : List Run, (∀ run ∈ runs, run.duration ≠ 0) ↔
      ∀ n ∈ runs.map Run.duration, n ≠ 0 := fun runs => by
    rw [List.forall_mem_map]
  rw [hall, hall]
  exact iff_of_eq (congrArg (fun l => ∀ n ∈ l, n ≠ 0) hdurations)

/-- The media that the tables of a track point at, counted from the start of the `moof`. -/
def mediaFrom (bytes : List UInt8) (f : Fragment) : List Media :=
  f.runs.flatMap fun run => withBytes bytes (run.sourceDataOffset.getD 0).toNat run.written

/-- Where the payload lies from an offset on, so does the media of each fragment. -/
theorem media_assignOffsets {source bytes rest : List UInt8} {fragments : List Fragment} {shift base : ℕ}
    (hlaid : ∀ f ∈ fragments, f.Laid)
    (hlength : ∀ f ∈ fragments, (f.payload source).length = f.payloadLen)
    (h : bytes.drop (shift + base) = fragments.flatMap (Fragment.payload source) ++ rest) :
    (((assignOffsets fragments base).1.flatMap Fragment.runs).flatMap fun run =>
      withBytes bytes (shift + run.outputOffset) run.written) = fragments.flatMap (Fragment.media source) := by
  induction fragments generalizing base with
  | nil => rfl
  | cons f more ih =>
    obtain ⟨hf, hmore⟩ := List.forall_mem_cons.mp hlaid
    obtain ⟨hlen, hlens⟩ := List.forall_mem_cons.mp hlength
    rw [List.flatMap_cons, List.append_assoc] at h
    have htake : (bytes.drop (shift + base)).take f.payloadLen = f.payload source := by
      rw [h, ← hlen, List.take_left]
    have hdrop : bytes.drop (shift + (base + f.payloadLen)) =
        more.flatMap (Fragment.payload source) ++ rest := by
      rw [← Nat.add_assoc, ← List.drop_drop, h, ← hlen, List.drop_left]
    have hbytes : 0 + bytesOf (f.written.map fun s => s.2.2) ≤ f.payloadLen := by
      rw [Nat.zero_add, map_written_samples, hf.payloadLen]
    have hmedia : (f.runs.flatMap fun run => withBytes bytes (shift + base + run.payloadOffset) run.written) =
        f.media source := by
      rw [media_of_placed hf.placed, Nat.add_zero, hf.media_eq]
      have hhere := withBytes_part bytes (shift + base) f.payloadLen hbytes
      have hthere := withBytes_part source f.payloadStart f.payloadLen hbytes
      rw [Nat.add_zero] at hhere hthere
      have hsame : (bytes.drop (shift + base)).take f.payloadLen =
          (source.drop f.payloadStart).take f.payloadLen := htake
      exact hhere.symm.trans ((congrArg (fun l => withBytes l 0 f.written) hsame).trans hthere)
    have hrest := ih hmore hlens hdrop
    unfold assignOffsets
    rw [List.flatMap_cons, List.flatMap_append, List.flatMap_map, List.flatMap_cons, ← hmedia, hrest]
    congr 2
    funext run
    show withBytes bytes (shift + (base + run.payloadOffset)) run.written = _
    rw [Nat.add_assoc]

/-! ### The boxes -/

theorem writeTruns_eq {moofSize headerSize : ℕ} {runs : List Run} {bytes : List UInt8}
    (h : writeTruns moofSize headerSize runs = .ok bytes) :
    (bytes = runs.flatMap fun run =>
      boxOf Kind.trun (trunBody run (moofSize + headerSize + run.outputOffset))) ∧
      ∀ run ∈ runs, moofSize + headerSize + run.outputOffset ≤ i32Max := by
  induction runs generalizing bytes with
  | nil =>
    cases h
    exact ⟨rfl, fun run hmem => absurd hmem List.not_mem_nil⟩
  | cons run rest ih =>
    unfold writeTruns at h
    simp only at h
    obtain ⟨u, hoffset, h⟩ := bind_eq_ok.mp h
    obtain ⟨trun, htrun, h⟩ := bind_eq_ok.mp h
    obtain ⟨truns, htruns, h⟩ := bind_eq_ok.mp h
    rw [failIf_eq_ok, not_lt] at hoffset
    cases h
    obtain ⟨heq, hall⟩ := ih htruns
    rw [List.flatMap_cons, ← heq, ← writeCanonicalTrun_eq htrun]
    exact ⟨rfl, List.forall_mem_cons.mpr ⟨hoffset, hall⟩⟩

theorem length_truns (offset : Run → ℕ) (runs : List Run) :
    (runs.flatMap fun run => boxOf Kind.trun (trunBody run (offset run))).length =
      (runs.map canonicalTrunSize).sum := by
  rw [List.length_flatMap]
  congr 2
  funext run
  rw [length_boxOf, length_trunBody]

theorem length_trafBody (trackId index : UInt32) (decodeTime : ℕ) (offset : Run → ℕ) (fragments : List Fragment) :
    (trafBody trackId index decodeTime offset (fragments.flatMap Fragment.runs)).length + 8 =
      trafSize fragments := by
  have htfhd : (canonicalTfhd trackId index).length = canonicalTfhdSize := rfl
  have htfdt : (writeTfdt decodeTime).length = 20 := rfl
  unfold trafBody trafSize
  rw [List.length_append, List.length_append, length_truns, htfhd, htfdt]
  omega

namespace Reader

variable {r r' : Reader}

theorem writeTraf_eq {first : Fragment} {rest : List Fragment} {moofSize headerSize : ℕ} {bytes : List UInt8}
    (htfhd : first.tfhd = canonicalTfhd first.trackId first.sampleDescriptionIndex)
    (h : r.writeTraf (first :: rest) moofSize headerSize = .ok bytes) :
    ∃ decodeTime, addTfdtOffset first.decodeTime first.timescale r.tfdtOffsetSeconds = .ok decodeTime ∧
      bytes = boxOf Kind.traf (trafBody first.trackId first.sampleDescriptionIndex decodeTime
        (fun run => moofSize + headerSize + run.outputOffset) ((first :: rest).flatMap Fragment.runs)) ∧
      bytes.length = trafSize (first :: rest) ∧
      ∀ run ∈ (first :: rest).flatMap Fragment.runs, moofSize + headerSize + run.outputOffset ≤ i32Max := by
  unfold writeTraf at h
  simp only at h
  obtain ⟨u, -, h⟩ := bind_eq_ok.mp h
  obtain ⟨decodeTime, htime, h⟩ := bind_eq_ok.mp h
  obtain ⟨truns, htruns, h⟩ := bind_eq_ok.mp h
  obtain ⟨heq, hoffset⟩ := writeTruns_eq htruns
  have hlength := length_trafBody first.trackId first.sampleDescriptionIndex decodeTime
    (fun run => moofSize + headerSize + run.outputOffset) (first :: rest)
  have hbytes : bytes = boxOf Kind.traf (trafBody first.trackId first.sampleDescriptionIndex decodeTime
      (fun run => moofSize + headerSize + run.outputOffset) ((first :: rest).flatMap Fragment.runs)) := by
    cases h
    unfold boxOf
    rw [hlength]
    unfold trafBody
    rw [htfhd, heq]
    simp only [List.append_assoc]
  refine ⟨decodeTime, htime, hbytes, ?_, hoffset⟩
  rw [hbytes, length_boxOf, hlength]

theorem addTfdtOffset_lt {value n : ℕ} {timescale : UInt32} {seconds : Binary64}
    (hvalue : value < 2 ^ 64) (h : addTfdtOffset value timescale seconds = .ok n) : n < 2 ^ 64 := by
  unfold addTfdtOffset at h
  split at h
  · cases h
    exact hvalue
  · simp only at h
    obtain ⟨u, -, h⟩ := bind_eq_ok.mp h
    obtain ⟨hlt, rfl⟩ := of_add64_eq_ok h
    exact hlt

/-! ### Tracks -/

/-- What is read of a track is fragments put together: it is described as the first of them, starts when
that does, moved with the timeline, and has the samples of all of them, where their bytes are. -/
structure IsTrackOf (r : Reader) (bytes : List UInt8) (fragments : List Fragment) (f : Fragment) : Prop where
  first : ∃ first, fragments.head? = some first ∧ f.trackId = first.trackId ∧
    f.timescale = first.timescale ∧ f.sampleDescriptionIndex = first.sampleDescriptionIndex ∧
    addTfdtOffset first.decodeTime first.timescale r.tfdtOffsetSeconds = .ok f.decodeTime
  samples : f.samples = fragments.flatMap Fragment.samples
  duration : f.duration = durationOf f.samples
  media : mediaFrom bytes f = fragments.flatMap (Fragment.media r.sourcePayload)

/-- A box that holds such a track, and can be read just where the runs can. -/
structure HoldsTrack (r : Reader) (bytes : List UInt8) (fragments : List Fragment) (traf : Box) : Prop where
  kind : traf.kind = Kind.traf
  readable : (∃ f, parseTraf traf.bytes traf.header r.videoTrack r.audioTrack 0 0 = .ok f) ↔
    Readable (fragments.flatMap Fragment.runs)
  track : ∀ f, parseTraf traf.bytes traf.header r.videoTrack r.audioTrack 0 0 = .ok f →
    r.IsTrackOf bytes fragments f

theorem map_reread (runs : List Run) (offset : Run → ℕ) :
    (runs.map fun run => run.reread (offset run)).flatMap Run.samples = runs.flatMap Run.samples := by
  rw [List.flatMap_map]
  rfl

theorem holdsTrack_of_writeTraf {fragments : List Fragment} {track : TrackIds}
    {base moofSize headerSize : ℕ} {bytes all rest : List UInt8} (hne : fragments ≠ [])
    (hlaid : ∀ f ∈ fragments, f.Laid) (hof : ∀ f ∈ fragments, f.Of track)
    (htrack : trackOf track.id r.videoTrack r.audioTrack 0 0 = .ok (track, 0))
    (hlength : ∀ f ∈ fragments, (f.payload r.sourcePayload).length = f.payloadLen)
    (hwrite : r.writeTraf (assignOffsets fragments base).1 moofSize headerSize = .ok bytes)
    (hdrop : all.drop (moofSize + headerSize + base) =
      fragments.flatMap (Fragment.payload r.sourcePayload) ++ rest) :
    (∃ body, bytes = boxOf Kind.traf body) ∧ bytes.length = trafSize (assignOffsets fragments base).1 ∧
      moofSize ≤ i32Max ∧ r.HoldsTrack all fragments ⟨Kind.traf, 8, bytes⟩ := by
  obtain ⟨first, more, rfl⟩ := List.exists_cons_of_ne_nil hne
  have hfirst := hlaid first List.mem_cons_self
  have hfirstOf := hof first List.mem_cons_self
  have hcontent := content_assignOffsets (first :: more) base
  have hmedia := media_assignOffsets hlaid hlength hdrop
  have hruns : ∀ run ∈ (first :: more).flatMap Fragment.runs, run.Whole := by
    intro run hmem
    obtain ⟨f, hf, hrun⟩ := List.mem_flatMap.mp hmem
    exact (hlaid f hf).run run hrun
  have hwhole := whole_of_content hcontent hruns
  have hsome : (assignOffsets (first :: more) base).1.flatMap Fragment.runs ≠ [] := by
    intro hnil
    rw [hnil, List.map_nil, eq_comm, List.map_eq_nil_iff, List.flatMap_cons, List.append_eq_nil_iff] at hcontent
    exact hfirst.runs hcontent.1
  have hassign : ∃ runs rest', (assignOffsets (first :: more) base).1 = { first with runs } :: rest' :=
    ⟨_, _, rfl⟩
  obtain ⟨runs, rest', hassign⟩ := hassign
  rw [hassign] at hwrite hcontent hmedia hwhole hsome ⊢
  have htfhd : ({ first with runs } : Fragment).tfhd = canonicalTfhd first.trackId first.sampleDescriptionIndex :=
    hfirstOf.tfhd
  obtain ⟨decodeTime, htime, hbytes, hlen, hoffset⟩ := writeTraf_eq htfhd hwrite
  have htime' := addTfdtOffset_lt hfirstOf.decodeTime htime
  rw [← hfirstOf.trackId] at htrack
  have hparse := fun f => @parseTraf_written _ _ _ _ _ r.videoTrack r.audioTrack track f hfirst.named.1
    hfirst.named.2.1 htime' htrack (hfirstOf.timescale ▸ hfirst.named.2.2) hsome hwhole hoffset
  have hmoof : moofSize ≤ i32Max := by
    obtain ⟨run, hrun⟩ := List.exists_mem_of_ne_nil _ hsome
    have hle := hoffset run hrun
    omega
  refine ⟨⟨_, hbytes⟩, hlen, hmoof, ⟨rfl, ?_, ?_⟩⟩
  · show (∃ f, parseTraf bytes 8 r.videoTrack r.audioTrack 0 0 = .ok f) ↔ _
    rw [hbytes, ← readable_of_content hcontent]
    constructor
    · rintro ⟨f, hf⟩
      exact ((hparse f).mp hf).1
    · exact fun hreadable => ⟨_, (hparse _).mpr ⟨hreadable, rfl⟩⟩
  · intro f hf
    have hf' : parseTraf bytes 8 r.videoTrack r.audioTrack 0 0 = .ok f := hf
    rw [hbytes] at hf'
    obtain ⟨-, rfl⟩ := (hparse f).mp hf'
    have hsamples := samples_of_content hcontent
    constructor
    · exact ⟨first, rfl, rfl, hfirstOf.timescale.symm, rfl, htime⟩
    · show (List.map _ _).flatMap Run.samples = _
      rw [map_reread, hsamples, List.flatMap_assoc]
      rfl
    · show durationOf _ = durationOf ((List.map _ _).flatMap Run.samples)
      rw [map_reread]
    · rw [← hmedia]
      show (List.map _ _).flatMap _ = _
      rw [List.flatMap_map]
      rfl

/-- The tracks that fragments make, if there are any. -/
def tracksOf (fragments : List Fragment) : List (List Fragment) := if fragments = [] then [] else [fragments]

theorem length_writeTraf {fragments : List Fragment} {moofSize headerSize : ℕ} {bytes : List UInt8}
    (htfhd : ∀ f ∈ fragments, f.tfhd = canonicalTfhd f.trackId f.sampleDescriptionIndex)
    (h : r.writeTraf fragments moofSize headerSize = .ok bytes) :
    bytes.length = if fragments ≠ [] then trafSize fragments else 0 := by
  cases fragments with
  | nil =>
    cases h
    rfl
  | cons first rest =>
    obtain ⟨-, -, -, hlength, -⟩ := writeTraf_eq (htfhd first List.mem_cons_self) h
    rw [if_pos (List.cons_ne_nil first rest), hlength]

/-- The boxes of a track, or none, at the front of others. -/
theorem tracks_of_writeTraf {fragments : List Fragment} {track : TrackIds}
    {base moofSize headerSize : ℕ} {bytes all rest : List UInt8} (hlaid : ∀ f ∈ fragments, f.Laid)
    (hof : ∀ f ∈ fragments, f.Of track)
    (htrack : fragments ≠ [] → trackOf track.id r.videoTrack r.audioTrack 0 0 = .ok (track, 0))
    (hlength : ∀ f ∈ fragments, (f.payload r.sourcePayload).length = f.payloadLen)
    (hwrite : r.writeTraf (assignOffsets fragments base).1 moofSize headerSize = .ok bytes)
    (hdrop : all.drop (moofSize + headerSize + base) =
      fragments.flatMap (Fragment.payload r.sourcePayload) ++ rest) (hfits : bytes.length ≤ moofSize) :
    (fragments ≠ [] → moofSize ≤ i32Max) ∧ ∃ trafs, (∀ more, boxes (bytes ++ more) = trafs ++ boxes more) ∧
      List.Forall₂ (r.HoldsTrack all) (tracksOf fragments) trafs := by
  by_cases hne : fragments = []
  · subst hne
    cases hwrite
    exact ⟨fun h => absurd rfl h, [], fun more => rfl, .nil⟩
  · obtain ⟨⟨body, hbody⟩, -, hmoof, hholds⟩ :=
      holdsTrack_of_writeTraf hne hlaid hof (htrack hne) hlength hwrite hdrop
    refine ⟨fun _ => hmoof, [⟨Kind.traf, 8, bytes⟩], fun more => ?_, ?_⟩
    · have hsize : body.length + 8 ≤ i32Max := by
        rw [hbody, length_boxOf] at hfits
        omega
      rw [hbody, boxes_boxOf hsize]
      rfl
    · unfold tracksOf
      rw [if_neg hne]
      exact .cons hholds .nil

theorem writeMfhd_eq (sequence : UInt32) : writeMfhd sequence = boxOf Kind.mfhd (toBe32 0 ++ toBe32 sequence) := by
  unfold writeMfhd boxOf writeHeader
  simp only [List.append_assoc]
  rfl

/-- The size a box declares. -/
def declaredSize (bytes : List UInt8) : ℕ :=
  if be32 bytes = 1 then be64 (bytes.drop 8) else (be32 bytes).toNat

/-- The segment of some fragments: a `moof` and an `mdat` after what is put in front of them, with the
tracks of the fragments and their payload. -/
structure ReadsBack (r : Reader) (video audio : List Fragment) (data : List UInt8) : Prop where
  read : ∃ moof mdat headerSize trafs,
    data = r.styp ++ (if r.prefixActive then r.prefixBoxes else []) ++ (moof ++ mdat) ∧
    tryReadBox (moof ++ mdat) = some (⟨Kind.moof, 8, moof⟩, mdat) ∧
    boxes (moof.drop 8) = ⟨Kind.mfhd, 8, writeMfhd r.sequence⟩ :: trafs ∧
    List.Forall₂ (r.HoldsTrack (moof ++ mdat)) (tracksOf video ++ tracksOf audio) trafs ∧
    mdat.drop headerSize = (video ++ audio).flatMap (Fragment.payload r.sourcePayload) ∧
    be32 (mdat.drop 4) = Kind.mdat ∧ (mdat.length < 2 ^ 64 → declaredSize mdat = mdat.length)

theorem declaredSize_mdat {payload : List UInt8} {headerSize : ℕ}
    (hheader : headerSize = if payload.length + 8 > u32Max then 16 else 8) :
    (writeMdatHeader payload.length headerSize).length = headerSize ∧
      be32 ((writeMdatHeader payload.length headerSize ++ payload).drop 4) = Kind.mdat ∧
      ((writeMdatHeader payload.length headerSize ++ payload).length < 2 ^ 64 →
        declaredSize (writeMdatHeader payload.length headerSize ++ payload) =
          (writeMdatHeader payload.length headerSize ++ payload).length) := by
  unfold writeMdatHeader
  split at hheader
  · next hlarge =>
    subst hheader
    rw [if_neg (by decide)]
    have hfirst : be32 (writeHeader 1 Kind.mdat ++ toBe64 (payload.length + 16) ++ payload) = 1 := by
      unfold writeHeader
      rw [List.append_assoc, List.append_assoc]
      exact be32_toBe32 _ _
    have hrest : (writeHeader 1 Kind.mdat ++ toBe64 (payload.length + 16) ++ payload).drop 8 =
        toBe64 (payload.length + 16) ++ payload := rfl
    have hlength : (writeHeader 1 Kind.mdat ++ toBe64 (payload.length + 16) ++ payload).length =
        payload.length + 16 := by
      rw [List.length_append, Nat.add_comm]
      rfl
    refine ⟨rfl, be32_toBe32 Kind.mdat _, fun hlt => ?_⟩
    unfold declaredSize
    rw [hlength] at hlt ⊢
    rw [hfirst, if_pos rfl, hrest, be64_toBe64 hlt]
  · next hsmall =>
    subst hheader
    rw [if_pos rfl]
    have hlt : payload.length + 8 < 2 ^ 32 := by
      unfold u32Max at hsmall
      omega
    have hword : (UInt32.ofNat (payload.length + 8)).toNat = payload.length + 8 := UInt32.toNat_ofNat_of_lt' hlt
    have hfirst : be32 (writeHeader (UInt32.ofNat (payload.length + 8)) Kind.mdat ++ payload) =
        UInt32.ofNat (payload.length + 8) := by
      unfold writeHeader
      rw [List.append_assoc]
      exact be32_toBe32 _ _
    have hone : UInt32.ofNat (payload.length + 8) ≠ 1 := by
      intro heq
      have hnat := congrArg UInt32.toNat heq
      rw [hword] at hnat
      have hone : (1 : UInt32).toNat = 1 := rfl
      omega
    refine ⟨rfl, be32_toBe32 Kind.mdat _, fun _ => ?_⟩
    unfold declaredSize
    rw [hfirst, if_neg hone, hword, List.length_append, Nat.add_comm]
    rfl

theorem flatMap_assigned (fragments : List Fragment) (base : ℕ) (source : List UInt8) :
    (assignOffsets fragments base).1.flatMap (Fragment.payload source) =
      fragments.flatMap (Fragment.payload source) := by
  have hmap := @map_assignOffsets _ (Fragment.payload source) (fun f runs => rfl) fragments base
  rw [List.flatMap_def, List.flatMap_def, hmap]

theorem lengths_assigned {fragments : List Fragment} {base : ℕ} {source : List UInt8}
    (h : ∀ f ∈ (assignOffsets fragments base).1, (f.payload source).length = f.payloadLen) :
    ∀ f ∈ fragments, (f.payload source).length = f.payloadLen := by
  have hmap := @map_assignOffsets _ (fun f => ((f.payload source).length, f.payloadLen)) (fun f runs => rfl)
    fragments base
  intro f hf
  have hmem : ((f.payload source).length, f.payloadLen) ∈
      (assignOffsets fragments base).1.map fun f => ((f.payload source).length, f.payloadLen) := by
    rw [hmap]
    exact List.mem_map_of_mem hf
  obtain ⟨f', hf', heq⟩ := List.mem_map.mp hmem
  obtain ⟨hpayload, hlen⟩ := Prod.mk.inj heq
  rw [← hpayload, ← hlen]
  exact h f' hf'

theorem tfhd_assigned {fragments : List Fragment} {track : TrackIds} (base : ℕ)
    (hof : ∀ f ∈ fragments, f.Of track) :
    ∀ f ∈ (assignOffsets fragments base).1, f.tfhd = canonicalTfhd f.trackId f.sampleDescriptionIndex := by
  have hmap := @map_assignOffsets _ (fun f => (f.tfhd, canonicalTfhd f.trackId f.sampleDescriptionIndex))
    (fun f runs => rfl) fragments base
  intro f hf
  have hmem : (f.tfhd, canonicalTfhd f.trackId f.sampleDescriptionIndex) ∈
      fragments.map fun f => (f.tfhd, canonicalTfhd f.trackId f.sampleDescriptionIndex) := by
    rw [← hmap]
    exact List.mem_map_of_mem hf
  obtain ⟨f', hf', heq⟩ := List.mem_map.mp hmem
  obtain ⟨htfhd, hcanonical⟩ := Prod.mk.inj heq
  rw [← htfhd, ← hcanonical]
  exact (hof f' hf').tfhd

theorem readsBack_of_writeSegment {video audio : List Fragment} {data : List UInt8} {times : ℕ × ℕ}
    (hvideo : ∀ f ∈ video, f.Laid ∧ f.Of r.videoTrack)
    (haudio : ∀ f ∈ audio, (f.Laid ∧ f.Of r.audioTrack) ∧ f.trackId ≠ r.videoTrack.id)
    (hsome : ¬(video = [] ∧ audio = []))
    (h : r.writeSegment video audio = .ok (data, times)) : r.ReadsBack video audio data := by
  have hvideoLaid := fun f hf => (hvideo f hf).1
  have hvideoOf := fun f hf => (hvideo f hf).2
  have haudioLaid := fun f hf => (haudio f hf).1.1
  have haudioOf := fun f hf => (haudio f hf).1.2
  have hlength := length_assignOffsets video 0
  have hlength' := length_assignOffsets audio (assignOffsets video 0).2
  unfold writeSegment at h
  simp only at h
  obtain ⟨u, hsmall, h⟩ := bind_eq_ok.mp h
  obtain ⟨videoBytes, hvideoBytes, h⟩ := bind_eq_ok.mp h
  obtain ⟨audioBytes, haudioBytes, h⟩ := bind_eq_ok.mp h
  obtain ⟨t, -, h⟩ := bind_eq_ok.mp h
  obtain ⟨payload, hpayload, h⟩ := bind_eq_ok.mp h
  obtain ⟨hpayload, hlens⟩ := writePayload_eq hpayload
  rw [List.forall_mem_append] at hlens
  rw [List.flatMap_append, flatMap_assigned, flatMap_assigned] at hpayload
  have hvideoLens := lengths_assigned hlens.1
  have haudioLens := lengths_assigned hlens.2
  have hvideoSize := length_writeTraf (tfhd_assigned 0 hvideoOf) hvideoBytes
  have haudioSize := length_writeTraf (tfhd_assigned _ haudioOf) haudioBytes
  have htotal : (assignOffsets audio (assignOffsets video 0).2).2 = payload.length := by
    rw [hlength', hlength, hpayload, List.length_append, length_payloads hvideoLens,
      length_payloads haudioLens, Nat.zero_add]
  rw [← hvideoSize, ← haudioSize, htotal] at hvideoBytes haudioBytes h
  generalize hmoofSize : 8 + 16 + videoBytes.length + audioBytes.length = moofSize at hvideoBytes haudioBytes h
  generalize hheader : (if payload.length + 8 > u32Max then 16 else 8) = headerSize
    at hvideoBytes haudioBytes h
  obtain ⟨hheaderLength, hkind, hdeclared⟩ := declaredSize_mdat hheader.symm
  have hbody : (writeMfhd r.sequence ++ (videoBytes ++ audioBytes)).length + 8 = moofSize := by
    have hmfhd : (writeMfhd r.sequence).length = 16 := rfl
    rw [List.length_append, List.length_append, hmfhd]
    omega
  have hmoof : (boxOf Kind.moof (writeMfhd r.sequence ++ (videoBytes ++ audioBytes))).length = moofSize := by
    rw [length_boxOf, hbody]
  generalize writeMdatHeader payload.length headerSize = head at hheaderLength hkind hdeclared h
  have hdrop : ∀ n, (boxOf Kind.moof (writeMfhd r.sequence ++ (videoBytes ++ audioBytes)) ++
      (head ++ payload)).drop (moofSize + headerSize + n) = payload.drop n := by
    intro n
    rw [Nat.add_assoc, ← List.drop_drop, ← hmoof, List.drop_left, ← List.drop_drop, ← hheaderLength,
      List.drop_left]
  have hvideoDrop := hdrop 0
  have haudioDrop := hdrop (assignOffsets video 0).2
  have hbefore : (assignOffsets video 0).2 = (video.flatMap (Fragment.payload r.sourcePayload)).length := by
    rw [hlength, Nat.zero_add, length_payloads hvideoLens]
  have haudioPayload : payload.drop (assignOffsets video 0).2 =
      audio.flatMap (Fragment.payload r.sourcePayload) ++ [] := by
    rw [hbefore, hpayload, List.drop_left, List.append_nil]
  rw [haudioPayload] at haudioDrop
  rw [List.drop_zero] at hvideoDrop
  have hvideoTrack : video ≠ [] → trackOf r.videoTrack.id r.videoTrack r.audioTrack 0 0 = .ok (r.videoTrack, 0) :=
    fun _ => if_pos rfl
  have haudioTrack : audio ≠ [] → trackOf r.audioTrack.id r.videoTrack r.audioTrack 0 0 = .ok (r.audioTrack, 0) := by
    intro hne
    obtain ⟨f, hf⟩ := List.exists_mem_of_ne_nil audio hne
    have hid := (haudioOf f hf).trackId
    have hother : r.audioTrack.id ≠ r.videoTrack.id := hid ▸ (haudio f hf).2
    have hzero : r.audioTrack.id ≠ 0 := hid ▸ (haudioLaid f hf).named.1
    unfold trackOf
    rw [if_neg hother, if_pos ⟨hzero, rfl⟩]
  obtain ⟨hvideoFits, videoTrafs, hvideoBoxes, hvideoHolds⟩ :=
    tracks_of_writeTraf hvideoLaid hvideoOf hvideoTrack hvideoLens hvideoBytes
      (hvideoDrop.trans hpayload) (by omega)
  obtain ⟨haudioFits, audioTrafs, haudioBoxes, haudioHolds⟩ :=
    tracks_of_writeTraf haudioLaid haudioOf haudioTrack haudioLens haudioBytes haudioDrop (by omega)
  have hfits : moofSize ≤ i32Max := by
    rcases not_and_or.mp hsome with hne | hne
    · exact hvideoFits hne
    · exact haudioFits hne
  have hboxes : boxes ((boxOf Kind.moof (writeMfhd r.sequence ++ (videoBytes ++ audioBytes))).drop 8) =
      ⟨Kind.mfhd, 8, writeMfhd r.sequence⟩ :: (videoTrafs ++ audioTrafs) := by
    have hsixteen : 16 ≤ i32Max := by decide
    have hsmall' : (toBe32 0 ++ toBe32 r.sequence).length + 8 ≤ i32Max := hsixteen
    have haudioAlone := haudioBoxes []
    rw [List.append_nil, boxes_nil, List.append_nil] at haudioAlone
    rw [drop_boxOf, writeMfhd_eq, boxes_boxOf hsmall', hvideoBoxes, haudioAlone]
  have hheaderEq : writeHeader (UInt32.ofNat moofSize) Kind.moof ++
      (writeMfhd r.sequence ++ (videoBytes ++ audioBytes)) =
        boxOf Kind.moof (writeMfhd r.sequence ++ (videoBytes ++ audioBytes)) := by
    unfold boxOf
    rw [hbody]
  cases h
  refine ⟨_, head ++ payload, headerSize, videoTrafs ++ audioTrafs, ?_, tryReadBox_boxOf (by omega) _, hboxes,
    List.rel_append hvideoHolds haudioHolds, ?_, hkind, hdeclared⟩
  · rw [← hheaderEq]
    simp only [List.append_assoc]
  · rw [← hheaderLength, List.drop_left, hpayload, List.flatMap_append]

/-! ### Runs -/

theorem readsBack_of_build {k a : ℕ} {allow : Bool} {segment : Segment} (harranged : r.Arranged)
    (hqueued : r.Queued) (h : r.buildSegment k a allow = .ok r') (hnew : r'.newSegment = some segment) :
    r.ReadsBack (r.video.take k) (r.audio.take a) segment.data := by
  obtain ⟨segment', -, -, htracks, hwrite, rfl⟩ := buildSegment_cases h
  obtain ⟨start, sourcePayload, currentPayloadStart, hreclaim, -⟩ :=
    reclaimPayloads_cases (r.cutOff k a segment').resetPrefix
  rw [hreclaim] at hnew
  cases hnew
  unfold checkTracks at htracks
  obtain ⟨u, hsome, -⟩ := bind_eq_ok.mp htracks
  rw [failIf_eq_ok] at hsome
  apply readsBack_of_writeSegment ?_ ?_ hsome hwrite
  · intro f hf
    have hmem := List.mem_of_mem_take hf
    exact ⟨harranged.video f hmem, hqueued.video f hmem⟩
  · intro f hf
    have hmem := List.mem_of_mem_take hf
    exact ⟨⟨harranged.audio f hmem, hqueued.audio f hmem⟩, harranged.apart f hmem⟩

theorem HoldsTrack.of_audio {bytes : List UInt8} {fragments audio : List Fragment} {traf : Box}
    (h : ({ r with audio } : Reader).HoldsTrack bytes fragments traf) : r.HoldsTrack bytes fragments traf := by
  obtain ⟨hkind, hreadable, htrack⟩ := h
  refine ⟨hkind, hreadable, fun f hf => ?_⟩
  obtain ⟨hfirst, hsamples, hduration, hmedia⟩ := htrack f hf
  exact ⟨hfirst, hsamples, hduration, hmedia⟩

theorem ReadsBack.of_audio {data : List UInt8} {v a audio : List Fragment}
    (h : ({ r with audio } : Reader).ReadsBack v a data) : r.ReadsBack v a data := by
  obtain ⟨moof, mdat, headerSize, trafs, hdata, hmoof, hboxes, htracks, hpayload, hkind, hdeclared⟩ := h.read
  exact ⟨moof, mdat, headerSize, trafs, hdata, hmoof, hboxes, htracks.imp fun _ _ hholds => hholds.of_audio,
    hpayload, hkind, hdeclared⟩

theorem Sends.readsBack {allow : Bool} {segment : Segment} {video audio : List Media}
    (h : r.Sends allow r' (.sent segment video audio)) (harranged : r.Arranged) (hqueued : r.Queued) :
    ∃ v a, r.ReadsBack v a segment.data ∧ video = v.flatMap (Fragment.media r.sourcePayload) ∧
      audio = a.flatMap (Fragment.media r.sourcePayload) := by
  cases h with
  | sent hselects hcut hnew =>
    have hreads := readsBack_of_build (hselects.arranged harranged) (hselects.queued hqueued) hcut hnew
    obtain ⟨audio, rfl, -, -, -⟩ := hselects.cases harranged
    exact ⟨_, _, hreads.of_audio, rfl, rfl⟩

theorem Reachable.arranged (h : r.Reachable) : r.Arranged := by
  obtain ⟨r₀, hblank, log, hrun⟩ := h
  have hall := hrun.keeps (P := fun r => (r.Framed ∧ r.Queued) ∧ r.Arranged)
    (fun _ _ _ hstep h => ⟨⟨h.1.1.step hstep, h.1.2.step hstep h.1.1⟩, h.2.step hstep h.1.2⟩)
    ⟨⟨hblank.framed, hblank.queued⟩, hblank.arranged⟩
  exact hall.2

end Reader

end Rustorr.Mp4
