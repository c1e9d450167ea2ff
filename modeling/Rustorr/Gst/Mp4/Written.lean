import Rustorr.Gst.Mp4.Ledger

/-! What is written of a track in a segment, read back by the parser: the boxes, the tables of samples,
and where the bytes of the samples lie. -/

namespace Rustorr.Mp4

open BigEndian Except
open Reader (boxOf)

/-! ### Boxes -/

variable {kind : UInt32} {body rest : List UInt8}

theorem length_boxOf (kind : UInt32) (body : List UInt8) : (boxOf kind body).length = body.length + 8 := by
  unfold boxOf writeHeader
  rw [List.length_append, List.length_append, length_toBe32, length_toBe32, Nat.add_comm]

theorem drop_boxOf (kind : UInt32) (body : List UInt8) : (boxOf kind body).drop 8 = body := rfl

/-- A box that was written is read, with what follows it left. -/
theorem tryReadBox_boxOf (h : body.length + 8 ≤ i32Max) (rest : List UInt8) :
    tryReadBox (boxOf kind body ++ rest) = some (⟨kind, 8, boxOf kind body⟩, rest) := by
  have hlength := length_boxOf kind body
  have hsize : (UInt32.ofNat (body.length + 8)).toNat = body.length + 8 := by
    apply UInt32.toNat_ofNat_of_lt'
    exact h.trans_lt (by decide)
  have hfirst : be32 (boxOf kind body ++ rest) = UInt32.ofNat (body.length + 8) := by
    unfold boxOf writeHeader
    rw [List.append_assoc, List.append_assoc]
    exact be32_toBe32 _ _
  have hkind : be32 ((boxOf kind body ++ rest).drop 4) = kind := by
    show be32 (toBe32 kind ++ (body ++ rest)) = kind
    exact be32_toBe32 kind _
  have hne : ∀ n : ℕ, n < 8 → UInt32.ofNat (body.length + 8) ≠ UInt32.ofNat n := by
    intro n hn heq
    have hnat := congrArg UInt32.toNat heq
    rw [hsize, UInt32.toNat_ofNat'] at hnat
    omega
  unfold tryReadBox
  rw [if_neg (by rw [List.length_append, hlength]; omega)]
  simp only [hfirst, hkind]
  have hone : UInt32.ofNat (body.length + 8) ≠ 1 := hne 1 (by decide)
  have hzero : UInt32.ofNat (body.length + 8) ≠ 0 := hne 0 (by decide)
  rw [if_neg hone, if_neg hzero]
  simp only [hsize]
  rw [if_neg (by rw [List.length_append, hlength]; omega), ← hlength, List.take_left, List.drop_left]

theorem boxes_boxOf (h : body.length + 8 ≤ i32Max) (rest : List UInt8) :
    boxes (boxOf kind body ++ rest) = ⟨kind, 8, boxOf kind body⟩ :: boxes rest := by
  rw [boxes_eq, tryReadBox_boxOf h]

theorem boxes_nil : boxes [] = [] := rfl

/-! ### The table of a run -/

/-- What comes after the header of a `trun`. -/
def trunBody (run : Run) (offset : ℕ) : List UInt8 :=
  toBe32 (run.version.toUInt32 <<< 24 ||| canonicalTrunFlags run) ++
    (toBe32 (UInt32.ofNat run.samples.length) ++ (toBe32 (UInt32.ofNat offset) ++
      run.samples.flatMap (writeSample run.hasCompositionTimeOffsets)))

theorem length_writeSample (hasOffsets : Bool) (s : Sample) :
    (writeSample hasOffsets s).length = if hasOffsets then 16 else 12 := by
  cases hasOffsets <;> rfl

theorem length_writeSamples (hasOffsets : Bool) (samples : List Sample) :
    (samples.flatMap (writeSample hasOffsets)).length =
      samples.length * (if hasOffsets then 16 else 12) := by
  induction samples with
  | nil => rw [List.flatMap_nil, List.length_nil, List.length_nil, Nat.zero_mul]
  | cons s samples ih =>
    rw [List.flatMap_cons, List.length_append, ih, length_writeSample, List.length_cons, Nat.succ_mul,
      Nat.add_comm]

theorem length_trunBody (run : Run) (offset : ℕ) :
    (trunBody run offset).length + 8 = canonicalTrunSize run := by
  unfold trunBody canonicalTrunSize
  rw [List.length_append, List.length_append, List.length_append, length_writeSamples, length_toBe32,
    length_toBe32, length_toBe32]
  omega

theorem writeCanonicalTrun_eq {run : Run} {offset : ℕ} {bytes : List UInt8}
    (h : writeCanonicalTrun run offset = .ok bytes) : bytes = boxOf Kind.trun (trunBody run offset) := by
  unfold writeCanonicalTrun at h
  obtain ⟨u, -, h⟩ := bind_eq_ok.mp h
  obtain ⟨u, -, h⟩ := bind_eq_ok.mp h
  obtain ⟨u, -, h⟩ := bind_eq_ok.mp h
  rw [← Except.ok.inj h]
  unfold boxOf writeHeader
  rw [length_trunBody]
  unfold trunBody
  simp only [List.append_assoc]

/-- The fields a canonical `trun` has for each sample. -/
def canonicalFields (hasOffsets : Bool) (defaultDuration defaultSize defaultFlags : UInt32) : TrunFields :=
  ⟨true, true, true, hasOffsets, defaultDuration, defaultSize, defaultFlags⟩

theorem readU32_toBe32 (n : UInt32) (rest : List UInt8) : readU32 (toBe32 n ++ rest) = some (n, rest) := by
  unfold readU32
  rw [if_neg (by rw [List.length_append, length_toBe32]; omega), be32_toBe32]
  rfl

theorem readSample_writeSample {hasOffsets : Bool} {a b c : UInt32} {ownFlags : Option UInt32} {s : Sample}
    (hzero : hasOffsets = false → s.compositionTimeOffsetRaw = 0) (rest : List UInt8) :
    (canonicalFields hasOffsets a b c).readSample ownFlags (writeSample hasOffsets s ++ rest) =
      .ok (s, rest) := by
  unfold TrunFields.readSample writeSample canonicalFields
  simp only [List.append_assoc, if_true, readU32_toBe32, okOr, ok_bind]
  cases hasOffsets with
  | true =>
    simp only [if_true, readU32_toBe32, ok_bind]
  | false =>
    simp only [Bool.false_eq_true, if_false, List.nil_append]
    rw [← hzero rfl]

theorem readSamples_writeSamples {hasOffsets : Bool} {a b c : UInt32} {ownFlags : Option UInt32}
    {samples : List Sample} {duration dataSize : ℕ}
    (hzero : hasOffsets = false → ∀ s ∈ samples, s.compositionTimeOffsetRaw = 0)
    (hduration : duration + durationOf samples < 2 ^ 64) (hdataSize : dataSize + bytesOf samples < 2 ^ 64) :
    (canonicalFields hasOffsets a b c).readSamples samples.length ownFlags duration dataSize
        (samples.flatMap (writeSample hasOffsets)) =
      .ok (samples, duration + durationOf samples, dataSize + bytesOf samples, []) := by
  induction samples generalizing ownFlags duration dataSize with
  | nil => rfl
  | cons s samples ih =>
    rw [durationOf_cons, ← Nat.add_assoc] at hduration
    rw [bytesOf_cons, ← Nat.add_assoc] at hdataSize
    rw [List.length_cons, TrunFields.readSamples, List.flatMap_cons,
      readSample_writeSample fun hnone => hzero hnone s List.mem_cons_self, ok_bind]
    simp only
    rw [add64_of_lt ((Nat.le_add_right _ _).trans_lt hduration), ok_bind,
      add64_of_lt ((Nat.le_add_right _ _).trans_lt hdataSize), ok_bind,
      ih (fun hnone s hmem => hzero hnone s (List.mem_cons_of_mem _ hmem)) hduration hdataSize, ok_bind,
      durationOf_cons, bytesOf_cons, Nat.add_assoc, Nat.add_assoc]

/-- The first word of a canonical `trun` tells its version and its flags. -/
theorem trunWord (version : UInt8) (hversion : version ≤ 1) (run : Run) :
    ((version.toUInt32 <<< 24 ||| canonicalTrunFlags run) >>> 24).toUInt8 = version ∧
      (version.toUInt32 <<< 24 ||| canonicalTrunFlags run) &&& 0x00ffffff = canonicalTrunFlags run := by
  have hcases : version = 0 ∨ version = 1 := by
    rw [UInt8.le_iff_toNat_le] at hversion
    have hone : (1 : UInt8).toNat = 1 := rfl
    rcases Nat.le_one_iff_eq_zero_or_eq_one.mp (hone ▸ hversion) with h | h
    · exact Or.inl (UInt8.toNat_inj.mp h)
    · exact Or.inr (UInt8.toNat_inj.mp h)
  unfold canonicalTrunFlags
  rcases hcases with rfl | rfl
  · cases run.hasCompositionTimeOffsets <;> decide
  · cases run.hasCompositionTimeOffsets <;> decide

theorem trunFlags (run : Run) :
    canonicalTrunFlags run &&& ~~~(TrunFlag.dataOffset ||| TrunFlag.firstSampleFlags |||
        TrunFlag.duration ||| TrunFlag.size ||| TrunFlag.flags ||| TrunFlag.compositionOffset) = 0 ∧
      has (canonicalTrunFlags run) TrunFlag.dataOffset = true ∧
      has (canonicalTrunFlags run) TrunFlag.firstSampleFlags = false ∧
      has (canonicalTrunFlags run) TrunFlag.duration = true ∧
      has (canonicalTrunFlags run) TrunFlag.size = true ∧
      has (canonicalTrunFlags run) TrunFlag.flags = true ∧
      has (canonicalTrunFlags run) TrunFlag.compositionOffset = run.hasCompositionTimeOffsets := by
  unfold canonicalTrunFlags
  cases run.hasCompositionTimeOffsets <;> decide

/-- A run as it is read again, with its offset. -/
def Run.reread (run : Run) (offset : ℕ) : Run where
  sourceDataOffset := some (offset : ℤ)
  samples := run.samples
  version := run.version
  hasCompositionTimeOffsets := run.hasCompositionTimeOffsets
  duration := run.duration
  dataSize := run.dataSize
  startsWithSync := isSyncSample ((run.samples.head?.map Sample.flags).getD 0)

/-- A run is read from its `trun`, if it lasts. -/
theorem normalizeTrun_canonical {run : Run} {offset : ℕ} {a b c : UInt32} (h : run.Whole)
    (hoffset : offset ≤ i32Max) :
    normalizeTrun (boxOf Kind.trun (trunBody run offset)) 8 a b c false =
      (failIf (run.duration = 0) "invalid trun body").bind fun _ => .ok (run.reread offset) := by
  obtain ⟨hversion, hflags⟩ := trunWord run.version h.version run
  obtain ⟨hknown, hdata, hfirst, hdur, hsize, hflag, hcomp⟩ := trunFlags run
  have hcount : (UInt32.ofNat run.samples.length).toNat = run.samples.length := by
    apply UInt32.toNat_ofNat_of_lt'
    exact h.count.trans_lt (by decide)
  have hword : be32 (trunBody run offset) = run.version.toUInt32 <<< 24 ||| canonicalTrunFlags run :=
    be32_toBe32 _ _
  have hlength : be32 ((trunBody run offset).drop 4) = UInt32.ofNat run.samples.length :=
    be32_toBe32 _ _
  have hsome : UInt32.ofNat run.samples.length ≠ 0 := by
    intro hzero
    rw [hzero] at hcount
    exact h.samples (List.length_eq_zero_iff.mp hcount.symm)
  have hcursor : (trunBody run offset).drop 8 = toBe32 (UInt32.ofNat offset) ++
      run.samples.flatMap (writeSample run.hasCompositionTimeOffsets) := rfl
  have hoffset32 : toI32 (UInt32.ofNat offset) = offset := by
    have hsize : offset < UInt32.size := hoffset.trans_lt (by decide)
    have hhalf : offset < 2 ^ 31 := hoffset.trans_lt (by decide)
    unfold toI32
    rw [UInt32.toNat_ofNat_of_lt' hsize, if_pos hhalf]
  have hread := @readSamples_writeSamples run.hasCompositionTimeOffsets a b c none run.samples 0 0
    h.offsets (by rw [Nat.zero_add]; exact h.short) (by rw [Nat.zero_add, ← h.dataSize]; exact h.bytes)
  have htable : run.samples.length *
      (TrunFields.mk true true true run.hasCompositionTimeOffsets a b c).count * 4 =
        (run.samples.flatMap (writeSample run.hasCompositionTimeOffsets)).length := by
    rw [length_writeSamples, Nat.mul_assoc]
    unfold TrunFields.count
    cases run.hasCompositionTimeOffsets <;> rfl
  have hbody : (([] : List UInt8) ≠ [] ∨ durationOf run.samples = 0 ∨ bytesOf run.samples = 0) ↔
      run.duration = 0 := by
    rw [← h.duration, ← h.dataSize, or_iff_left h.sized, or_iff_right (not_not.mpr rfl)]
  have hlong : ¬(boxOf Kind.trun (trunBody run offset)).length < 8 + 8 := by
    have hsize := length_trunBody run offset
    unfold canonicalTrunSize at hsize
    rw [length_boxOf]
    omega
  unfold normalizeTrun
  rw [failIf_of_not hlong, ok_bind, drop_boxOf]
  simp only [hword, hversion, hflags, hknown, hdata, hfirst, hdur, hsize, hflag, hcomp, hlength, hcursor,
    hcount]
  rw [failIf_of_not (UInt8.not_lt.mpr h.version), ok_bind, failIf_of_not (not_not.mpr rfl), ok_bind,
    failIf_of_not hsome, ok_bind, if_pos trivial, readU32_toBe32]
  simp only [okOr, Except.map, ok_bind, hoffset32, Bool.false_eq_true, false_and, if_false]
  rw [failIf_of_not not_false, ok_bind, failIf_of_not (fun hbad => hbad.1 trivial), ok_bind,
    failIf_of_not (fun hbad => hbad.1 trivial), ok_bind, failIf_of_not (not_lt.mpr h.count), ok_bind,
    failIf_of_not (not_not.mpr htable), ok_bind]
  unfold canonicalFields at hread
  rw [hread, ok_bind]
  simp only [Nat.zero_add]
  by_cases hlasts : run.duration = 0
  · rw [failIf_of_bad (hbody.mpr hlasts), failIf_of_bad hlasts]
    rfl
  · rw [failIf_of_not fun hbad => hlasts (hbody.mp hbad), failIf_of_not hlasts, ok_bind, ← h.duration,
      ← h.dataSize]
    rfl

/-! ### The boxes of a track -/

theorem canonicalTfhd_eq (trackId index : UInt32) : canonicalTfhd trackId index =
    boxOf Kind.tfhd (toBe32 (TfhdFlag.sampleDescriptionIndex ||| TfhdFlag.defaultBaseIsMoof) ++
      (toBe32 trackId ++ toBe32 index)) := by
  unfold canonicalTfhd boxOf writeHeader
  simp only [List.append_assoc]
  rfl

theorem writeTfdt_eq (decodeTime : ℕ) :
    writeTfdt decodeTime = boxOf Kind.tfdt (toBe32 0x01000000 ++ toBe64 decodeTime) := by
  unfold writeTfdt boxOf writeHeader
  simp only [List.append_assoc]
  rfl

theorem parseTfhd_canonical {trackId index : UInt32} (hid : trackId ≠ 0) (hindex : index ≠ 0) :
    parseTfhd (canonicalTfhd trackId index) 8 = .ok ⟨trackId, some index, 0, 0, none⟩ := by
  have hword : be32 ((canonicalTfhd trackId index).drop 8) =
      TfhdFlag.sampleDescriptionIndex ||| TfhdFlag.defaultBaseIsMoof := be32_toBe32 _ _
  have htrack : be32 (((canonicalTfhd trackId index).drop 8).drop 4) = trackId :=
    be32_toBe32 trackId (toBe32 index)
  have hcursor : ((canonicalTfhd trackId index).drop 8).drop 8 = toBe32 index ++ [] := rfl
  have hflags : (TfhdFlag.sampleDescriptionIndex ||| TfhdFlag.defaultBaseIsMoof) >>> 24 = 0 ∧
      (TfhdFlag.sampleDescriptionIndex ||| TfhdFlag.defaultBaseIsMoof) &&& 0x00ffffff = 0x020002 := by
    decide
  have hknown : (0x020002 : UInt32) &&& ~~~(TfhdFlag.baseDataOffset ||| TfhdFlag.sampleDescriptionIndex |||
      TfhdFlag.defaultDuration ||| TfhdFlag.defaultSize ||| TfhdFlag.defaultFlags |||
      TfhdFlag.durationIsEmpty ||| TfhdFlag.defaultBaseIsMoof) = 0 := by
    decide
  have hhas : has 0x020002 TfhdFlag.baseDataOffset = false ∧ has 0x020002 TfhdFlag.durationIsEmpty = false ∧
      has 0x020002 TfhdFlag.sampleDescriptionIndex = true ∧
      has 0x020002 TfhdFlag.defaultDuration = false ∧ has 0x020002 TfhdFlag.defaultSize = false ∧
      has 0x020002 TfhdFlag.defaultFlags = false := by
    decide
  obtain ⟨hbase, hempty, hdescription, hduration, hsize, hflag⟩ := hhas
  have hlength : (canonicalTfhd trackId index).length = 20 := rfl
  have hlong : ¬(canonicalTfhd trackId index).length < 8 + 8 := by omega
  unfold parseTfhd
  rw [failIf_of_not hlong, ok_bind]
  simp only [hword, htrack, hcursor, hflags.1, hflags.2, hknown, hbase, hempty, hdescription, hduration, hsize,
    hflag, Bool.false_eq_true, if_false, if_true, readU32_toBe32, ok_bind]
  rw [failIf_of_not (not_not.mpr rfl), ok_bind, failIf_of_not (not_not.mpr rfl), ok_bind,
    failIf_of_not not_false, ok_bind, failIf_of_not not_false, ok_bind, failIf_of_not hid, ok_bind,
    if_pos hindex, failIf_of_not (not_not.mpr rfl), ok_bind]

theorem readTfdt_written {decodeTime : ℕ} (h : decodeTime < 2 ^ 64) :
    readTfdt (writeTfdt decodeTime) 8 = some decodeTime := by
  have hfirst : ((writeTfdt decodeTime).drop 8).head? = some 1 := rfl
  have hrest : ((writeTfdt decodeTime).drop 8).drop 4 = toBe64 decodeTime ++ [] := by
    rw [List.append_nil]
    rfl
  have hlength : (writeTfdt decodeTime).length = 20 := rfl
  unfold readTfdt
  rw [if_neg (by omega)]
  simp only [hfirst]
  rw [if_pos (by omega), hrest, be64_toBe64 h]

/-- The `trun`s of runs, each with its offset. -/
def trunBoxes (offset : Run → ℕ) (runs : List Run) : List Box :=
  runs.map fun run => ⟨Kind.trun, 8, boxOf Kind.trun (trunBody run (offset run))⟩

theorem boxes_truns {offset : Run → ℕ} {runs : List Run} (hruns : ∀ run ∈ runs, run.Whole) :
    boxes (runs.flatMap fun run => boxOf Kind.trun (trunBody run (offset run))) = trunBoxes offset runs := by
  induction runs with
  | nil => exact boxes_nil
  | cons run rest ih =>
    obtain ⟨hrun, hrest⟩ := List.forall_mem_cons.mp hruns
    have hsize : (trunBody run (offset run)).length + 8 ≤ i32Max := by
      have hcount := hrun.count
      rw [length_trunBody]
      unfold maxTrunSamples at hcount
      unfold canonicalTrunSize i32Max
      split <;> omega
    rw [List.flatMap_cons, boxes_boxOf hsize, ih hrest]
    rfl

/-- Runs that can be read again: each lasts, and all of them last no longer than 64 bits can tell. -/
def Readable (runs : List Run) : Prop :=
  (∀ run ∈ runs, run.duration ≠ 0) ∧ durationOf (runs.flatMap Run.samples) < 2 ^ 64

theorem readTruns_written {offset : Run → ℕ} {runs : List Run} {a b c : UInt32} {duration : ℕ}
    {out : List Run × ℕ} (hruns : ∀ run ∈ runs, run.Whole) (hoffset : ∀ run ∈ runs, offset run ≤ i32Max)
    (hduration : duration < 2 ^ 64) :
    readTruns a b c false (trunBoxes offset runs) duration = .ok out ↔
      (∀ run ∈ runs, run.duration ≠ 0) ∧ duration + durationOf (runs.flatMap Run.samples) < 2 ^ 64 ∧
        out = (runs.map (fun run => run.reread (offset run)),
          duration + durationOf (runs.flatMap Run.samples)) := by
  induction runs generalizing duration out with
  | nil =>
    rw [List.flatMap_nil, durationOf_nil, Nat.add_zero]
    constructor
    · intro h
      cases h
      exact ⟨fun _ hmem => absurd hmem List.not_mem_nil, hduration, rfl⟩
    · rintro ⟨-, -, rfl⟩
      rfl
  | cons run rest ih =>
    obtain ⟨hrun, hrest⟩ := List.forall_mem_cons.mp hruns
    obtain ⟨hfirst, hlater⟩ := List.forall_mem_cons.mp hoffset
    have hreread : (run.reread (offset run)).duration = run.duration := rfl
    unfold trunBoxes
    rw [List.map_cons, readTruns, List.forall_mem_cons, List.flatMap_cons, durationOf_append, ← hrun.duration,
      ← Nat.add_assoc]
    simp only
    rw [if_pos trivial, normalizeTrun_canonical hrun hfirst]
    by_cases hlasts : run.duration = 0
    · rw [failIf_of_bad hlasts]
      constructor
      · intro h
        cases h
      · exact fun h => absurd hlasts h.1.1
    rw [failIf_of_not hlasts]
    show ((Except.ok (run.reread (offset run))).bind _ = _) ↔ _
    simp only [Except.bind, hreread]
    by_cases hfits : duration + run.duration < 2 ^ 64
    · rw [add64_of_lt hfits, ok_bind]
      constructor
      · intro h
        obtain ⟨⟨runs', duration'⟩, hread, h⟩ := bind_eq_ok.mp h
        cases h
        obtain ⟨hall, hspan, heq⟩ := (ih hrest hlater hfits).mp hread
        cases heq
        exact ⟨⟨hlasts, hall⟩, hspan, rfl⟩
      · rintro ⟨⟨-, hall⟩, hspan, rfl⟩
        have hread := (ih hrest hlater hfits).mpr ⟨hall, hspan, rfl⟩
        unfold trunBoxes at hread
        rw [hread, ok_bind]
        rfl
    · constructor
      · intro h
        obtain ⟨n, hadd, -⟩ := bind_eq_ok.mp h
        exact absurd (of_add64_eq_ok hadd).1 hfits
      · rintro ⟨-, hspan, -⟩
        exact absurd ((Nat.le_add_right _ _).trans_lt hspan) hfits

theorem readTrafHeaders_truns (offset : Run → ℕ) (runs : List Run) (tfhd : Option Tfhd)
    (decodeTime : Option ℕ) :
    readTrafHeaders (trunBoxes offset runs) tfhd decodeTime = .ok (tfhd, decodeTime) := by
  unfold trunBoxes
  induction runs with
  | nil => rfl
  | cons run rest ih =>
    have hkinds : Kind.trun ≠ Kind.tfhd ∧ Kind.trun ≠ Kind.tfdt := by decide
    rw [List.map_cons, readTrafHeaders]
    simp only
    rw [if_neg hkinds.1, if_neg hkinds.2, if_pos trivial, ih]

/-- What comes after the header of a `traf`. -/
def trafBody (trackId index : UInt32) (decodeTime : ℕ) (offset : Run → ℕ) (runs : List Run) :
    List UInt8 :=
  canonicalTfhd trackId index ++ (writeTfdt decodeTime ++
    runs.flatMap fun run => boxOf Kind.trun (trunBody run (offset run)))

/-- A track as it is read again. -/
def rereadTrack (trackId timescale index : UInt32) (decodeTime : ℕ) (offset : Run → ℕ) (runs : List Run) :
    Fragment where
  trackId
  timescale
  decodeTime
  duration := durationOf (runs.flatMap Run.samples)
  startsWithSync := runs.head?.any fun run => isSyncSample ((run.samples.head?.map Sample.flags).getD 0)
  sampleDescriptionIndex := index
  tfhd := canonicalTfhd trackId index
  runs := runs.map fun run => run.reread (offset run)

variable {trackId index : UInt32} {decodeTime : ℕ} {offset : Run → ℕ} {runs : List Run}

theorem boxes_trafBody (hruns : ∀ run ∈ runs, run.Whole) :
    boxes (trafBody trackId index decodeTime offset runs) =
      ⟨Kind.tfhd, 8, canonicalTfhd trackId index⟩ :: ⟨Kind.tfdt, 8, writeTfdt decodeTime⟩ ::
        trunBoxes offset runs := by
  have hsmall : 20 ≤ i32Max := by decide
  have hlength : (toBe32 (TfhdFlag.sampleDescriptionIndex ||| TfhdFlag.defaultBaseIsMoof) ++
      (toBe32 trackId ++ toBe32 index)).length + 8 ≤ i32Max := hsmall
  have hlength' : (toBe32 0x01000000 ++ toBe64 decodeTime).length + 8 ≤ i32Max := hsmall
  unfold trafBody
  rw [canonicalTfhd_eq, boxes_boxOf hlength, writeTfdt_eq, boxes_boxOf hlength', boxes_truns hruns]

/-- The track that is written in a `traf` is parsed from it, just where its runs can be read. -/
theorem parseTraf_written {video audio track : TrackIds} {f : Fragment} (hid : trackId ≠ 0)
    (hindex : index ≠ 0) (htime : decodeTime < 2 ^ 64)
    (htrack : trackOf trackId video audio 0 0 = .ok (track, 0)) (htimescale : track.timescale ≠ 0)
    (hne : runs ≠ []) (hruns : ∀ run ∈ runs, run.Whole) (hoffset : ∀ run ∈ runs, offset run ≤ i32Max) :
    parseTraf (boxOf Kind.traf (trafBody trackId index decodeTime offset runs)) 8 video audio 0 0 = .ok f ↔
      Readable runs ∧ f = rereadTrack trackId track.timescale index decodeTime offset runs := by
  obtain ⟨first, rest, rfl⟩ := List.exists_cons_of_ne_nil hne
  have hkinds : Kind.tfdt ≠ Kind.tfhd ∧ Kind.tfhd ≠ Kind.trun ∧ Kind.tfdt ≠ Kind.trun := by decide
  have hheaders : readTrafHeaders (boxes (trafBody trackId index decodeTime offset (first :: rest))) none none =
      .ok (some ⟨trackId, some index, 0, 0, none⟩, some decodeTime) := by
    rw [boxes_trafBody hruns, readTrafHeaders]
    simp only
    rw [if_pos trivial, failIf_of_not (by decide), ok_bind, parseTfhd_canonical hid hindex, ok_bind,
      readTrafHeaders]
    simp only
    rw [if_neg hkinds.1, if_pos trivial, failIf_of_not (by decide), ok_bind, readTfdt_written htime]
    exact readTrafHeaders_truns offset (first :: rest) _ _
  have hread : ∀ a b c : UInt32,
      readTruns a b c false (boxes (trafBody trackId index decodeTime offset (first :: rest))) 0 =
        readTruns a b c false (trunBoxes offset (first :: rest)) 0 := by
    intro a b c
    rw [boxes_trafBody hruns, readTruns]
    simp only
    rw [if_neg hkinds.2.1, readTruns]
    simp only
    rw [if_neg hkinds.2.2]
  have htruns := fun a b c out => @readTruns_written offset (first :: rest) a b c 0 out hruns hoffset (by decide)
  simp only [Nat.zero_add] at htruns
  have hinferred : (first.reread (offset first) :: rest.map fun run => run.reread (offset run)).any
      Run.hasInferredDuration = false := by
    apply List.any_eq_false.mpr
    rintro run hmem hinferred
    rcases List.mem_cons.mp hmem with rfl | hmem
    · exact Bool.false_ne_true hinferred
    · obtain ⟨source, -, rfl⟩ := List.mem_map.mp hmem
      exact Bool.false_ne_true hinferred
  unfold parseTraf
  rw [drop_boxOf]
  simp only [hheaders, ok_bind, htrack, ne_eq, not_true_eq_false, and_false, decide_false, hread,
    Option.getD_some]
  rw [failIf_of_not htimescale, ok_bind, failIf_of_not hindex, ok_bind]
  constructor
  · intro h
    obtain ⟨⟨runs', duration⟩, hout, h⟩ := bind_eq_ok.mp h
    obtain ⟨hall, hspan, heq⟩ := (htruns _ _ _ _).mp hout
    cases heq
    simp only [List.map_cons] at h
    obtain ⟨u, -, h⟩ := bind_eq_ok.mp h
    rw [hinferred] at h
    cases h
    exact ⟨⟨hall, hspan⟩, rfl⟩
  · rintro ⟨⟨hall, hspan⟩, rfl⟩
    have hlasts : durationOf ((first :: rest).flatMap Run.samples) ≠ 0 := by
      have hfirst := hall first List.mem_cons_self
      rw [(hruns first List.mem_cons_self).duration] at hfirst
      rw [List.flatMap_cons, durationOf_append]
      omega
    rw [(htruns _ _ _ _).mpr ⟨hall, hspan, rfl⟩, ok_bind]
    simp only [List.map_cons]
    rw [failIf_of_not hlasts, ok_bind, hinferred]
    rfl

end Rustorr.Mp4
