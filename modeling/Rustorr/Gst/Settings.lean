import Mathlib.Data.Fintype.Defs
import Mathlib.Data.List.Perm.Basic
import Rustorr.Http.AccessLog
import Rustorr.Lib.Binary64
import Rustorr.Lib.Casing
import Rustorr.Lib.Machine

/-! `config.rs` of the GStreamer module: its settings, how a stored document is applied to them, and how
they are stored. Texts of JSON are read and written by parameters. -/

namespace Rustorr.GstSettings

open AccessLog (Value)

/-! ### The code -/

/-- A number of a JSON document: `u64` or `i64`, or a fraction that is finite. -/
inductive Number where
  | int (n : {n : ℤ // -2 ^ 63 ≤ n ∧ n < 2 ^ 64})
  | float (x : {x : Binary64 // x.isFinite = true})

inductive Kind
  | bool
  | int
  | float
  | string
  deriving DecidableEq

def Kind.Carrier : Kind → Type
  | .bool => Bool
  | .int => I64
  | .float => Binary64
  | .string => List Char

inductive Field
  | gstVersion
  | gstPath
  | source
  | maxTasks
  | inactiveMinutes
  | aacBitrateKbps
  | aacChannels
  | aacSamplerate
  | segmentSeconds
  | segmentDiff
  | subtitles
  | transcodeH264
  | transcodeH265
  | transcodeAv1
  | transcodeVp9
  | transcodeVp8
  | transcodeAvi
  | hdrToSdr
  | hardwareAcceleration
  | useGpu
  | x264Ultrafast
  | videoBitrate
  deriving DecidableEq

namespace Field

/-- The fields in the order of the struct. -/
def all : List Field :=
  [.gstVersion, .gstPath, .source, .maxTasks, .inactiveMinutes, .aacBitrateKbps, .aacChannels, .aacSamplerate,
    .segmentSeconds, .segmentDiff, .subtitles, .transcodeH264, .transcodeH265, .transcodeAv1, .transcodeVp9,
    .transcodeVp8, .transcodeAvi, .hdrToSdr, .hardwareAcceleration, .useGpu, .x264Ultrafast, .videoBitrate]

theorem mem_all (field : Field) : field ∈ all := by
  cases field <;> decide

theorem nodup_all : all.Nodup := by decide

instance fintype : Fintype Field := ⟨⟨all, nodup_all⟩, mem_all⟩

/-- `#[serde(rename)]`. -/
def name : Field → String
  | .gstVersion => "GSTVersion"
  | .gstPath => "GSTPath"
  | .source => "Source"
  | .maxTasks => "MaxTasks"
  | .inactiveMinutes => "InactiveMinutes"
  | .aacBitrateKbps => "AACBitrateKbps"
  | .aacChannels => "AACChannels"
  | .aacSamplerate => "AACSamplerate"
  | .segmentSeconds => "SegmentSeconds"
  | .segmentDiff => "SegmentDiff"
  | .subtitles => "Subtitles"
  | .transcodeH264 => "TranscodeH264"
  | .transcodeH265 => "TranscodeH265"
  | .transcodeAv1 => "TranscodeAV1"
  | .transcodeVp9 => "TranscodeVP9"
  | .transcodeVp8 => "TranscodeVP8"
  | .transcodeAvi => "TranscodeAVI"
  | .hdrToSdr => "HDRToSDR"
  | .hardwareAcceleration => "HardwareAcceleration"
  | .useGpu => "UseGPU"
  | .x264Ultrafast => "X264Ultrafast"
  | .videoBitrate => "VideoBitrate"

def kind : Field → Kind
  | .gstVersion => .float
  | .gstPath | .source => .string
  | .maxTasks | .inactiveMinutes | .aacBitrateKbps | .aacChannels | .aacSamplerate | .segmentSeconds | .segmentDiff
  | .videoBitrate => .int
  | .subtitles | .transcodeH264 | .transcodeH265 | .transcodeAv1 | .transcodeVp9 | .transcodeVp8 | .transcodeAvi
  | .hdrToSdr | .hardwareAcceleration | .useGpu | .x264Ultrafast => .bool

end Field

/-- `Config`, field by field. -/
abbrev Config := (field : Field) → field.kind.Carrier

/-- A number of 64 bits, for the ones that are written in the code. -/
def int (n : ℤ) (h : -2 ^ 63 ≤ n ∧ n < 2 ^ 63 := by decide) : I64 := ⟨n, h⟩

def minGstVersion : Binary64 := .ofRat (122 / 100)

/-- `Config::default`. -/
def zeroes : Config
  | .gstVersion => Binary64.zero
  | .gstPath | .source => ([] : List Char)
  | .maxTasks | .inactiveMinutes | .aacBitrateKbps | .aacChannels | .aacSamplerate | .segmentSeconds | .segmentDiff
  | .videoBitrate => int 0
  | .subtitles | .transcodeH264 | .transcodeH265 | .transcodeAv1 | .transcodeVp9 | .transcodeVp8 | .transcodeAvi
  | .hdrToSdr | .hardwareAcceleration | .useGpu | .x264Ultrafast => false

def platformDefaults : Config
  | .gstVersion => minGstVersion
  | .source => "stream".toList
  | .inactiveMinutes => int 5
  | .aacBitrateKbps => int 256
  | .segmentSeconds => int 6
  | .segmentDiff => int 20
  | .videoBitrate => int 10000
  | .subtitles | .hardwareAcceleration | .useGpu => true
  | field => zeroes field

/-- A number that has to be positive, or what stands in for it. -/
def positiveOr (n other : I64) : I64 := if n.1 ≤ 0 then other else n

/-- `max(0)`. -/
def notNegative (n : I64) : I64 := if n.1 ≤ 0 then int 0 else n

/-- No version before the oldest that is supported. -/
def supported (version : Binary64) : Binary64 := if Binary64.lt version minGstVersion then minGstVersion else version

section code

-- lower case beyond ASCII
variable (u : Casing)

def normalizedSource (source : List Char) : List Char :=
  if u.toLowercase (Utf8.trim source) = "play".toList then "play".toList else "stream".toList

def normalized (c : Config) : Config
  | .inactiveMinutes => positiveOr (c .inactiveMinutes) (int 5)
  | .aacBitrateKbps => positiveOr (c .aacBitrateKbps) (int 256)
  | .aacChannels => notNegative (c .aacChannels)
  | .aacSamplerate => notNegative (c .aacSamplerate)
  | .maxTasks => notNegative (c .maxTasks)
  | .segmentSeconds => positiveOr (c .segmentSeconds) (int 6)
  | .segmentDiff => notNegative (c .segmentDiff)
  | .videoBitrate => positiveOr (c .videoBitrate) (int 10000)
  | .gstVersion => supported (c .gstVersion)
  | .source => normalizedSource u (c .source)
  | field => c field

theorem fits_of_i64 (n : I64) : -2 ^ 63 ≤ n.1 ∧ n.1 < 2 ^ 64 := ⟨n.2.1, n.2.2.trans (by decide)⟩

/-- A field as it is serialised; a number that is not finite has no form. -/
def toValue : (k : Kind) → k.Carrier → Value Number
  | .bool, b => .bool b
  | .int, n => .number (.int ⟨n.1, fits_of_i64 n⟩)
  | .float, x => if h : Binary64.isFinite x = true then .number (.float ⟨x, h⟩) else .null
  | .string, s => .string s

/-- A field as it is deserialised. -/
def ofValue : (k : Kind) → Value Number → Option k.Carrier
  | .bool, .bool b => some b
  | .int, .number (.int n) => if h : -2 ^ 63 ≤ n.1 ∧ n.1 < 2 ^ 63 then some ⟨n.1, h⟩ else none
  | .float, .number (.int n) => some (Binary64.ofInt n.1)
  | .float, .number (.float x) => some x.1
  | .string, .string s => some s
  | _, _ => none

/-- `to_value`, by the fields' names. -/
def toValues (c : Config) (field : Field) : Value Number := toValue field.kind (c field)

/-- `from_value`, where every field is there. -/
def ofValues (values : Field → Value Number) : Option Config :=
  if h : ∀ field, (ofValue field.kind (values field)).isSome = true then
    some fun field => (ofValue field.kind (values field)).get (h field)
  else none

/-- `eq_ignore_ascii_case`. -/
def sameName (name : String) (key : List Char) : Bool := name.toList.map Char.toLower = key.map Char.toLower

/-- The field that a key names. -/
def fieldOf (key : List Char) : Option Field := Field.all.find? fun field => sameName field.name key

def isNull : Value Number → Bool
  | .null => true
  | _ => false

/-- A stored member, put in the place of the field that it names. -/
def override (merged : Field → Value Number) (member : List Char × Value Number) : Field → Value Number :=
  match fieldOf member.1 with
  | none => merged
  | some field => if isNull member.2 then merged else Function.update merged field member.2

-- how texts of JSON are read and written; the members of an object come in the order of its map
variable (parse : List Char → Option (Value Number)) (write : List (List Char × Value Number) → List Char)

def withStored (c : Config) (document : List Char) : Config :=
  match parse document with
  | some (.object stored) => (ofValues (stored.foldl override (toValues c))).getD c
  | _ => c

/-- The members that a config is written as. -/
def members (c : Config) : List (List Char × Value Number) :=
  Field.all.map fun field => (field.name.toList, toValues c field)

def storedDocument (c : Config) : List Char := write (members (normalized u c))

end code

/-! ### What a document sets -/

variable {u : Casing} {parse : List Char → Option (Value Number)} {write : List (List Char × Value Number) → List Char}
  {c : Config} {stored : List (List Char × Value Number)}

/-- The version is a number that can be written. -/
def Writable (c : Config) : Prop := Binary64.isFinite (c .gstVersion) = true

/-- The last member that names a field and is not null. -/
def told (stored : List (List Char × Value Number)) (field : Field) : Option (Value Number) :=
  (stored.reverse.find? fun member => decide (fieldOf member.1 = some field) && !isNull member.2).map Prod.snd

/-- Every field that is told is told a value of its type. -/
def Fits (stored : List (List Char × Value Number)) : Prop :=
  ∀ field value, told stored field = some value → (ofValue field.kind value).isSome = true

/-- Each field as it is told, or as it was. -/
def setTo (c : Config) (stored : List (List Char × Value Number)) : Config :=
  fun field => ((told stored field).bind (ofValue field.kind)).getD (c field)

theorem writable_platformDefaults : Writable platformDefaults := by
  show Binary64.isFinite minGstVersion = true
  decide +kernel

theorem fieldOf_name (field : Field) : fieldOf field.name.toList = some field := by
  cases field <;> rfl

theorem ofValue_toValue {k : Kind} {a : k.Carrier} (h : isNull (toValue k a) = false) :
    ofValue k (toValue k a) = some a := by
  cases k with
  | bool => rfl
  | int => exact dif_pos a.2
  | float =>
    have hvalue : toValue .float a =
        if h : Binary64.isFinite a = true then .number (.float ⟨a, h⟩) else .null := rfl
    rw [hvalue] at h ⊢
    split at h
    · next hfinite =>
      rw [dif_pos hfinite]
      rfl
    · cases h
  | string => rfl

theorem isNull_toValues (h : Writable c) (field : Field) : isNull (toValues c field) = false := by
  have hversion : isNull (toValues c .gstVersion) = false := by
    have hvalue : toValues c .gstVersion = .number (.float ⟨c .gstVersion, h⟩) := dif_pos h
    rw [hvalue]
    rfl
  cases field with
  | gstVersion => exact hversion
  | _ => rfl

theorem ofValue_toValues (h : Writable c) (field : Field) : ofValue field.kind (toValues c field) = some (c field) :=
  ofValue_toValue (isNull_toValues h field)

/-- A field is told what the last member says that names it. -/
theorem told_of_found {field : Field} {member : List Char × Value Number}
    (h : (stored.reverse.find? fun member => decide (fieldOf member.1 = some field) && !isNull member.2) =
      some member) :
    member ∈ stored ∧ fieldOf member.1 = some field ∧ told stored field = some member.2 := by
  have hnames := List.find?_some h
  rw [Bool.and_eq_true, decide_eq_true_eq] at hnames
  refine ⟨List.mem_reverse.mp (List.mem_of_find?_eq_some h), hnames.1, ?_⟩
  unfold told
  rw [h]
  rfl

theorem told_cons (member : List Char × Value Number) (stored : List (List Char × Value Number)) (field : Field) :
    told (member :: stored) field = (told stored field).or
      (if fieldOf member.1 = some field ∧ isNull member.2 = false then some member.2 else none) := by
  unfold told
  rw [List.reverse_cons, List.find?_append, List.find?_singleton]
  cases stored.reverse.find? fun member => decide (fieldOf member.1 = some field) && !isNull member.2 with
  | some found => rfl
  | none =>
    by_cases h : fieldOf member.1 = some field ∧ isNull member.2 = false
    · rw [if_pos h, h.2, decide_eq_true h.1]
      rfl
    · rw [if_neg h, if_neg]
      · rfl
      · simpa using h

/-- A field of the merged values is what was told last, or what was there before. -/
theorem foldl_override (stored : List (List Char × Value Number)) (merged : Field → Value Number) (field : Field) :
    stored.foldl override merged field = (told stored field).getD (merged field) := by
  induction stored generalizing merged with
  | nil => rfl
  | cons member stored ih =>
    have hone : override merged member field =
        (if fieldOf member.1 = some field ∧ isNull member.2 = false then some member.2 else none).getD
          (merged field) := by
      unfold override
      cases hfield : fieldOf member.1 with
      | none =>
        rw [if_neg fun h => absurd h.1 (Option.some_ne_none field).symm]
        rfl
      | some named =>
        simp only
        cases hnull : isNull member.2 with
        | true =>
          rw [if_pos rfl, if_neg fun h => absurd h.2 Bool.false_ne_true.symm]
          rfl
        | false =>
          rw [if_neg Bool.false_ne_true]
          by_cases hsame : named = field
          · subst hsame
            rw [if_pos ⟨rfl, rfl⟩]
            exact Function.update_self _ _ _
          · rw [if_neg fun h => hsame (Option.some.inj h.1)]
            exact Function.update_of_ne (Ne.symm hsame) _ _
    rw [List.foldl_cons, ih, told_cons, hone]
    cases told stored field <;> rfl

theorem ofValues_eq_some {values : Field → Value Number} {d : Config}
    (h : ∀ field, ofValue field.kind (values field) = some (d field)) : ofValues values = some d := by
  have hall : ∀ field, (ofValue field.kind (values field)).isSome = true := fun field => by rw [h field]; rfl
  unfold ofValues
  rw [dif_pos hall]
  refine congrArg some (funext fun field => ?_)
  exact Option.get_of_eq_some _ (h field)

theorem ofValues_eq_none {values : Field → Value Number} {field : Field} (h : ofValue field.kind (values field) = none) :
    ofValues values = none := by
  unfold ofValues
  refine dif_neg fun hall => ?_
  have hsome := hall field
  rw [h] at hsome
  cases hsome

theorem ofValues_foldl_override (hwritable : Writable c) (hfits : Fits stored) :
    ofValues (stored.foldl override (toValues c)) = some (setTo c stored) := by
  refine ofValues_eq_some fun field => ?_
  rw [foldl_override]
  unfold setTo
  cases htold : told stored field with
  | none => exact ofValue_toValues hwritable field
  | some value =>
    obtain ⟨a, ha⟩ := Option.isSome_iff_exists.mp (hfits field value htold)
    rw [Option.getD_some, Option.bind_some, ha]
    rfl

theorem withStored_of_fits {document : List Char} (hparse : parse document = some (.object stored))
    (hwritable : Writable c) (hfits : Fits stored) : withStored parse c document = setTo c stored := by
  unfold withStored
  rw [hparse]
  simp only
  rw [ofValues_foldl_override hwritable hfits]
  rfl

/-- One value of another type, and nothing of the document counts. -/
theorem withStored_of_not_fits {document : List Char} (hparse : parse document = some (.object stored))
    (hfits : ¬Fits stored) : withStored parse c document = c := by
  have hbad : ∃ field value, told stored field = some value ∧ ¬(ofValue field.kind value).isSome = true := by
    by_contra hnone
    refine hfits fun field value htold => ?_
    by_contra hbad
    exact hnone ⟨field, value, htold, hbad⟩
  obtain ⟨field, value, htold, hbad⟩ := hbad
  have hnone : ofValues (stored.foldl override (toValues c)) = none := by
    refine @ofValues_eq_none _ field ?_
    rw [foldl_override, htold, Option.getD_some]
    exact Option.not_isSome_iff_eq_none.mp hbad
  unfold withStored
  rw [hparse]
  simp only
  rw [hnone]
  rfl

/-! ### What is stored -/

/-- A stored document is read as the members it was written with, in the order of the map. -/
def ReadsBack (parse : List Char → Option (Value Number)) (write : List (List Char × Value Number) → List Char)
    (c : Config) : Prop :=
  ∃ stored, parse (write (members c)) = some (.object stored) ∧ stored.Perm (members c)

theorem told_of_perm (hwritable : Writable c) (hperm : stored.Perm (members c)) (field : Field) :
    told stored field = some (toValues c field) := by
  have hmember : (field.name.toList, toValues c field) ∈ stored.reverse :=
    List.mem_reverse.mpr (hperm.mem_iff.mpr (List.mem_map.mpr ⟨field, Field.mem_all field, rfl⟩))
  have hfound : (stored.reverse.find? fun member =>
      decide (fieldOf member.1 = some field) && !isNull member.2).isSome = true := by
    refine List.find?_isSome.mpr ⟨_, hmember, ?_⟩
    rw [decide_eq_true (fieldOf_name field), isNull_toValues hwritable]
    rfl
  obtain ⟨member, hfind⟩ := Option.isSome_iff_exists.mp hfound
  obtain ⟨hmem, hname, htold⟩ := told_of_found hfind
  obtain ⟨other, -, rfl⟩ := List.mem_map.mp (hperm.mem_iff.mp hmem)
  rw [fieldOf_name] at hname
  cases hname
  exact htold

/-- What is stored is what is loaded, whatever it is applied to. -/
theorem withStored_storedDocument {d : Config} (hwritable : Writable (normalized u c)) (hother : Writable d)
    (hreads : ReadsBack parse write (normalized u c)) :
    withStored parse d (storedDocument u write c) = normalized u c := by
  obtain ⟨stored, hparse, hperm⟩ := hreads
  have htold := told_of_perm hwritable hperm
  have hfits : Fits stored := by
    intro field value hvalue
    rw [htold field] at hvalue
    cases hvalue
    rw [ofValue_toValues hwritable field]
    rfl
  unfold storedDocument
  rw [withStored_of_fits hparse hother hfits]
  funext field
  unfold setTo
  rw [htold field, Option.bind_some, ofValue_toValues hwritable field]
  rfl

theorem positiveOr_idem {n other : I64} (h : 0 < other.1) : positiveOr (positiveOr n other) other = positiveOr n other := by
  unfold positiveOr
  by_cases hn : n.1 ≤ 0
  · rw [if_pos hn, if_neg (not_le.mpr h)]
  · rw [if_neg hn, if_neg hn]

theorem notNegative_idem (n : I64) : notNegative (notNegative n) = notNegative n := by
  unfold notNegative
  by_cases hn : n.1 ≤ 0
  · rw [if_pos hn, if_pos (by decide)]
  · rw [if_neg hn, if_neg hn]

theorem normalizedSource_idem (hu : u.Lawful) (source : List Char) :
    normalizedSource u (normalizedSource u source) = normalizedSource u source := by
  have hplay : u.toLowercase (Utf8.trim "play".toList) = "play".toList := hu.toLowercase_of_ascii (by decide)
  have hstream : u.toLowercase (Utf8.trim "stream".toList) = "stream".toList := hu.toLowercase_of_ascii (by decide)
  unfold normalizedSource
  by_cases h : u.toLowercase (Utf8.trim source) = "play".toList
  · rw [if_pos h, if_pos hplay]
  · rw [if_neg h, hstream, if_neg (by decide)]

theorem supported_minGstVersion : supported minGstVersion = minGstVersion := ite_self _

theorem supported_idem (version : Binary64) : supported (supported version) = supported version := by
  by_cases h : Binary64.lt version minGstVersion = true
  · have hmin : supported version = minGstVersion := if_pos h
    rw [hmin, supported_minGstVersion]
  · have hsame : supported version = version := if_neg h
    rw [hsame, hsame]

theorem normalized_normalized (hu : u.Lawful) (c : Config) : normalized u (normalized u c) = normalized u c := by
  funext field
  cases field with
  | inactiveMinutes | aacBitrateKbps | segmentSeconds | videoBitrate => exact positiveOr_idem (by decide)
  | aacChannels | aacSamplerate | maxTasks | segmentDiff => exact notNegative_idem _
  | source => exact normalizedSource_idem hu _
  | gstVersion => exact supported_idem _
  | _ => rfl

theorem isFinite_supported {version : Binary64} (h : version.isFinite = true) : (supported version).isFinite = true := by
  unfold supported
  split
  · exact writable_platformDefaults
  · exact h

theorem writable_normalized (h : Writable c) : Writable (normalized u c) := isFinite_supported h

end Rustorr.GstSettings
