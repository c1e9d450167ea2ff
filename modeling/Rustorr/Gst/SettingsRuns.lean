import Rustorr.Gst.Settings
import Rustorr.Http.DlnaListing
import Rustorr.Lib.Trace

/-! The settings of the GStreamer module while its service runs: what is saved, and what a new service
loads. -/

namespace Rustorr.GstSettings

open AccessLog (Value)
open Dlna (asciiCasing lawful_asciiCasing)

variable {u : Casing} {parse : List Char → Option (Value Number)} {write : List (List Char × Value Number) → List Char}

/-- The settings in the store and in the service, the saves on their way from one to the other, and whether
the service is disposed of. -/
structure Service where
  stored : Option (List Char)
  config : Config
  saving : List Config := []
  disposed : Bool := false

section service

variable (u : Casing) (parse : List Char → Option (Value Number)) (write : List (List Char × Value Number) → List Char)

/-- `Service::new`. -/
def Service.new (stored : Option (List Char)) : Service where
  stored
  config := normalized u (match stored with
    | some document => withStored parse platformDefaults document
    | none => platformDefaults)

/-- `update_config`, of the settings. -/
def Service.updateConfig (s : Service) (c : Config) : Service :=
  if s.disposed then s else { s with config := normalized u c }

/-- The steps of the service, where saves from several requests go on at once; told is what the store took. -/
inductive Service.Step : Service → List Config → Service → Prop
  | save (s : Service) (c : Config) :
      Step s [c] { s with
        stored := some (storedDocument u write (normalized u c))
        saving := s.saving ++ [normalized u c] }
  | update {s : Service} {before after : List Config} {c : Config} : s.saving = before ++ c :: after →
      Step s [] (({ s with saving := before ++ after } : Service).updateConfig u c)
  | dispose (s : Service) : Step s [] { s with disposed := true }
  | restart (s : Service) : Step s [] (Service.new u parse s.stored)

end service

/-- What is kept of the saves that the store took: the last one is stored, and all that is on its way or in
the service is normalized. -/
structure Service.Kept (u : Casing) (write : List (List Char × Value Number) → List Char) (saved : List Config)
    (s : Service) : Prop where
  stored : s.stored = saved.getLast?.map fun c => storedDocument u write (normalized u c)
  config : normalized u s.config = s.config

theorem Service.kept_new (hu : u.Lawful) : (Service.new u parse none).Kept u write [] where
  stored := rfl
  config := normalized_normalized hu _

theorem Service.Kept.step {saved told : List Config} {s s' : Service} (hu : u.Lawful)
    (hstep : Service.Step u parse write s told s') (h : s.Kept u write saved) : s'.Kept u write (saved ++ told) := by
  cases hstep with
  | save c =>
    refine ⟨?_, h.config⟩
    rw [List.getLast?_concat]
    rfl
  | update hsaving =>
    rw [List.append_nil]
    unfold Service.updateConfig
    split
    · exact ⟨h.stored, h.config⟩
    · exact ⟨h.stored, normalized_normalized hu _⟩
  | dispose =>
    rw [List.append_nil]
    exact ⟨h.stored, h.config⟩
  | restart =>
    rw [List.append_nil]
    exact ⟨h.stored, normalized_normalized hu _⟩

/-- The document of the platform's defaults. -/
def defaultsText : List Char :=
  ("\x7b\"GSTVersion\":1.22,\"GSTPath\":\"\",\"Source\":\"stream\",\"MaxTasks\":0,\"InactiveMinutes\":5," ++
    "\"AACBitrateKbps\":256,\"AACChannels\":0,\"AACSamplerate\":0,\"SegmentSeconds\":6,\"SegmentDiff\":20," ++
    "\"Subtitles\":true,\"TranscodeH264\":false,\"TranscodeH265\":false,\"TranscodeAV1\":false," ++
    "\"TranscodeVP9\":false,\"TranscodeVP8\":false,\"TranscodeAVI\":false,\"HDRToSDR\":false," ++
    "\"HardwareAcceleration\":true,\"UseGPU\":true,\"X264Ultrafast\":false,\"VideoBitrate\":10000\x7d").toList

/-- How the document of the defaults is read, its members sorted by their names. -/
def readDefaults (text : List Char) : Option (Value Number) :=
  if text = defaultsText then
    some (.object ((members platformDefaults).mergeSort fun a b => decide (String.ofList a.1 ≤ String.ofList b.1)))
  else none

end Rustorr.GstSettings
