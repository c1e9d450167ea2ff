import Rustorr.Lib.Replace

/-! Media types by file name (`media_type.rs`). What is known of the extensions that are not in the
table is a parameter. -/

namespace Rustorr.MediaType

/-- The media types of the server's own table, with their extensions. -/
def table : List (String × String) :=
  [("image/bmp", ".bmp"), ("image/gif", ".gif"), ("image/jpeg", ".jpg,.jpeg"),
    ("image/png", ".png"), ("image/tiff", ".tiff,.tif"), ("audio/x-aac", ".aac"),
    ("audio/dsd", ".dsd,.dsf,.dff"), ("audio/flac", ".flac"),
    ("audio/mpeg", ".mpga,.mpega,.mp2,.mp3,.m4a"), ("audio/ogg", ".oga,.ogg,.spx"),
    ("audio/opus", ".opus"), ("audio/weba", ".weba"), ("audio/x-ape", ".ape"),
    ("audio/x-wav", ".wav"), ("video/dv", ".dif,.dv"), ("video/fli", ".fli"),
    ("video/mp4", ".mp4"), ("video/mpeg", ".mpeg,.mpg,.mpe"), ("video/x-matroska", ".mpv,.mkv"),
    ("video/mp2t", ".ts,.m2ts,.mts"), ("video/ogg", ".ogv"), ("video/webm", ".webm"),
    ("video/x-ms-vob", ".vob"), ("video/x-msvideo", ".avi"), ("video/x-quicktime", ".qt,.mov"),
    ("text/srt", ".srt"), ("text/smi", ".smi"), ("text/ssa", ".ssa"),
    ("application/vnd.rn-realmedia-vbr", ".rmvb")]

/-- The last of the parts that slashes make of a name. -/
def lastPart (name : List Char) : List Char := ((name.splitOn '/').getLast?).getD name

/-- Go's `path.Ext`: what starts at the last dot of the last element. -/
def extension (name : List Char) : List Char :=
  match Text.splitOnce '.' (lastPart name).reverse with
  | some (after, _) => '.' :: after.reverse
  | none => []

variable (guess : List Char → Option (List Char))

/-- The type for an extension, which comes with its dot. -/
def essence (extension : List Char) : Option (List Char) :=
  let lower := extension.map Char.toLower
  match table.find? fun entry =>
    (entry.2.toList.splitOn ',').any fun known => known == extension || known == lower with
  | some entry => some entry.1.toList
  | none => match lower with
    | '.' :: known => guess known
    | _ => none

def byExtension (name : List Char) : Option (List Char) :=
  let extension := extension name
  if extension = [] then none
  else (essence guess extension).map fun kind =>
    if "text/".toList <+: kind then kind ++ "; charset=utf-8".toList else kind

/-- The last element of a path, without a trailing `.part`. -/
def partName (path : List Char) : List Char :=
  let base := lastPart path
  if ".part".toList <:+ base then base.take (base.length - 5) else base

/-- `by_path`. -/
def byPath (path : List Char) : Option (List Char) :=
  (byExtension guess (partName path)).map fun found =>
    if found = "video/mp2t".toList then "video/mpeg".toList
    else if found = "video/x-msvideo".toList then "video/avi".toList
    else found

def isMedia (kind : List Char) : Bool :=
  "video/".toList <+: kind || "audio/".toList <+: kind || "image/".toList <+: kind ||
    kind == "application/vnd.rn-realmedia-vbr".toList

/-- What comes before the slash. -/
def major (kind : List Char) : List Char := ((kind.splitOn '/').head?).getD kind

/-- The type of a file that is listed. -/
def mediaKind (path : List Char) : Option (List Char) := (byPath guess path).filter isMedia

/-- A name without a dot has no type. -/
theorem extension_of_notMem {name : List Char} (h : '.' ∉ lastPart name) : extension name = [] := by
  unfold extension
  cases hsplit : Text.splitOnce '.' (lastPart name).reverse with
  | none => rfl
  | some p =>
    have heq := Text.splitOnce_eq_some hsplit
    exact absurd (List.mem_reverse.mp (heq ▸ List.mem_append_right _ List.mem_cons_self)) h

theorem slash_notMem_lastPart (name : List Char) : '/' ∉ lastPart name := by
  have hne := List.splitOn_ne_nil '/' name
  unfold lastPart
  rw [List.getLast?_eq_some_getLast hne, Option.getD_some]
  exact Text.notMem_of_mem_splitOn (List.getLast_mem hne)

theorem lastPart_of_notMem {name : List Char} (h : '/' ∉ name) : lastPart name = name := by
  unfold lastPart
  rw [List.splitOn_eq_singleton h]
  rfl

variable {guess}

/-- A file that is listed has a dot in its name. -/
theorem dot_mem_of_mediaKind {path kind : List Char} (h : mediaKind guess path = some kind) :
    '.' ∈ lastPart path := by
  by_contra hdot
  have hname : partName path = lastPart path := by
    apply if_neg
    intro hsuffix
    exact hdot (hsuffix.subset (by decide))
  have hnone : byExtension guess (partName path) = none := by
    apply if_pos
    apply extension_of_notMem
    rwa [hname, lastPart_of_notMem (slash_notMem_lastPart path)]
  unfold mediaKind byPath at h
  rw [hnone] at h
  cases h

end Rustorr.MediaType
