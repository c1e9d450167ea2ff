import Rustorr.Lib.Percent
import Rustorr.Lifecycle.Coordinator
import Mathlib.Data.List.Forall2

/-! The playlists of one torrent and of all of them, and the lines they are read as. -/

namespace Rustorr.M3u

open Coordinator (TorrentFileView)

/-- What a playlist shows of a torrent. -/
structure TorrentView where
  title : List Char
  category : List Char
  poster : List Char
  hash : Option InfoHash
  fileStats : List TorrentFileView

/-- A file that was viewed, by the number it has in its torrent. -/
structure ViewedFile where
  hash : InfoHash
  index : ℕ

def isAlphanumeric (b : UInt8) : Bool :=
  (0x30 ≤ b && b ≤ 0x39) || (0x41 ≤ b && b ≤ 0x5a) || (0x61 ≤ b && b ≤ 0x7a)

def escaped (value : List Char) : List Char :=
  Text.replace "%5F".toList ['_'] (Text.replace "%2D".toList ['-'] (Text.replace "%2E".toList ['.']
    (Percent.encode isAlphanumeric (Utf8.encode value))))

/-! ### Names -/

/-- `Path::file_name`. Empty and dot components are none, and the parent has no name. -/
def pathFileName (path : List Char) : Option (List Char) :=
  (((path.splitOn '/').filter fun part => part ≠ [] ∧ part ≠ ['.']).getLast?).filter
    fun name => name ≠ ['.', '.']

def fileName (path : List Char) : List Char :=
  ((pathFileName path).filter fun name => name ≠ []).getD path

/-- A name cut at its last dot; a dot in front cuts nothing. -/
def rsplitFileAtDot (file : List Char) : Option (List Char) × Option (List Char) :=
  if file = ['.', '.'] then (some file, none)
  else match Text.splitOnce '.' file.reverse with
    | none => (none, some file)
    | some (after, before) =>
      if before = [] then (some file, none) else (some before.reverse, some after.reverse)

/-- `Path::extension`. -/
def extension (path : List Char) : Option (List Char) :=
  (pathFileName path).bind fun file =>
    (rsplitFileAtDot file).1.bind fun _ => (rsplitFileAtDot file).2

/-- `Path::file_stem`. -/
def fileStem (path : List Char) : Option (List Char) :=
  (pathFileName path).bind fun file => (rsplitFileAtDot file).1.or (rsplitFileAtDot file).2

def mediaExtensions : List String :=
  ["3gp", "aac", "ac3", "avi", "flac", "flv", "m2ts", "m4a", "m4v", "mka", "mkv", "mov", "mp3",
    "mp4", "mpeg", "mpg", "ogg", "opus", "ts", "wav", "webm"]

def isMedia (path : List Char) : Bool :=
  (mediaExtensions.map String.toList).contains (((extension path).getD []).map Char.toLower)

def stem (path : List Char) : List Char := (fileStem path).getD path

/-- The other files whose path holds the file's name without its extension. -/
def namesakes (files : List TorrentFileView) (file : TorrentFileView) : List TorrentFileView :=
  files.filter fun candidate =>
    candidate.id ≠ file.id ∧ stem file.path.toList <:+: candidate.path.toList

/-! ### Playlists -/

def header : List Char := "#EXTM3U".toList

/-- The address a file is streamed from. -/
def streamUrl (base hash name : List Char) (id : ℕ) : List Char :=
  base ++ "/stream/".toList ++ escaped name ++ "?link=".toList ++ hash ++ "&index=".toList ++
    Text.decimal id ++ "&play".toList

def hashText (torrent : TorrentView) : List Char := (torrent.hash.map InfoHash.toText).getD []

/-- The number of the file a playlist starts at. -/
def startId (torrent : TorrentView) (fromLast : Bool) (startIndex : Option ℕ)
    (viewed : List ViewedFile) : Option ℕ :=
  startIndex.or (if fromLast then
    some (((viewed.filter fun entry => torrent.hash = some entry.hash).map ViewedFile.index).max?.getD 1)
  else none)

/-- The position a playlist starts at. -/
def startPosition (torrent : TorrentView) (fromLast : Bool) (startIndex : Option ℕ)
    (viewed : List ViewedFile) : ℕ :=
  ((startId torrent fromLast startIndex viewed).bind fun index =>
    torrent.fileStats.findIdx? fun file => file.id == index).getD 0

def slaves (torrent : TorrentView) (base : List Char) (external : List TorrentFileView) : List Char :=
  external.flatMap fun slave =>
    streamUrl base (hashText torrent) (fileName slave.path.toList) slave.id ++ ['#']

/-- What `one` writes for a file. -/
def entry (torrent : TorrentView) (base : List Char) (file : TorrentFileView) : List Char :=
  let name := fileName file.path.toList
  let external := namesakes torrent.fileStats file
  "#EXTINF:0,".toList ++ name ++ ['\n'] ++
    (if external = [] then []
      else "#EXTVLCOPT:input-slave=".toList ++ slaves torrent base external ++ ['\n']) ++
    streamUrl base (hashText torrent) name file.id ++ ['\n']

def one (torrent : TorrentView) (base : List Char) (fromLast : Bool) (startIndex : Option ℕ)
    (viewed : List ViewedFile) : List Char :=
  let first := startPosition torrent fromLast startIndex viewed
  header ++ ['\n'] ++ torrent.fileStats.zipIdx.flatMap fun placed =>
    if placed.2 < first ∨ isMedia placed.1.path.toList = false then []
    else entry torrent base placed.1

/-- The torrents of a category whose title holds the text searched for. -/
def selected (torrents : List TorrentView) (category search : Option (List Char)) :
    List TorrentView :=
  torrents.filter fun torrent =>
    (match category with
      | some category =>
        if category = "uncategorized".toList then decide (torrent.category = [])
        else decide (torrent.category = category)
      | none => true) &&
    (match search with
      | some search => decide (search.map Char.toLower <:+: torrent.title.map Char.toLower)
      | none => true)

/-- `trim_start_matches`, in at most `fuel` rounds. -/
def trimStartMatches (pattern : List Char) : ℕ → List Char → List Char
  | 0, text => text
  | fuel + 1, text =>
    if pattern <+: text then trimStartMatches pattern fuel (text.drop pattern.length) else text

/-- The address of a torrent's own playlist. -/
def playlistUrl (base : List Char) (torrent : TorrentView) : List Char :=
  base ++ "/stream/".toList ++ escaped torrent.title ++ ".m3u?link=".toList ++ hashText torrent ++
    "&m3u&fn=file.m3u".toList

def logo (torrent : TorrentView) : List Char :=
  if torrent.poster = [] then [] else " tvg-logo=\"".toList ++ torrent.poster ++ ['"']

def all (torrents : List TorrentView) (base : List Char) (merge : Bool)
    (category search : Option (List Char)) : List Char :=
  header ++ ['\n'] ++ (selected torrents category search).flatMap fun torrent =>
    if merge then
      let own := one torrent base false none []
      trimStartMatches (header ++ ['\n']) own.length own
    else
      "#EXTINF:0".toList ++ logo torrent ++ " type=\"playlist\",".toList ++ torrent.title ++ ['\n'] ++
        playlistUrl base torrent ++ ['\n']

/-! ### Addresses -/

/-- What stands for itself in an address. -/
def isUnescaped (b : UInt8) : Bool := isAlphanumeric b || b == 0x2e || b == 0x2d || b == 0x5f

theorem plain_isAlphanumeric : Percent.Plain isAlphanumeric := by
  intro b hb
  have hne : b ≠ 0x25 := by
    rintro rfl
    revert hb
    decide
  unfold isAlphanumeric at hb
  simp only [Bool.or_eq_true, Bool.and_eq_true, decide_eq_true_eq] at hb
  rcases hb with (hb | hb) | hb
  all_goals
    exact ⟨UInt8.lt_of_le_of_lt hb.2 (by decide), hne⟩

theorem plain_dot : Percent.Plain fun b => isAlphanumeric b || b == 0x2e :=
  plain_isAlphanumeric.or (by decide) (by decide)

theorem plain_dash : Percent.Plain fun b => isAlphanumeric b || b == 0x2e || b == 0x2d :=
  plain_dot.or (by decide) (by decide)

theorem plain_isUnescaped : Percent.Plain isUnescaped := plain_dash.or (by decide) (by decide)

/-- The three replacements leave three more characters as they are. -/
theorem escaped_eq (value : List Char) :
    escaped value = Percent.encode isUnescaped (Utf8.encode value) := by
  have hdot : Text.replace "%2E".toList ['.'] (Percent.encode isAlphanumeric (Utf8.encode value)) =
      Percent.encode (fun b => isAlphanumeric b || b == 0x2e) (Utf8.encode value) :=
    Percent.replace_triplet plain_isAlphanumeric 0x2e _
  have hdash := Percent.replace_triplet plain_dot 0x2d (Utf8.encode value)
  have hunderscore := Percent.replace_triplet plain_dash 0x5f (Utf8.encode value)
  unfold escaped
  rw [hdot]
  exact (congrArg _ hdash).trans hunderscore

/-- The segment is one: no character of it ends it. -/
theorem ne_of_mem_escaped {c : Char} {value : List Char} (h : c ∈ escaped value) :
    c ≠ '/' ∧ c ≠ '?' ∧ c ≠ '#' ∧ c ≠ '\n' := by
  rw [escaped_eq] at h
  apply Percent.forall_mem_encode (P := fun c => c ≠ '/' ∧ c ≠ '?' ∧ c ≠ '#' ∧ c ≠ '\n') _ _ _ h
  · intro b hb
    have hlt := (plain_isUnescaped b hb).1
    have hback := Percent.utf8EncodeChar_ofNat hlt
    have hof : ∀ d : Char, ∀ byte : UInt8, String.utf8EncodeChar d = [byte] →
        isUnescaped byte = false → Char.ofNat b.toNat ≠ d := by
      intro d byte hd hfalse heq
      rw [heq, hd] at hback
      rw [← List.head_eq_of_cons_eq hback, hfalse] at hb
      cases hb
    exact ⟨hof '/' 0x2f (by decide) (by decide), hof '?' 0x3f (by decide) (by decide),
      hof '#' 0x23 (by decide) (by decide), hof '\n' 0x0a (by decide) (by decide)⟩
  · decide
  · decide

theorem percentDecode_escaped (value : List Char) :
    UrlQuery.percentDecode (escaped value) = Utf8.encode value := by
  have h := Percent.percentDecode_encode plain_isUnescaped (Utf8.encode value) []
  rw [List.append_nil, UrlQuery.percentDecode, List.append_nil] at h
  rw [escaped_eq, h]

/-! ### Lines -/

def isUrl (line : List Char) : Bool := line.head? ≠ some '#'

/-- The lines of a playlist that are no comments. -/
def urls (text : List Char) : List (List Char) := (Text.terminated text).filter isUrl

section Written

variable {α : Type} (comments : α → List (List Char)) (url : α → List Char)

/-- The lines of a playlist: the comments of each entry, and its address. -/
def written (entries : List α) : List (List Char) :=
  header :: entries.flatMap fun entry => comments entry ++ [url entry]

/-- The addresses of a playlist name its entries, and its lines are the ones that were meant. -/
structure Lists (names : α → List Char → Prop) (entries : List α) (text : List Char) : Prop where
  urls : List.Forall₂ names entries (urls text)
  lines : Text.terminated text = written comments url entries

/-- No line of the entry is broken, and its address is no comment. -/
structure Legible (entry : α) : Prop where
  whole : ∀ line ∈ comments entry, '\n' ∉ line
  unbroken : '\n' ∉ url entry
  address : isUrl (url entry) = true

variable {comments url}

theorem filter_written (hcomments : ∀ entry, ∀ line ∈ comments entry, isUrl line = false)
    (entries : List α) : (written comments url entries).filter isUrl = (entries.map url).filter isUrl := by
  have hheader : isUrl header = false := by decide
  unfold written
  rw [List.filter_cons_of_neg (by rw [hheader]; exact Bool.false_ne_true)]
  induction entries with
  | nil => rfl
  | cons entry entries ih =>
    have hnone : (comments entry).filter isUrl = [] := by
      rw [List.filter_eq_nil_iff]
      intro line hline
      rw [hcomments entry line hline]
      exact Bool.false_ne_true
    rw [List.flatMap_cons, List.filter_append, ih, List.filter_append, hnone, List.nil_append,
      List.map_cons, ← List.filter_append, List.singleton_append]

theorem terminated_written {entries : List α} (h : ∀ entry ∈ entries, Legible comments url entry) :
    Text.terminated (Text.unlines (written comments url entries)) = written comments url entries := by
  rw [Text.terminated_unlines_iff]
  intro line hline
  rcases List.mem_cons.mp hline with rfl | hline
  · decide
  · obtain ⟨entry, hentry, hline⟩ := List.mem_flatMap.mp hline
    rcases List.mem_append.mp hline with hline | hline
    · exact (h entry hentry).whole line hline
    · rw [List.mem_singleton.mp hline]
      exact (h entry hentry).unbroken

theorem urls_written (hcomments : ∀ entry, ∀ line ∈ comments entry, isUrl line = false)
    {entries : List α} (h : ∀ entry ∈ entries, Legible comments url entry) :
    urls (Text.unlines (written comments url entries)) = entries.map url := by
  unfold urls
  rw [terminated_written h, filter_written hcomments, List.filter_eq_self]
  intro line hline
  obtain ⟨entry, hentry, rfl⟩ := List.mem_map.mp hline
  exact (h entry hentry).address

/-- A playlist lists its entries exactly where each of them is legible. -/
theorem lists_iff {names : α → List Char → Prop}
    (hcomments : ∀ entry, ∀ line ∈ comments entry, isUrl line = false)
    (hnames : ∀ entry, names entry (url entry)) {entries : List α} :
    Lists comments url names entries (Text.unlines (written comments url entries)) ↔
      ∀ entry ∈ entries, Legible comments url entry := by
  constructor
  · intro h entry hentry
    have hunbroken := Text.terminated_unlines_iff.mp h.lines
    have hmem : ∀ line ∈ comments entry ++ [url entry], line ∈ written comments url entries :=
      fun line hline => List.mem_cons_of_mem _ (List.mem_flatMap.mpr ⟨entry, hentry, hline⟩)
    have hlength := h.urls.length_eq
    unfold M3u.urls at hlength
    rw [h.lines, filter_written hcomments, ← List.length_map url] at hlength
    have haddress := List.length_filter_eq_length_iff.mp hlength.symm
    constructor
    · intro line hline
      exact hunbroken line (hmem line (List.mem_append_left _ hline))
    · exact hunbroken _ (hmem _ (List.mem_append_right _ List.mem_cons_self))
    · exact haddress _ (List.mem_map_of_mem hentry)
  · intro h
    constructor
    · rw [urls_written hcomments h, List.forall₂_map_right_iff, List.forall₂_same]
      intro entry _
      exact hnames entry
    · exact terminated_written h

end Written

/-! ### The playlist of a torrent -/

/-- The media files from a position on. -/
def listed (torrent : TorrentView) (first : ℕ) : List TorrentFileView :=
  (torrent.fileStats.drop first).filter fun file => isMedia file.path.toList

def fileComments (base : List Char) (torrent : TorrentView) (file : TorrentFileView) :
    List (List Char) :=
  ("#EXTINF:0,".toList ++ fileName file.path.toList) ::
    if namesakes torrent.fileStats file = [] then []
    else ["#EXTVLCOPT:input-slave=".toList ++
      slaves torrent base (namesakes torrent.fileStats file)]

def fileUrl (base : List Char) (torrent : TorrentView) (file : TorrentFileView) : List Char :=
  streamUrl base (hashText torrent) (fileName file.path.toList) file.id

/-- An address of a file: its number, and a path segment that decodes to its name. -/
def NamesFile (base : List Char) (torrent : TorrentView) (file : TorrentFileView)
    (url : List Char) : Prop :=
  ∃ segment, url = base ++ "/stream/".toList ++ segment ++ "?link=".toList ++ hashText torrent ++
      "&index=".toList ++ Text.decimal file.id ++ "&play".toList ∧
    (∀ c ∈ segment, c ≠ '/' ∧ c ≠ '?' ∧ c ≠ '#') ∧
    UrlQuery.percentDecode segment = Utf8.encode (fileName file.path.toList)

/-- A base that is neither broken nor a comment. -/
structure Readable (base : List Char) : Prop where
  unbroken : '\n' ∉ base
  address : isUrl base = true

theorem namesFile_fileUrl (base : List Char) (torrent : TorrentView) (file : TorrentFileView) :
    NamesFile base torrent file (fileUrl base torrent file) := by
  refine ⟨escaped (fileName file.path.toList), rfl, ?_, percentDecode_escaped _⟩
  intro c hc
  obtain ⟨hslash, hquestion, hnumber, -⟩ := ne_of_mem_escaped hc
  exact ⟨hslash, hquestion, hnumber⟩

theorem isUrl_comment (rest : List Char) : isUrl ('#' :: rest) = false := rfl

theorem isUrl_fileComments (base : List Char) (torrent : TorrentView) (file : TorrentFileView) :
    ∀ line ∈ fileComments base torrent file, isUrl line = false := by
  intro line hline
  unfold fileComments at hline
  rcases List.mem_cons.mp hline with rfl | hline
  · rfl
  · split at hline
    · cases hline
    · rw [List.mem_singleton.mp hline]
      rfl

theorem isUrl_append_slash (base rest : List Char) : isUrl (base ++ '/' :: rest) = isUrl base := by
  cases base with
  | nil => rfl
  | cons c base => rfl

theorem newline_notMem_hashText (torrent : TorrentView) : '\n' ∉ hashText torrent := by
  unfold hashText
  cases torrent.hash with
  | none => exact List.not_mem_nil
  | some hash =>
    rw [Option.map_some, Option.getD_some]
    intro hmem
    exact InfoHash.forall_mem_toText (P := fun c => '\n' ≠ c) (by decide) hmem rfl

theorem newline_mem_streamUrl {base : List Char} {torrent : TorrentView} {name : List Char} {id : ℕ} :
    '\n' ∈ streamUrl base (hashText torrent) name id ↔ '\n' ∈ base := by
  have hescaped : '\n' ∉ escaped name := fun h => (ne_of_mem_escaped h).2.2.2 rfl
  have hdecimal : '\n' ∉ Text.decimal id := Text.notMem_decimal (by decide) id
  have hhash := newline_notMem_hashText torrent
  have hfixed : '\n' ∉ "/stream/".toList ∧ '\n' ∉ "?link=".toList ∧ '\n' ∉ "&index=".toList ∧
      '\n' ∉ "&play".toList := by decide
  unfold streamUrl
  simp only [List.mem_append, hescaped, hdecimal, hhash, hfixed, or_false]

/-- Only the base and the name of an entry can make it illegible. -/
theorem legible_file_iff {base : List Char} {torrent : TorrentView} {file : TorrentFileView} :
    Legible (fileComments base torrent) (fileUrl base torrent) file ↔
      Readable base ∧ '\n' ∉ fileName file.path.toList := by
  have hurl : isUrl (fileUrl base torrent file) = isUrl base := by
    unfold fileUrl streamUrl
    simp only [List.append_assoc]
    exact isUrl_append_slash base _
  have hinfo : '\n' ∈ "#EXTINF:0,".toList ++ fileName file.path.toList ↔
      '\n' ∈ fileName file.path.toList := by
    have hfixed : '\n' ∉ "#EXTINF:0,".toList := by decide
    rw [List.mem_append, or_iff_right hfixed]
  constructor
  · intro h
    refine ⟨⟨?_, ?_⟩, ?_⟩
    · exact mt newline_mem_streamUrl.mpr h.unbroken
    · rw [← hurl]
      exact h.address
    · exact mt hinfo.mpr (h.whole _ List.mem_cons_self)
  · rintro ⟨hbase, hname⟩
    constructor
    · intro line hline
      unfold fileComments at hline
      rcases List.mem_cons.mp hline with rfl | hline
      · exact mt hinfo.mp hname
      · split at hline
        · cases hline
        · rw [List.mem_singleton.mp hline, List.mem_append, not_or]
          constructor
          · decide
          · intro hmem
            unfold slaves at hmem
            obtain ⟨slave, -, hmem⟩ := List.mem_flatMap.mp hmem
            rcases List.mem_append.mp hmem with hmem | hmem
            · exact hbase.unbroken (newline_mem_streamUrl.mp hmem)
            · revert hmem
              decide
    · exact mt newline_mem_streamUrl.mp hbase.unbroken
    · rw [hurl]
      exact hbase.address

/-- Skipping what comes before a position, and what is not chosen. -/
theorem flatMap_zipIdx {α β : Type} (f : α → List β) (p : α → Bool) (first : ℕ) (l : List α)
    (k : ℕ) : ((l.zipIdx k).flatMap fun placed =>
      if placed.2 < first ∨ p placed.1 = false then [] else f placed.1) =
        ((l.drop (first - k)).filter p).flatMap f := by
  induction l generalizing k with
  | nil => rw [List.drop_nil]; rfl
  | cons a l ih =>
    rw [List.zipIdx_cons, List.flatMap_cons, ih]
    by_cases hk : k < first
    · obtain ⟨d, hd⟩ : ∃ d, first - k = d + 1 := ⟨first - k - 1, by omega⟩
      have hnext : first - (k + 1) = d := by omega
      rw [if_pos (Or.inl hk), List.nil_append, hd, hnext, List.drop_succ_cons]
    · have hzero : first - k = 0 := by omega
      have hnext : first - (k + 1) = 0 := by omega
      rw [hzero, hnext, List.drop_zero, List.drop_zero]
      cases hp : p a with
      | true =>
        rw [if_neg (by simp [hk]), List.filter_cons_of_pos hp, List.flatMap_cons]
      | false =>
        rw [if_pos (Or.inr rfl), List.nil_append, List.filter_cons_of_neg (by simp [hp])]

theorem entry_eq (base : List Char) (torrent : TorrentView) (file : TorrentFileView) :
    entry torrent base file =
      Text.unlines (fileComments base torrent file ++ [fileUrl base torrent file]) := by
  unfold entry fileComments fileUrl Text.unlines
  simp only
  split
  · simp only [List.flatMap_append, List.flatMap_cons, List.flatMap_nil, List.append_nil,
      List.append_assoc]
  · simp only [List.flatMap_append, List.flatMap_cons, List.flatMap_nil, List.append_nil,
      List.append_assoc]

theorem unlines_written {α : Type} (comments : α → List (List Char)) (url : α → List Char)
    (entries : List α) : Text.unlines (written comments url entries) =
      header ++ ['\n'] ++ entries.flatMap fun entry => Text.unlines (comments entry ++ [url entry]) := by
  unfold written
  rw [← Text.unlines_flatMap]
  rfl

theorem one_eq (base : List Char) (torrent : TorrentView) (fromLast : Bool) (startIndex : Option ℕ)
    (viewed : List ViewedFile) : one torrent base fromLast startIndex viewed =
      Text.unlines (written (fileComments base torrent) (fileUrl base torrent)
        (listed torrent (startPosition torrent fromLast startIndex viewed))) := by
  have hentries := flatMap_zipIdx (entry torrent base) (fun file => isMedia file.path.toList)
    (startPosition torrent fromLast startIndex viewed) torrent.fileStats 0
  have hentry : entry torrent base = fun file =>
      Text.unlines (fileComments base torrent file ++ [fileUrl base torrent file]) :=
    funext (entry_eq base torrent)
  rw [unlines_written]
  unfold one
  simp only
  rw [hentries, Nat.sub_zero, hentry]
  rfl

/-! ### The playlist of all torrents -/

def torrentComments (torrent : TorrentView) : List (List Char) :=
  ["#EXTINF:0".toList ++ logo torrent ++ " type=\"playlist\",".toList ++ torrent.title]

/-- An address of a torrent's playlist, with a path segment that decodes to its title. -/
def NamesTorrent (base : List Char) (torrent : TorrentView) (url : List Char) : Prop :=
  ∃ segment, url = base ++ "/stream/".toList ++ segment ++ ".m3u?link=".toList ++
      hashText torrent ++ "&m3u&fn=file.m3u".toList ∧
    (∀ c ∈ segment, c ≠ '/' ∧ c ≠ '?' ∧ c ≠ '#') ∧
    UrlQuery.percentDecode segment = Utf8.encode torrent.title

/-- The media files of the torrents, each with its torrent. -/
def merged (torrents : List TorrentView) : List (TorrentView × TorrentFileView) :=
  torrents.flatMap fun torrent => (listed torrent 0).map fun file => (torrent, file)

theorem namesTorrent_playlistUrl (base : List Char) (torrent : TorrentView) :
    NamesTorrent base torrent (playlistUrl base torrent) := by
  refine ⟨escaped torrent.title, rfl, ?_, percentDecode_escaped _⟩
  intro c hc
  obtain ⟨hslash, hquestion, hnumber, -⟩ := ne_of_mem_escaped hc
  exact ⟨hslash, hquestion, hnumber⟩

theorem isUrl_torrentComments (torrent : TorrentView) :
    ∀ line ∈ torrentComments torrent, isUrl line = false := by
  intro line hline
  unfold torrentComments at hline
  rw [List.mem_singleton.mp hline]
  rfl

theorem newline_mem_logo {torrent : TorrentView} :
    '\n' ∈ logo torrent ↔ '\n' ∈ torrent.poster := by
  have hfixed : '\n' ∉ " tvg-logo=\"".toList ∧ '\n' ∉ ['"'] := by decide
  unfold logo
  split
  · next hempty => rw [hempty]
  · rw [List.mem_append, List.mem_append, or_iff_left hfixed.2, or_iff_right hfixed.1]

theorem newline_mem_playlistUrl {base : List Char} {torrent : TorrentView} :
    '\n' ∈ playlistUrl base torrent ↔ '\n' ∈ base := by
  have hescaped : '\n' ∉ escaped torrent.title := fun h => (ne_of_mem_escaped h).2.2.2 rfl
  have hhash := newline_notMem_hashText torrent
  have hfixed : '\n' ∉ "/stream/".toList ∧ '\n' ∉ ".m3u?link=".toList ∧
      '\n' ∉ "&m3u&fn=file.m3u".toList := by decide
  unfold playlistUrl
  simp only [List.mem_append, hescaped, hhash, hfixed, or_false]

/-- Only the base, the poster and the title of a torrent can make its entry illegible. -/
theorem legible_torrent_iff {base : List Char} {torrent : TorrentView} :
    Legible torrentComments (playlistUrl base) torrent ↔
      Readable base ∧ '\n' ∉ torrent.poster ∧ '\n' ∉ torrent.title := by
  have hurl : isUrl (playlistUrl base torrent) = isUrl base := by
    unfold playlistUrl
    simp only [List.append_assoc]
    exact isUrl_append_slash base _
  have hinfo : (∀ line ∈ torrentComments torrent, '\n' ∉ line) ↔
      '\n' ∉ torrent.poster ∧ '\n' ∉ torrent.title := by
    have hfixed : '\n' ∉ "#EXTINF:0".toList ∧ '\n' ∉ " type=\"playlist\",".toList := by decide
    unfold torrentComments
    rw [List.forall_mem_singleton]
    simp only [List.mem_append, newline_mem_logo, hfixed, false_or, or_false, not_or]
  constructor
  · intro h
    refine ⟨⟨?_, ?_⟩, hinfo.mp h.whole⟩
    · exact mt newline_mem_playlistUrl.mpr h.unbroken
    · rw [← hurl]
      exact h.address
  · rintro ⟨hbase, htexts⟩
    constructor
    · exact hinfo.mpr htexts
    · exact mt newline_mem_playlistUrl.mp hbase.unbroken
    · rw [hurl]
      exact hbase.address

theorem all_eq (torrents : List TorrentView) (base : List Char) (category search : Option (List Char)) :
    all torrents base false category search =
      Text.unlines (written torrentComments (playlistUrl base) (selected torrents category search)) := by
  rw [unlines_written]
  unfold all torrentComments Text.unlines
  simp only [Bool.false_eq_true, ↓reduceIte, List.flatMap_append, List.flatMap_cons,
    List.flatMap_nil, List.append_nil, List.append_assoc]

theorem startPosition_none (torrent : TorrentView) : startPosition torrent false none [] = 0 := rfl

/-- What a file's entry starts with is no header. -/
theorem not_header (base : List Char) (torrent : TorrentView) (files : List TorrentFileView) :
    ¬ header ++ ['\n'] <+: files.flatMap fun file =>
      Text.unlines (fileComments base torrent file ++ [fileUrl base torrent file]) := by
  intro h
  cases files with
  | nil =>
    rw [List.flatMap_nil, List.prefix_nil] at h
    revert h
    decide
  | cons file files =>
    have hbegin : "#EXTI".toList <+: Text.unlines
        (fileComments base torrent file ++ [fileUrl base torrent file]) := ⟨_, rfl⟩
    have hprefix := List.prefix_of_prefix_length_le
      (hbegin.trans (List.prefix_append _ (files.flatMap fun file =>
        Text.unlines (fileComments base torrent file ++ [fileUrl base torrent file])))) h (by decide)
    revert hprefix
    decide

theorem trimStartMatches_one (base : List Char) (torrent : TorrentView) :
    trimStartMatches (header ++ ['\n']) (one torrent base false none []).length
        (one torrent base false none []) =
      (listed torrent 0).flatMap fun file =>
        Text.unlines (fileComments base torrent file ++ [fileUrl base torrent file]) := by
  have hone := one_eq base torrent false none []
  rw [startPosition_none, unlines_written] at hone
  obtain ⟨fuel, hfuel⟩ : ∃ fuel, (one torrent base false none []).length = fuel + 2 := by
    rw [hone, List.length_append]
    exact ⟨_, Nat.add_comm _ _⟩
  rw [hfuel, hone, trimStartMatches, if_pos (List.prefix_append _ _), List.drop_left,
    trimStartMatches, if_neg (not_header base torrent _)]

theorem all_merge_eq (torrents : List TorrentView) (base : List Char)
    (category search : Option (List Char)) : all torrents base true category search =
      Text.unlines (written (fun entry => fileComments base entry.1 entry.2)
        (fun entry => fileUrl base entry.1 entry.2) (merged (selected torrents category search))) := by
  rw [unlines_written]
  unfold all merged
  simp only [↓reduceIte, trimStartMatches_one, List.flatMap_assoc, List.flatMap_map]

/-! ### What the playlists list -/

/-- The playlist of a torrent lists its media files from the start on. -/
def ListsFiles (torrent : TorrentView) (base : List Char) (fromLast : Bool) (startIndex : Option ℕ)
    (viewed : List ViewedFile) : Prop :=
  Lists (fileComments base torrent) (fileUrl base torrent) (NamesFile base torrent)
    (listed torrent (startPosition torrent fromLast startIndex viewed))
    (one torrent base fromLast startIndex viewed)

/-- The playlist of all torrents lists each torrent selected. -/
def ListsTorrents (torrents : List TorrentView) (base : List Char)
    (category search : Option (List Char)) : Prop :=
  Lists torrentComments (playlistUrl base) (NamesTorrent base) (selected torrents category search)
    (all torrents base false category search)

/-- The merged playlist lists the files of the torrents selected, as their own playlists do. -/
structure ListsMerged (torrents : List TorrentView) (base : List Char)
    (category search : Option (List Char)) : Prop where
  files : Lists (fun entry => fileComments base entry.1 entry.2)
    (fun entry => fileUrl base entry.1 entry.2) (fun entry => NamesFile base entry.1 entry.2)
    (merged (selected torrents category search)) (all torrents base true category search)
  own : urls (all torrents base true category search) =
    (selected torrents category search).flatMap fun torrent => urls (one torrent base false none [])

theorem listsFiles_iff {torrent : TorrentView} {base : List Char} {fromLast : Bool}
    {startIndex : Option ℕ} {viewed : List ViewedFile} :
    ListsFiles torrent base fromLast startIndex viewed ↔
      ∀ file ∈ listed torrent (startPosition torrent fromLast startIndex viewed),
        Readable base ∧ '\n' ∉ fileName file.path.toList := by
  unfold ListsFiles
  rw [one_eq, lists_iff (isUrl_fileComments base torrent) (namesFile_fileUrl base torrent)]
  apply forall₂_congr
  intro file _
  exact legible_file_iff

theorem listsTorrents_iff {torrents : List TorrentView} {base : List Char}
    {category search : Option (List Char)} : ListsTorrents torrents base category search ↔
      ∀ torrent ∈ selected torrents category search,
        Readable base ∧ '\n' ∉ torrent.poster ∧ '\n' ∉ torrent.title := by
  unfold ListsTorrents
  rw [all_eq, lists_iff isUrl_torrentComments (namesTorrent_playlistUrl base)]
  apply forall₂_congr
  intro torrent _
  exact legible_torrent_iff

theorem mem_merged {torrents : List TorrentView} {torrent : TorrentView} {file : TorrentFileView} :
    (torrent, file) ∈ merged torrents ↔ torrent ∈ torrents ∧ file ∈ listed torrent 0 := by
  unfold merged
  rw [List.mem_flatMap]
  constructor
  · rintro ⟨other, hother, hmem⟩
    obtain ⟨listedFile, hfile, heq⟩ := List.mem_map.mp hmem
    cases heq
    exact ⟨hother, hfile⟩
  · rintro ⟨htorrent, hfile⟩
    exact ⟨torrent, htorrent, List.mem_map_of_mem hfile⟩

theorem listsMerged_iff {torrents : List TorrentView} {base : List Char}
    {category search : Option (List Char)} : ListsMerged torrents base category search ↔
      ∀ torrent ∈ selected torrents category search, ∀ file ∈ listed torrent 0,
        Readable base ∧ '\n' ∉ fileName file.path.toList := by
  have hcomments : ∀ entry : TorrentView × TorrentFileView,
      ∀ line ∈ fileComments base entry.1 entry.2, isUrl line = false :=
    fun entry => isUrl_fileComments base entry.1 entry.2
  have hlists := @lists_iff _ _ _ (fun entry => NamesFile base entry.1 entry.2) hcomments
    (fun entry => namesFile_fileUrl base entry.1 entry.2)
    (merged (selected torrents category search))
  rw [← all_merge_eq] at hlists
  constructor
  · intro h torrent htorrent file hfile
    have hlegible := hlists.mp h.files (torrent, file) (mem_merged.mpr ⟨htorrent, hfile⟩)
    exact legible_file_iff.mp ⟨hlegible.whole, hlegible.unbroken, hlegible.address⟩
  · intro h
    have hlegible : ∀ torrent ∈ selected torrents category search, ∀ file ∈ listed torrent 0,
        Legible (fileComments base torrent) (fileUrl base torrent) file :=
      fun torrent htorrent file hfile => legible_file_iff.mpr (h torrent htorrent file hfile)
    have hall : ∀ entry ∈ merged (selected torrents category search),
        Legible (fun entry => fileComments base entry.1 entry.2)
          (fun entry => fileUrl base entry.1 entry.2) entry := by
      intro entry hentry
      obtain ⟨htorrent, hfile⟩ := mem_merged.mp hentry
      have hfile := hlegible entry.1 htorrent entry.2 hfile
      exact ⟨hfile.whole, hfile.unbroken, hfile.address⟩
    refine ⟨hlists.mpr hall, ?_⟩
    rw [all_merge_eq, urls_written hcomments hall]
    unfold merged
    rw [List.map_flatMap]
    apply List.flatMap_congr
    intro torrent htorrent
    rw [one_eq, startPosition_none, urls_written (isUrl_fileComments base torrent)
      (hlegible torrent htorrent), List.map_map]
    rfl

/-- The playlists list what they should exactly where no text that is shown as it is breaks a
line: the base, the names of the files listed, the titles and the posters. -/
theorem playlists_list_iff (base : List Char) :
    (∀ torrent fromLast startIndex viewed, ListsFiles torrent base fromLast startIndex viewed ↔
      ∀ file ∈ listed torrent (startPosition torrent fromLast startIndex viewed),
        Readable base ∧ '\n' ∉ fileName file.path.toList) ∧
    (∀ torrents category search, ListsTorrents torrents base category search ↔
      ∀ torrent ∈ selected torrents category search,
        Readable base ∧ '\n' ∉ torrent.poster ∧ '\n' ∉ torrent.title) ∧
    ∀ torrents category search, ListsMerged torrents base category search ↔
      ∀ torrent ∈ selected torrents category search, ∀ file ∈ listed torrent 0,
        Readable base ∧ '\n' ∉ fileName file.path.toList :=
  ⟨fun _ _ _ _ => listsFiles_iff, fun _ _ _ => listsTorrents_iff, fun _ _ _ => listsMerged_iff⟩

/-- A file whose author put a line break in its name. -/
def brokenFile : TorrentFileView := ⟨1, "a\nb.mkv", 1, 0⟩

/-- Its name adds a line, which is read as an address. -/
theorem name_adds_line : ¬ ∀ torrent base fromLast startIndex viewed, Readable base →
    ListsFiles torrent base fromLast startIndex viewed := by
  intro h
  have hlists := h ⟨"a".toList, [], [], none, [brokenFile]⟩ "http://h".toList false none []
    ⟨by decide, by decide⟩
  have hlisted : brokenFile ∈ [brokenFile].filter fun file => isMedia file.path.toList :=
    List.mem_filter.mpr ⟨List.mem_singleton_self brokenFile, by decide⟩
  have hname := (listsFiles_iff.mp hlists brokenFile hlisted).2
  revert hname
  decide

end Rustorr.M3u
