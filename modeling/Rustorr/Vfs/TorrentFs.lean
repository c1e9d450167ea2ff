import Rustorr.Domain
import Rustorr.Lib.Utf8
import Rustorr.Vfs.Path
import Mathlib.Data.List.Sort
import Mathlib.Data.List.Destutter
import Mathlib.Data.List.Lex
import Mathlib.Data.Char

/-! The torrent file system (`rustorr-vfs`): categories, torrents in them and the
files of a torrent under their display paths. -/

namespace Rustorr.Vfs

inductive FsError
  | notFound
  | invalid
  deriving DecidableEq

structure TorrentFileView where
  id : ℕ
  path : List Char
  length : ℕ
  engineIndex : U32
  deriving DecidableEq

/-- The parts of a torrent's view the file system looks at. -/
structure TorrentView where
  title : List Char
  category : List Char
  timestamp : ℤ
  name : Option (List Char)
  hash : Option (List Char)
  stat : ℕ
  fileStats : List TorrentFileView
  deriving DecidableEq

structure FsSettings where
  showFsActiveTorr : Bool
  torrentDisconnectTimeout : ℤ
  deriving DecidableEq

/-- The answers of a client core that does not change meanwhile: to `List`, to
`settings(Get)` and to `Add` with a hash as the link. An error is `none`. -/
structure Core where
  list : Option (List TorrentView)
  settings : Option FsSettings
  added : List Char → Option TorrentView

structure Info where
  name : List Char
  size : ℕ
  mode : ℕ
  mtime : ℤ
  isDir : Bool
  deriving DecidableEq

/-- `path` is the display path inside the torrent, empty for the torrent itself. -/
inductive Node
  | root
  | category (name : List Char)
  | dir (torrent : TorrentView) (name : List Char) (path : Path)
  | file (torrent : TorrentView) (name : List Char) (file : TorrentFileView)
  deriving DecidableEq

def dirInfo (name : List Char) (mtime : ℤ) : Info := ⟨name, 4096, 0o555, mtime, true⟩

namespace Node

def info : Node → Info
  | root => dirInfo ['/'] 477033600
  | category name => dirInfo name 477033666
  | dir torrent name _ => dirInfo name torrent.timestamp
  | file torrent name view => ⟨name, view.length, 0o444, torrent.timestamp, false⟩

def isFile : Node → Bool
  | file _ _ _ => true
  | _ => false

end Node

/-- What `sanitize_name` makes of a character. -/
def sanitizeChar (c : Char) : Option Char :=
  if c = '/' ∨ c = '\\' then some '_' else if c.toNat ≤ 0x1f ∨ c.toNat = 0x7f then none else some c

def sanitizeName (name : List Char) : List Char :=
  let trimmed := Utf8.trim (name.filterMap sanitizeChar)
  if trimmed = [] ∨ trimmed = ['.'] ∨ trimmed = ['.', '.'] then [] else trimmed

def categoryName (category : List Char) : List Char :=
  if sanitizeName category = [] then "other".toList else sanitizeName category

/-- `hash.clone().unwrap_or_default().to_ascii_lowercase()`. -/
def lowerHash (torrent : TorrentView) : List Char := (torrent.hash.getD []).map Char.toLower

def torrentName (torrent : TorrentView) : List Char :=
  if sanitizeName torrent.title = [] then lowerHash torrent else sanitizeName torrent.title

/-- A loaded torrent with its file list. -/
def gotInfo (torrent : TorrentView) : Bool := torrent.stat < 4 && torrent.fileStats ≠ []

def stripPrefix (pre s : List Char) : Option (List Char) :=
  if pre <+: s then some (s.drop pre.length) else none

/-- Without the torrent's name for a multi-file torrent. -/
def displayPath (torrent : TorrentView) (file : TorrentFileView) : Path :=
  ((stripPrefix (torrent.name.getD []) file.path).bind (stripPrefix ['/'])).getD file.path

/-- `fs.ValidPath`. -/
def validPath (name : Path) : Bool :=
  name = ['.'] ∨ name ≠ [] ∧ ∀ element ∈ name.splitOn '/',
    element ≠ [] ∧ element ≠ ['.'] ∧ element ≠ ['.', '.']

namespace Core

variable (core : Core)

def torrents : List TorrentView := core.list.getD []

/-- The loop of `loaded` with `n` attempts to go. -/
def poll (hash : List Char) : ℕ → Except FsError TorrentView
  | 0 => .error .notFound
  | n + 1 => match core.added hash with
    | some view => if gotInfo view then .ok view else poll hash n
    | none => poll hash n

def loaded (torrent : TorrentView) : Except FsError TorrentView :=
  if gotInfo torrent then .ok torrent
  else
    let attempts := match core.settings with
      | none => 60
      | some settings => (max settings.torrentDisconnectTimeout 0 * 2).toNat
    core.poll (lowerHash torrent) attempts

/-- The rest of a display path below the directory `path`. -/
def relative (path display : Path) : Option Path :=
  if path = [] then some display else (stripPrefix path display).bind (stripPrefix ['/'])

/-- The loop body of `read_dir` in a torrent: a file takes the place of what has its name,
a directory stands back. -/
def addChild (torrent : TorrentView) (path : Path) (children : List Node)
    (file : TorrentFileView) : List Node :=
  match relative path (displayPath torrent file) with
  | none => children
  | some relative =>
    let first := (relative.splitOn '/').headD []
    if first = [] then children
    else if '/' ∉ relative then
      children.filter (fun child => child.info.name ≠ first) ++ [.file torrent first file]
    else if children.any fun child => child.info.name = first then children
    else children ++ [.dir torrent first (if path = [] then first else path ++ '/' :: first)]

def byName (children : List Node) : List Node :=
  children.insertionSort fun left right => left.info.name ≤ right.info.name

/-- `sort` and `dedup` of the categories' names. -/
def categories : List (List Char) :=
  ((core.torrents.map fun torrent => categoryName torrent.category).insertionSort
    (· ≤ ·)).destutter (· ≠ ·)

/-- The torrents of a category, in the order of the catalog. -/
def categoryDirs (category : List Char) : List Node :=
  let onlyLoaded := match core.settings with
    | none => true
    | some settings => settings.showFsActiveTorr
  ((core.torrents.filter fun torrent => categoryName torrent.category = category).filter
    fun torrent => !onlyLoaded || gotInfo torrent).map fun torrent =>
      .dir torrent (torrentName torrent) []

def readDir : Node → Except FsError (List Node)
  | .root => .ok (byName (core.categories.map .category))
  | .category category => .ok (core.categoryDirs category)
  | .dir torrent _ path => match core.loaded torrent with
    | .error e => .error e
    | .ok torrent => .ok (byName (torrent.fileStats.foldl (addChild torrent path) []))
  | .file _ _ _ => .error .invalid

/-- The loop of `open` over the elements of a name. A file opens whatever path continues
below it. -/
def walk : Node → List (List Char) → Except FsError Node
  | node, [] => .ok node
  | node, element :: elements =>
    if node.isFile then .ok node
    else match core.readDir node with
      | .error e => .error e
      | .ok children => match children.find? fun child => child.info.name = element with
        | none => .error .notFound
        | some child => walk child elements

/-- `TorrentFs::open`. -/
def openPath (name : Path) : Except FsError Node :=
  let name := Path.clean name
  if name = ['.'] ∨ name = ['/'] ∨ name = [] then .ok .root
  else
    let name := name.dropWhile (· = '/')
    if !validPath name then .error .invalid
    else core.walk .root (name.splitOn '/')

end Core

end Rustorr.Vfs
