import Rustorr.Lib.Text
import Rustorr.Lifecycle.TorrsHash
import Rustorr.Lifecycle.World
import Mathlib.Data.List.DropRight

/-! The two readings of a link: as the hash that the gate of `/stream` asks for, and as the
source that is added (`lib.rs`, `adapter.rs`). -/

namespace Rustorr

open TorrsHash (Zlib)

namespace Link

/-- `replace("&amp;", "&")`. -/
def unescape : List Char → List Char
  | '&' :: 'a' :: 'm' :: 'p' :: ';' :: rest => '&' :: unescape rest
  | c :: rest => c :: unescape rest
  | [] => []

def isMagnet (link : List Char) : Bool := "magnet:".toList.isPrefixOf link

/-- The hash of a part of a magnet link between two `&`. -/
def partHash (part : List Char) : Option InfoHash :=
  let hash := match part.dropPrefix? "magnet:?xt=urn:btih:".toList with
    | some hash => some hash
    | none => part.dropPrefix? "xt=urn:btih:".toList
  hash.bind fun hash => (InfoHash.fromStr hash).toOption

def linkInfoHash (z : Zlib) (link : List Char) : Option InfoHash :=
  let link := unescape link
  match InfoHash.fromStr link with
  | .ok hash => some hash
  | .error _ => match TorrsHash.decode z link with
    | some decoded => some decoded.hash
    | none => if isMagnet link then (link.splitOn '&').findSome? partHash else none

/-- The `TorrentSource` of a link; `file` is one whose bytes are read from a path. -/
inductive Source where
  | file (path : List Char)
  | magnet (text : List Char)
  | url (link : List Char)
  deriving DecidableEq

/-- `replace(':', "%3A").replace('/', "%2F")`. -/
def escapeTracker (tracker : List Char) : List Char :=
  tracker.flatMap fun c =>
    if c = ':' then "%3A".toList else if c = '/' then "%2F".toList else [c]

/-- The magnet link that is written for a hash. -/
def magnetOf (hash : List Char) (trackers : List (List Char)) : List Char :=
  "magnet:?xt=urn:btih:".toList ++ hash ++
    trackers.flatMap fun tracker => "&tr=".toList ++ escapeTracker tracker

def textOr (text : String) (other : List Char) : String :=
  if text = "" then String.ofList other else text

/-- `add_torrent` up to its call of `add_source`. -/
def addTorrent (z : Zlib) (link : List Char) (request : AddTorrent) : AddTorrent × Source :=
  let link := unescape link
  match link.dropPrefix? "file://".toList with
  | some path => (request, .file path)
  | none =>
    if isMagnet link then (request, .magnet link)
    else match TorrsHash.decode z link with
      | some decoded =>
        ({ request with
            title := textOr request.title decoded.title
            poster := textOr request.poster decoded.poster
            category := textOr request.category decoded.category },
          .magnet (magnetOf decoded.hash.toText decoded.trackers))
      | none => match InfoHash.fromStr link with
        | .ok _ => (request, .magnet (magnetOf link []))
        | .error _ => (request, .url link)

/-! ### The engine's reading -/

/-- The parser of magnet links that the engine uses. -/
structure MagnetParser where
  /-- `Magnet::parse(value).ok()?.as_id20()`. -/
  id20 : List Char → Option InfoHash
  /-- The decoded pairs of a link's query. -/
  queryPairs : List Char → List (List Char × List Char)
  /-- `Id20::from_str`. -/
  fromStr : List Char → Option InfoHash

namespace MagnetParser

variable (p : MagnetParser)

/-- The hash of an `xt=urn:btih:` parameter. -/
def btih (pair : List Char × List Char) : Option InfoHash :=
  if pair.1 = "xt".toList then (pair.2.dropPrefix? "urn:btih:".toList).bind p.fromStr else none

/-- Of several `xt=urn:btih:` parameters, decoded, the last. -/
def lastBtih (link : List Char) : Option InfoHash :=
  ((p.queryPairs link).filterMap p.btih).getLast?

/-- A character that URL decoding leaves as it is. -/
def plainChar (c : Char) : Bool := c.isAlphanum || ['=', ':', '.', '-', '_'].contains c

/-- What is documented of the parser. -/
structure Documented : Prop where
  decodes : ∀ key value : List Char, (key ++ '=' :: value).all plainChar = true → '=' ∉ key →
    p.queryPairs ("magnet:?".toList ++ key ++ '=' :: value) = [(key, value)]
  keepsLast : ∀ link h, p.id20 link = some h → p.lastBtih link = some h
  accepts : ∀ link, p.queryPairs link ≠ [] →
    (∀ pair ∈ p.queryPairs link, pair.1 = "xt".toList ∧ (p.btih pair).isSome = true) →
      (p.id20 link).isSome = true
  hex : ∀ text h, InfoHash.fromStr text = .ok h → p.fromStr text = some h

/-- `LibrqbitEngine::source_hash` of what a link is turned into. -/
def sourceHash : Source → Option InfoHash
  | .magnet text => p.id20 text
  | _ => none

/-- The engine accepts the magnet link, whose last decoded hash is `h`. -/
def Reads (link : List Char) (h : InfoHash) : Prop :=
  (p.id20 link).isSome = true ∧ p.lastBtih link = some h

instance decidableReads (link : List Char) (h : InfoHash) : Decidable (p.Reads link h) :=
  inferInstanceAs (Decidable (_ ∧ _))

end MagnetParser

/-! ### When the readings agree -/

theorem isHex_of_digits {position : ℕ} {text : List Char} {ds : List ℕ}
    (h : InfoHash.digits position text = .ok ds) : ∀ c ∈ text, (InfoHash.toDigit c).isSome = true := by
  induction text generalizing position ds with
  | nil => exact fun c hc => absurd hc List.not_mem_nil
  | cons d text ih =>
    unfold InfoHash.digits at h
    split at h
    · cases h
    · next digit hdigit =>
      intro c hc
      rcases List.mem_cons.mp hc with rfl | hc
      · rw [hdigit]
        rfl
      · cases hrest : InfoHash.digits (position + 1) text with
        | error e =>
          rw [hrest] at h
          cases h
        | ok rest => exact ih hrest c hc

/-- A text that is a hash has hex digits only. -/
theorem isHex_of_fromStr {text : List Char} {h : InfoHash} (hh : InfoHash.fromStr text = .ok h) :
    ∀ c ∈ text, (InfoHash.toDigit c).isSome = true := by
  unfold InfoHash.fromStr at hh
  split at hh
  · cases hh
  · split at hh
    · cases hh
    · next ds hds => exact isHex_of_digits hds

theorem mem_trim {c : Char} {s : List Char} (hc : c ∈ s) (hnot : Utf8.isWhitespace c = false) :
    c ∈ Utf8.trim s := by
  have hdrop : ∀ {l : List Char}, c ∈ l → c ∈ l.dropWhile Utf8.isWhitespace := by
    intro l hl
    rw [← List.takeWhile_append_dropWhile (p := Utf8.isWhitespace) (l := l)] at hl
    rcases List.mem_append.mp hl with hl | hl
    · have hspace := List.mem_takeWhile_imp hl
      rw [hnot] at hspace
      cases hspace
    · exact hl
  unfold Utf8.trim List.rdropWhile
  exact List.mem_reverse.mpr (hdrop (List.mem_reverse.mpr (hdrop hc)))

/-- A link with a colon is no token, unless it begins with the scheme of tokens. -/
theorem decode_eq_none {z : Zlib} {link : List Char} (hcolon : ':' ∈ link)
    (hscheme : "torrs://".toList.isPrefixOf link = false) : TorrsHash.decode z link = none := by
  have hunbase : TorrsHash.unbase62 link = none := by
    unfold TorrsHash.unbase62
    rw [Option.map_eq_none_iff, Option.eq_none_iff_forall_ne_some]
    intro ds hds
    have hmem := Radix.mem_of_ofLetters hds ':' (mem_trim hcolon (by decide))
    revert hmem
    decide
  unfold TorrsHash.decode TorrsHash.stripPrefix
  rw [hscheme, if_neg Bool.false_ne_true, hunbase]
  rfl

theorem fromStr_ne_ok {link : List Char} (hcolon : ':' ∈ link) (h : InfoHash) :
    InfoHash.fromStr link ≠ .ok h := by
  intro hh
  have hhex := isHex_of_fromStr hh ':' hcolon
  revert hhex
  decide

/-- A link that names a scheme is read as no hash before its scheme is looked at. -/
theorem linkInfoHash_of_colon {z : Zlib} {link : List Char} (hcolon : ':' ∈ unescape link)
    (hscheme : "torrs://".toList.isPrefixOf (unescape link) = false) :
    linkInfoHash z link = if isMagnet (unescape link) then
      ((unescape link).splitOn '&').findSome? partHash else none := by
  unfold linkInfoHash
  dsimp only
  split
  · next hash hhash => exact absurd hhash (fromStr_ne_ok hcolon hash)
  · rw [decode_eq_none hcolon hscheme]

section agreement

variable {p : MagnetParser} {z : Zlib} {link : List Char} {h : InfoHash}

theorem isMagnet_iff {text : List Char} :
    isMagnet text = true ↔ ∃ rest, text = "magnet:".toList ++ rest := by
  unfold isMagnet
  rw [List.isPrefixOf_iff_prefix]
  exact exists_congr fun rest => eq_comm

/-- A link that is read as a hash names no local file. -/
theorem not_file (hlink : linkInfoHash z link = some h) :
    (unescape link).dropPrefix? "file://".toList = none := by
  cases hfile : (unescape link).dropPrefix? "file://".toList with
  | none => rfl
  | some path =>
    obtain ⟨start, hstart, hbeq⟩ := List.dropPrefix?_eq_some_iff.mp hfile
    obtain rfl : start = "file://".toList := eq_of_beq hbeq
    have hcolon : ':' ∈ unescape link := by
      rw [hstart]
      exact List.mem_append_left path (by decide)
    have hscheme : "torrs://".toList.isPrefixOf (unescape link) = false := by
      rw [hstart]
      rfl
    have hmagnet : isMagnet (unescape link) = false := by
      rw [hstart]
      rfl
    rw [linkInfoHash_of_colon hcolon hscheme, hmagnet] at hlink
    cases hlink

/-- The readings of a magnet link and of a token, and what a hash that is no token is. -/
theorem addTorrent_source (hlink : linkInfoHash z link = some h) (request : AddTorrent) :
    (addTorrent z link request).2 =
      if isMagnet (unescape link) then .magnet (unescape link)
      else match TorrsHash.decode z (unescape link) with
        | some decoded => .magnet (magnetOf decoded.hash.toText decoded.trackers)
        | none => .magnet (magnetOf (unescape link) []) := by
  have hnot := not_file hlink
  unfold addTorrent
  dsimp only
  rw [hnot]
  dsimp only
  split
  · rfl
  next hmagnet =>
  split
  · rfl
  next hdecode =>
  split
  · rfl
  next e he =>
  unfold linkInfoHash at hlink
  dsimp only at hlink
  rw [he, hdecode] at hlink
  dsimp only at hlink
  rw [if_neg hmagnet] at hlink
  cases hlink

theorem id20_iff (hp : p.Documented) (text : List Char) (h : InfoHash) :
    p.id20 text = some h ↔ p.Reads text h := by
  constructor
  · intro hid
    refine ⟨?_, hp.keepsLast text h hid⟩
    rw [hid]
    rfl
  · rintro ⟨haccepted, hlast⟩
    obtain ⟨h', hid⟩ := Option.isSome_iff_exists.mp haccepted
    have hlast' := hp.keepsLast text h' hid
    rw [hlast, Option.some.injEq] at hlast'
    rw [hid, hlast']

theorem plainChar_of_hex {c : Char} (hc : (InfoHash.toDigit c).isSome = true) :
    MagnetParser.plainChar c = true := by
  have halphanum : c.isAlphanum = true := by
    unfold InfoHash.toDigit at hc
    have hsplit : c.isAlphanum = (decide ('A' ≤ c ∧ c ≤ 'Z') ||
        (decide ('a' ≤ c) && decide (c ≤ 'z')) || (decide ('0' ≤ c) && decide (c ≤ '9'))) := rfl
    rw [hsplit]
    simp only [Bool.or_eq_true, Bool.and_eq_true, decide_eq_true_iff]
    simp only [Char.le_def] at hc ⊢
    split at hc
    · next h => exact Or.inr h
    · split at hc
      · next h =>
        have hz : ('f' : Char).val ≤ ('z' : Char).val := by decide
        exact Or.inl (Or.inr ⟨h.1, UInt32.le_trans h.2 hz⟩)
      · split at hc
        · next h =>
          have hz : ('F' : Char).val ≤ ('Z' : Char).val := by decide
          exact Or.inl (Or.inl ⟨h.1, UInt32.le_trans h.2 hz⟩)
        · cases hc
  unfold MagnetParser.plainChar
  rw [halphanum, Bool.true_or]

/-- A hash that is no token is written into a link that the engine reads as it. -/
theorem reads_hash (hp : p.Documented) {hash : List Char} (hhash : InfoHash.fromStr hash = .ok h) :
    p.Reads (magnetOf hash []) h := by
  have hplain : hash.all MagnetParser.plainChar = true :=
    List.all_eq_true.mpr fun c hc => plainChar_of_hex (isHex_of_fromStr hhash c hc)
  have htext : magnetOf hash [] =
      "magnet:?".toList ++ "xt".toList ++ '=' :: ("urn:btih:".toList ++ hash) := by
    unfold magnetOf
    rw [List.flatMap_nil, List.append_nil]
    rfl
  have hpairs : p.queryPairs (magnetOf hash []) = [("xt".toList, "urn:btih:".toList ++ hash)] := by
    rw [htext]
    refine hp.decodes _ _ ?_ (by decide)
    rw [List.all_append, List.all_cons, List.all_append, hplain]
    decide
  have hbtih : p.btih ("xt".toList, "urn:btih:".toList ++ hash) = some h := by
    unfold MagnetParser.btih
    rw [if_pos rfl, List.dropPrefix?_append_of_beq hash (BEq.rfl), Option.bind_some]
    exact hp.hex hash h hhash
  constructor
  · refine hp.accepts _ ?_ fun pair hpair => ?_
    · rw [hpairs]
      exact List.cons_ne_nil _ _
    · rw [hpairs] at hpair
      rw [List.mem_singleton.mp hpair, hbtih]
      exact ⟨rfl, rfl⟩
  · unfold MagnetParser.lastBtih
    rw [hpairs, List.filterMap_cons, hbtih]
    rfl

/-- What add_torrent is given to add is the torrent whose hash the gate asks for. -/
def Agrees (p : MagnetParser) (z : Zlib) (link : List Char) (request : AddTorrent) (h : InfoHash) :
    Prop := p.sourceHash (addTorrent z link request).2 = some h

/-- A link that is read as a hash is always added as a magnet link, from no file and no URL. It
is the torrent of that hash exactly if the engine accepts it and the last of its decoded
`xt=urn:btih:` parameters is the hash: of the link itself where it is a magnet link, of the link
that is written with the trackers where it is a token. -/
theorem link_readings_agree_iff (hp : p.Documented) (hlink : linkInfoHash z link = some h)
    (request : AddTorrent) :
    (∃ text, (addTorrent z link request).2 = .magnet text) ∧
      (Agrees p z link request h ↔
        if isMagnet (unescape link) then p.Reads (unescape link) h
        else ∀ decoded ∈ TorrsHash.decode z (unescape link),
          p.Reads (magnetOf decoded.hash.toText decoded.trackers) h) := by
  have hsource := addTorrent_source hlink request
  unfold Agrees
  rw [hsource]
  split
  · next hmagnet =>
    exact ⟨⟨_, rfl⟩, id20_iff hp _ h⟩
  next hmagnet =>
  split
  · next decoded hdecode =>
    refine ⟨⟨_, rfl⟩, (id20_iff hp _ h).trans ?_⟩
    constructor
    · rintro hreads d hd
      rw [hdecode, Option.mem_some_iff] at hd
      rw [← hd]
      exact hreads
    · exact fun hall => hall decoded hdecode
  · next hdecode =>
    refine ⟨⟨_, rfl⟩, (id20_iff hp _ h).trans ?_⟩
    have hhash : InfoHash.fromStr (unescape link) = .ok h := by
      unfold linkInfoHash at hlink
      dsimp only at hlink
      split at hlink
      · next hash hhash => rw [hhash, Option.some.inj hlink]
      · rw [hdecode] at hlink
        dsimp only at hlink
        rw [if_neg hmagnet] at hlink
        cases hlink
    refine ⟨fun _ d hd => ?_, fun _ => reads_hash hp hhash⟩
    rw [hdecode] at hd
    cases hd

end agreement

/-! ### A magnet link with two hashes -/

def rawPairs (link : List Char) : List (List Char × List Char) :=
  match link.dropPrefix? "magnet:?".toList with
  | none => []
  | some query => (query.splitOn '&').map fun part => (Text.splitOnce '=' part).getD (part, [])

def hexHash (text : List Char) : Option InfoHash := (InfoHash.fromStr text).toOption

/-- A parser that does as the real one on links in which nothing is to be decoded. -/
def rawParser : MagnetParser where
  id20 := MagnetParser.lastBtih ⟨fun _ => none, rawPairs, hexHash⟩
  queryPairs := rawPairs
  fromStr := hexHash

theorem rawParser_documented : rawParser.Documented := by
  refine ⟨fun key value hplain hkey => ?_, fun link h hid => hid, fun link hne hall => ?_,
    fun text h hh => ?_⟩
  · have hquery : "magnet:?".toList ++ key ++ '=' :: value =
        "magnet:?".toList ++ (key ++ '=' :: value) := List.append_assoc _ _ _
    have hamp : '&' ∉ key ++ '=' :: value := fun hmem => by
      have hbad := List.all_eq_true.mp hplain '&' hmem
      revert hbad
      decide
    show rawPairs _ = _
    unfold rawPairs
    rw [hquery, List.dropPrefix?_append_of_beq _ BEq.rfl]
    dsimp only
    rw [List.splitOn_eq_singleton hamp, List.map_singleton, Text.splitOnce_append hkey]
    rfl
  · obtain ⟨pair, hpair⟩ := List.exists_mem_of_ne_nil _ hne
    obtain ⟨h, hh⟩ := Option.isSome_iff_exists.mp (hall pair hpair).2
    show (List.getLast? _).isSome = true
    rw [List.getLast?_isSome]
    exact List.ne_nil_of_mem (List.mem_filterMap.mpr ⟨pair, hpair, hh⟩)
  · show (InfoHash.fromStr text).toOption = some h
    rw [hh]
    rfl

def noZlib : Zlib := ⟨fun _ => none, fun _ => none⟩

def plainRequest : AddTorrent := ⟨"", "", "", "", false⟩

/-- A hash of equal bytes. -/
def hashOf (b : UInt8) : InfoHash := ⟨List.replicate 20 b, rfl⟩

def oneHash : List Char := "magnet:?xt=urn:btih:".toList ++ (hashOf 1).toText

def twoHashes : List Char := oneHash ++ "&xt=urn:btih:".toList ++ (hashOf 2).toText

theorem link_readings_agree_oneHash :
    Agrees rawParser noZlib oneHash plainRequest (hashOf 1) :=
  (link_readings_agree_iff rawParser_documented (by decide +kernel) plainRequest).2.mpr
    (by decide +kernel)

theorem link_readings_disagree :
    rawParser.Documented ∧ linkInfoHash noZlib twoHashes = some (hashOf 1) ∧
      rawParser.sourceHash (addTorrent noZlib twoHashes plainRequest).2 = some (hashOf 2) ∧
      ¬∀ link h request, linkInfoHash noZlib link = some h →
        Agrees rawParser noZlib link request h := by
  have hgate : linkInfoHash noZlib twoHashes = some (hashOf 1) := by decide +kernel
  have hadded : rawParser.sourceHash (addTorrent noZlib twoHashes plainRequest).2 =
      some (hashOf 2) := by decide +kernel
  refine ⟨rawParser_documented, hgate, hadded, fun hall => ?_⟩
  have hsame := hall twoHashes (hashOf 1) plainRequest hgate
  unfold Agrees at hsame
  rw [hadded] at hsame
  revert hsame
  decide

end Link

end Rustorr
