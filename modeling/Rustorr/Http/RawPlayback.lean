import Rustorr.Http.ServeContent

/-! `raw_playback` and `download`: files of torrents as players ask for them, and zeros to measure a line
with. -/

namespace Rustorr.RawPlayback

open Conditional (DateReader Method HeaderMap)
open Except Multipart Reads ServeContent Text Utf8

variable {σ ε : Type}

/-! ### The code -/

structure File where
  id : ℕ
  path : List Char
  length : ℕ

/-- What of a `TorrentView` is looked at. -/
structure Torrent where
  hash : Option InfoHash
  files : List File
  timestamp : ℤ

/-- `file_etag`: the hash and the path, in hexadecimal. -/
def fileEtag (hash : InfoHash) (path : List Char) : List Char :=
  '"' :: ((encode (hash.toText ++ '/' :: path)).flatMap InfoHash.hexByte ++ ['"'])

/-- A field that `to_str` takes. -/
def headerStr (headers : HeaderMap) (name : Conditional.HeaderName) : Option (List Char) :=
  (headers.get name).bind fun value => if value.all Conditional.isVisibleAscii then some (rangeText value) else none

section conditions

variable (dates : DateReader) (headers : HeaderMap) (etag : List Char) (timestamp : ℤ)

def dateOf (name : Conditional.HeaderName) : Option ℕ :=
  (headerStr headers name).bind fun value => dates.read (encode value)

/-- `trim` and `strip_prefix("W/")`. -/
def withoutWeak (value : List Char) : List Char :=
  if "W/".toList <+: trim value then (trim value).drop 2 else trim value

def notModified : Bool :=
  match headerStr headers .ifNoneMatch with
  | some value => (value.splitOn ',').any fun value => withoutWeak value = etag || withoutWeak value = ['*']
  | none => (dateOf dates headers .ifModifiedSince).any fun since => timestamp.toNat ≤ since

def preconditionFailed : Bool :=
  (match headerStr headers .ifMatch with
    | some value => !(value.splitOn ',').any fun value => trim value = etag || trim value = ['*']
    | none => false) ||
  (dateOf dates headers .ifUnmodifiedSince).any fun since => timestamp.toNat > since

def ifRangeMatches (value : List Char) : Bool :=
  if value.head? = some '"' then value = etag
  else (dates.read (encode value)).any fun since => timestamp.toNat ≤ since

/-- The `Range` that is looked at. -/
def rangeValue : Option (List Char) :=
  if (headerStr headers .ifRange).any fun value => !ifRangeMatches dates etag timestamp value then none
  else headerStr headers .range

end conditions

section playback

-- how playbacks are read and opened, how errors are put, and what the server and the clock know
variable (inner : Reads.Source σ ε) (playback : ℕ → ℕ → Except ε σ) (touch : Except ε Unit)
  (describe : ε → List Char) (errorBody : List Char → List UInt8) (dates : DateReader) (fmtDate : ℕ → List Char)
  (guess : List Char → Option (List Char)) (maxStreamSize : Option ℕ) (torrent : Torrent) (index : ℕ)
  (method : Method) (headers : HeaderMap) (asksFeatures : Bool)

/-- `json_bad_request`. -/
def jsonBadRequest (message : List Char) : Response ε where
  status := 400
  headers := Headers.insert (fun _ => none) .contentType "application/json; charset=utf-8".toList
  body := .piece (errorBody message)

/-- `playback_headers`. -/
def playbackHeaders (answered : Headers) (mime etag : List Char) (timestamp : ℤ) : Headers :=
  let answered := if answered .contentType = none then answered.insert .contentType mime else answered
  let answered := answered.insert .connection "close".toList
  let answered := answered.insert .server "TorrServer (Portable SDK for UPnP devices)".toList
  let answered := answered.insert .etag etag
  let answered := answered.insert .lastModified (fmtDate timestamp.toNat)
  let answered := answered.insert .streamTimeout "30".toList
  let answered := answered.insert .transferMode "Streaming".toList
  let answered := answered.insert .acceptRanges "bytes".toList
  if asksFeatures then
    answered.insert .contentFeatures
      "DLNA.ORG_OP=01;DLNA.ORG_CI=0;DLNA.ORG_FLAGS=01700000000000000000000000000000".toList
  else answered

/-- The body of an answer that is not in parts: up to so many bytes of a playback. -/
def bodyFrom (opened : σ) (length : ℕ) : Streamed ε :=
  if method = .head then ([], .ok ()) else drain inner.take 4096 (length + 1) (opened, length)

/-- The answer to a request for these ranges, or for the whole file. -/
def answerRanges (hash : InfoHash) (file : File) (mime : List Char) (ranges : Option (List Range.ByteRange)) :
    Except ε (Response ε) :=
  match ranges with
  | none => do
    let opened ← playback 0 (file.length - 1)
    .ok {
      status := 200
      headers := Headers.insert (fun _ => none) .contentLength (decimal file.length)
      body := bodyFrom inner method opened file.length }
  | some [range] => do
    let opened ← playback range.start range.end_
    .ok {
      status := 206
      headers := Headers.insert (Headers.insert (fun _ => none) .contentLength (decimal range.len)) .contentRange
        (contentRange file.length range)
      body := bodyFrom inner method opened range.len }
  | some ranges => .ok (multipartResponse inner playback hash index file.length mime ranges (method = .head))

def rawPlayback : Response ε :=
  match torrent.hash with
  | none => { status := 500 }
  | some hash => match torrent.files.find? fun file => file.id = index with
    | none => jsonBadRequest errorBody ("file with id ".toList ++ decimal index ++ " not found".toList)
    | some file => match maxStreamSize.filter fun limit => file.length > limit with
      | some limit =>
        goHttpError 403 ("file size exceeded max allowed " ++ String.ofList (decimal limit) ++ " bytes")
      | none =>
        let etag := fileEtag hash file.path
        let mime := (MediaType.byExtension guess file.path).getD "application/octet-stream".toList
        let dressed := fun answered : Headers =>
          playbackHeaders fmtDate asksFeatures answered mime etag torrent.timestamp
        if preconditionFailed dates headers etag torrent.timestamp then
          { status := 412, headers := (dressed fun _ => none).remove .contentType }
        else if notModified dates headers etag torrent.timestamp then
          { status := 304
            headers := (((dressed fun _ => none).remove .contentType).remove .acceptRanges).remove .lastModified }
        else match touch with
          | .error e => jsonBadRequest errorBody (describe e)
          | .ok () =>
            match (rangeValue dates headers etag torrent.timestamp).map fun value => Range.parse value file.length with
            | some (.error _) =>
              let refused := Headers.insert (Headers.insert (fun _ => none) .contentType
                "text/plain; charset=utf-8".toList) .contentRange ("bytes */".toList ++ decimal file.length)
              { status := 416
                headers := (((dressed refused).remove .etag).remove .lastModified).insert .contentTypeOptions
                  "nosniff".toList
                body := .piece (encode "invalid range: failed to overlap\n".toList) }
            | some (.ok ranges) =>
              match answerRanges inner playback index method hash file mime (some ranges) with
              | .error e => jsonBadRequest errorBody (describe e)
              | .ok answered => { answered with headers := dressed answered.headers }
            | none => match answerRanges inner playback index method hash file mime none with
              | .error e => jsonBadRequest errorBody (describe e)
              | .ok answered => { answered with headers := dressed answered.headers }

end playback

section download

-- whether the request may manage the server, and what it asks for
variable (ε : Type) (fmtDate : ℕ → List Char) (authorized : Bool) (unauthorized : Response ε) (size : List Char)
  (headers : HeaderMap) (now : ℕ)

def mib : ℕ := 1024 * 1024

def zerosResponse (status length : ℕ) : Response ε where
  status
  headers := Headers.insert (fun _ => none) .contentLength (decimal length)
  body := zeroStream length

/-- `size.parse::<i32>()`. -/
def parseI32 (text : List Char) : Option ℤ :=
  (Range.parseI64 text).filter fun n => -2 ^ 31 ≤ n ∧ n < 2 ^ 31

def download : Response ε :=
  if ¬authorized then unauthorized
  else match parseI32 size with
    | none => { status := 200 }
    | some size =>
      let length := size.toNat * mib
      let finish := fun answered : Response ε =>
        let fields := (answered.headers.insert .acceptRanges "bytes".toList).insert .lastModified (fmtDate now)
        { answered with
          headers := if fields .contentType = none then
            fields.insert .contentType "application/octet-stream".toList else fields }
      match (headerStr headers .range).map fun value => Range.parse value length with
      | none => finish (zerosResponse ε 200 length)
      | some (.error _) => {
        status := 416
        headers := Headers.insert (Headers.insert (Headers.insert (fun _ => none) .contentType
          "text/plain; charset=utf-8".toList) .contentRange ("bytes */".toList ++ decimal length))
          .contentTypeOptions "nosniff".toList
        body := .piece (encode "invalid range: failed to overlap\n".toList) }
      | some (.ok [range]) =>
        let part := zerosResponse ε 206 range.len
        finish { part with headers := part.headers.insert .contentRange (contentRange length range) }
      | some (.ok ranges) => finish (multipartZeros ranges length)

end download

/-! ### What a player gets -/

section exactness

variable {inner : Reads.Source σ ε} {rest : σ → List UInt8} {content : List UInt8} {playback : ℕ → ℕ → Except ε σ}

/-- Playbacks are of this content: what is opened from a byte to another one begins with the bytes there. -/
def Plays (rest : σ → List UInt8) (content : List UInt8) (playback : ℕ → ℕ → Except ε σ) : Prop :=
  ∀ range s, Within content.length range → playback range.start range.end_ = .ok s →
    (rest s).take range.len = slice content range

theorem copied_delivers (hholds : Holds inner rest) (hplays : Plays rest content playback) {range : Range.ByteRange}
    (hwithin : Within content.length range) :
    (copied inner ((playback range.start range.end_).map fun s => (s, range.len))).Delivers (slice content range) := by
  unfold copied
  cases hopen : playback range.start range.end_ with
  | error e => exact Streamed.delivers_failed e _
  | ok s =>
    rw [← hplays range s hwithin hopen]
    exact drain_take_delivers hholds (by decide) s

theorem bodyFrom_exact (hholds : Holds inner rest) (method : Method) (s : σ) (length : ℕ) :
    (decide (method = .head) = false → (bodyFrom inner method s length).Delivers ((rest s).take length)) ∧
      (decide (method = .head) = true → bodyFrom inner method s length = ([], .ok ())) := by
  unfold bodyFrom
  constructor
  · intro hget
    rw [if_neg (of_decide_eq_false hget)]
    exact drain_take_delivers hholds (by decide) s
  · intro hhead
    exact if_pos (of_decide_eq_true hhead)

/-- The fields of the content stay as they are when a player's answer is dressed. -/
theorem playbackHeaders_other (fmtDate : ℕ → List Char) (asksFeatures : Bool) (answered : Headers)
    (mime etag : List Char) (timestamp : ℤ) :
    playbackHeaders fmtDate asksFeatures answered mime etag timestamp .contentLength = answered .contentLength ∧
      playbackHeaders fmtDate asksFeatures answered mime etag timestamp .contentRange = answered .contentRange := by
  unfold playbackHeaders Headers.insert
  by_cases hkind : answered .contentType = none <;> cases asksFeatures <;>
    simp only [hkind, ne_eq, reduceCtorEq, not_false_eq_true, Function.update_of_ne, if_true, if_false,
      Bool.false_eq_true, and_self]

theorem playbackHeaders_contentType {answered : Headers} {kind : List Char} (h : answered .contentType = some kind)
    (fmtDate : ℕ → List Char) (asksFeatures : Bool) (mime etag : List Char) (timestamp : ℤ) :
    playbackHeaders fmtDate asksFeatures answered mime etag timestamp .contentType = some kind := by
  unfold playbackHeaders Headers.insert
  cases asksFeatures <;>
    simp only [h, ne_eq, reduceCtorEq, not_false_eq_true, Function.update_of_ne, if_true, if_false,
      Bool.false_eq_true]

/-- Ranges that lie in a file, and not too many of them. -/
def Asked (length : ℕ) (ranges : List Range.ByteRange) : Prop :=
  ranges ≠ [] ∧ ranges.length ≤ 64 ∧ ∀ range ∈ ranges, Within length range

theorem plays_whole (hplays : Plays rest content playback) {s : σ}
    (h : playback 0 (content.length - 1) = .ok s) : (rest s).take content.length = content := by
  by_cases hempty : content.length = 0
  · rw [hempty, List.take_zero, List.length_eq_zero_iff.mp hempty]
  · have hlast : content.length - 1 < content.length := by omega
    have hall := hplays ⟨0, content.length - 1⟩ s ⟨Nat.zero_le _, hlast⟩ h
    have hlen : Range.ByteRange.len ⟨0, content.length - 1⟩ = content.length := by
      show content.length - 1 - 0 + 1 = content.length
      omega
    unfold slice at hall
    rwa [hlen, List.drop_zero, List.take_length] at hall

/-- The answer to the ranges that were asked for, or to none, is exact. -/
theorem answerRanges_says (hholds : Holds inner rest) (hplays : Plays rest content playback) {file : File}
    (hsize : content.length = file.length) (hsmall : file.length < 2 ^ 56) {index : ℕ} (hindex : index < 2 ^ 32)
    {mime : List Char} (hmime : mime.length < 2 ^ 32) {method : Method} {hash : InfoHash}
    {ranges : Option (List Range.ByteRange)} (hasked : ∀ l, ranges = some l → Asked file.length l)
    {answered : Response ε} (h : answerRanges inner playback index method hash file mime ranges = .ok answered)
    (fmtDate : ℕ → List Char) (asksFeatures : Bool) (etag : List Char) (timestamp : ℤ) :
    Says content (ranges.getD []) (method = .head) { answered with
      headers := playbackHeaders fmtDate asksFeatures answered.headers mime etag timestamp } := by
  obtain ⟨hlength, hrange⟩ := playbackHeaders_other fmtDate asksFeatures answered.headers mime etag timestamp
  match ranges with
  | none =>
    obtain ⟨s, hopen, heq⟩ := Except.bind_eq_ok.mp h
    cases heq
    rw [← hsize] at hopen
    have hbody := bodyFrom_exact hholds method s file.length
    rw [← hsize, plays_whole hplays hopen, hsize] at hbody
    refine Says.whole rfl (hrange.trans ?_) ⟨hlength.trans ?_, hbody.1, hbody.2⟩
    · rfl
    · rw [hsize]
      rfl
  | some [] => exact absurd rfl (hasked [] rfl).1
  | some [range] =>
    obtain ⟨s, hopen, heq⟩ := Except.bind_eq_ok.mp h
    cases heq
    have hwithin := (hasked [range] rfl).2.2 range (List.mem_singleton_self range)
    rw [← hsize] at hwithin
    have hbody := bodyFrom_exact hholds method s range.len
    rw [hplays range s hwithin hopen] at hbody
    refine Says.part rfl hwithin rfl (hrange.trans ?_) ⟨hlength.trans ?_, hbody.1, hbody.2⟩
    · rw [hsize]
      rfl
    · rw [length_slice hwithin]
      rfl
  | some (first :: second :: more) =>
    obtain ⟨-, hfew, hwithin⟩ := hasked _ rfl
    rw [← hsize] at hwithin
    cases h
    have hboundary := length_playbackBoundary hash hindex
    have hmodest : Modest (playbackBoundary hash index) mime content (first :: second :: more) :=
      ⟨hboundary.le, hmime, hsize ▸ hsmall, hfew, hwithin⟩
    have hexact := response_exact hmodest
      (fun range hmem => copied_delivers hholds hplays (hwithin range hmem)) (method = .head)
    rw [hsize] at hexact
    refine Says.parts (by simp) hwithin rfl hboundary (playbackHeaders_contentType ?_ _ _ _ _ _)
      ⟨hlength.trans hexact.declared, hexact.delivered, hexact.silent⟩
    exact response_contentType _ _ _ _ _ _

/-- The file that is asked for is there, is this content and is not too large. -/
structure Served (inner : Reads.Source σ ε) (rest : σ → List UInt8) (content : List UInt8)
    (playback : ℕ → ℕ → Except ε σ) (torrent : Torrent) (index : ℕ) (file : File) : Prop where
  holds : Holds inner rest
  plays : Plays rest content playback
  found : (torrent.files.find? fun file => file.id = index) = some file
  size : content.length = file.length
  small : file.length < 2 ^ 56
  index_lt : index < 2 ^ 32

variable {touch : Except ε Unit} {describe : ε → List Char} {errorBody : List Char → List UInt8} {dates : DateReader}
  {fmtDate : ℕ → List Char} {guess : List Char → Option (List Char)} {maxStreamSize : Option ℕ} {torrent : Torrent}
  {index : ℕ} (method : Method) {headers : HeaderMap} {asksFeatures : Bool}

/-- Whatever a player asks, it gets the file, a range of it or several, each in the length that is declared,
or an answer without content. -/
theorem rawPlayback_exact {file : File} (hserved : Served inner rest content playback torrent index file)
    (hkinds : ∀ kind, MediaType.byExtension guess file.path = some kind → kind.length < 2 ^ 32) :
    ∃ ranges, Says content ranges (method = .head) (rawPlayback inner playback touch describe errorBody dates fmtDate
        guess maxStreamSize torrent index method headers asksFeatures) ∧
      (ranges ≠ [] → ∃ hash value, torrent.hash = some hash ∧
        rangeValue dates headers (fileEtag hash file.path) torrent.timestamp = some value ∧
        Range.parse value file.length = .ok ranges) := by
  obtain ⟨hholds, hplays, hfound, hsize, hsmall, hindex⟩ := hserved
  have hnothing : ∀ {answered : Response ε} {hasked : List Range.ByteRange → Prop} (status : ℕ),
      answered.status = status → status ≠ 200 ∧ status ≠ 206 → ∃ ranges, Says content ranges (method = .head) answered ∧
        (ranges ≠ [] → hasked ranges) :=
    fun status heq hstatus => ⟨[], Says.nothing (heq ▸ hstatus.1) (heq ▸ hstatus.2), fun hne => absurd rfl hne⟩
  have hmime : ((MediaType.byExtension guess file.path).getD "application/octet-stream".toList).length < 2 ^ 32 := by
    cases hkind : MediaType.byExtension guess file.path with
    | none => decide
    | some kind => exact hkinds kind hkind
  unfold rawPlayback
  cases hhash : torrent.hash with
  | none => exact hnothing 500 rfl (by decide)
  | some hash =>
    simp only [hfound]
    split
    · exact hnothing 403 rfl (by decide)
    · split
      · exact hnothing 412 rfl (by decide)
      · split
        · exact hnothing 304 rfl (by decide)
        · cases touch with
          | error e => exact hnothing 400 rfl (by decide)
          | ok _ =>
            simp only
            split
            · exact hnothing 416 rfl (by decide)
            · next ranges hparsed =>
              obtain ⟨value, hvalue, hparse⟩ := Option.map_eq_some_iff.mp hparsed
              split
              · exact hnothing 400 rfl (by decide)
              · next answered hanswered =>
                refine ⟨ranges, answerRanges_says hholds hplays hsize hsmall hindex hmime ?_ hanswered _ _ _ _,
                  fun _ => ⟨hash, value, rfl, hvalue, hparse⟩⟩
                intro l hl
                cases hl
                exact within_of_parse hparse
            · split
              · exact hnothing 400 rfl (by decide)
              · next answered hanswered =>
                refine ⟨[], answerRanges_says hholds hplays hsize hsmall hindex hmime ?_ hanswered _ _ _ _,
                  fun hne => absurd rfl hne⟩
                intro l hl
                cases hl

/-- The first two bytes of a file, and its last two. -/
theorem rawPlayback_exact_two_ranges :
    let torrent : Torrent := ⟨some ⟨List.replicate 20 1, rfl⟩, [⟨1, "a.mkv".toList, 4⟩], 0⟩
    let headers : HeaderMap := fun name => if name = .range then [encode "bytes=0-1,-2".toList] else []
    let played : Response Unit := rawPlayback Source.ofBytes (fun start _ => .ok ([1, 2, 3, 4].drop start)) (.ok ())
      (fun _ => []) (fun _ => []) Conditional.noDates (fun _ => []) (fun _ => none) none torrent 1 .get headers false
    ∃ ranges, Says [1, 2, 3, 4] ranges false played ∧ (ranges ≠ [] → ∃ hash value, torrent.hash = some hash ∧
      rangeValue Conditional.noDates headers (fileEtag hash "a.mkv".toList) 0 = some value ∧
      Range.parse value 4 = .ok ranges) := by
  intro torrent headers played
  have hplays : Plays id [1, 2, 3, 4] fun start _ => (.ok ([1, 2, 3, 4].drop start) : Except Unit (List UInt8)) := by
    intro range s _ hopen
    cases hopen
    rfl
  have hserved : Served Source.ofBytes id [1, 2, 3, 4]
      (fun start _ => (.ok ([1, 2, 3, 4].drop start) : Except Unit (List UInt8))) torrent 1 ⟨1, "a.mkv".toList, 4⟩ :=
    ⟨holds_ofBytes, hplays, rfl, rfl, by decide, by decide⟩
  refine rawPlayback_exact .get hserved ?_
  intro kind hkind
  have hlength : ∀ k ∈ MediaType.byExtension (fun _ => none) "a.mkv".toList, k.length < 2 ^ 32 := by decide
  exact hlength kind hkind

end exactness

/-! ### Zeros -/

section zeros

variable {fmtDate : ℕ → List Char} {unauthorized : Response ε} {size : List Char} {headers : HeaderMap} {now : ℕ}

theorem zeroStream_delivers (n : ℕ) : (zeroStream n : Streamed ε).Delivers (List.replicate n 0) := by
  have hdata : (zeroStream n : Streamed ε).data = List.replicate n 0 := zeroPieces_flatten n
  exact ⟨hdata.symm ▸ List.prefix_refl _, fun _ => hdata⟩

theorem slice_replicate {length : ℕ} {range : Range.ByteRange} (h : Within length range) :
    slice (List.replicate length 0) range = List.replicate range.len 0 := by
  obtain ⟨hle, hlt⟩ := h
  unfold slice Range.ByteRange.len
  rw [List.drop_replicate, List.take_replicate, min_eq_left (by omega)]

theorem parseI32_lt {text : List Char} {n : ℤ} (h : parseI32 text = some n) : n.toNat < 2 ^ 31 := by
  have hbounds := of_decide_eq_true (Option.filter_eq_some_iff.mp h).2
  omega

/-- What is downloaded to measure a line is zeros, as many as are declared. -/
theorem download_exact {n : ℤ} (hsize : parseI32 size = some n) :
    ∃ ranges, Says (List.replicate (n.toNat * mib) 0) ranges false
        (download ε fmtDate true unauthorized size headers now) ∧
      (ranges ≠ [] → ∃ value, headerStr headers .range = some value ∧
        Range.parse value (n.toNat * mib) = .ok ranges) := by
  have hsmall : n.toNat * mib < 2 ^ 56 := by
    have hlt := parseI32_lt hsize
    unfold mib
    omega
  unfold download
  rw [if_neg (not_not.mpr rfl), hsize]
  simp only
  split
  · have hlength : (List.replicate (n.toNat * mib) (0 : UInt8)).length = n.toNat * mib := List.length_replicate
    refine ⟨[], Says.whole rfl rfl ⟨?_, fun _ => zeroStream_delivers _, fun h => absurd h Bool.false_ne_true⟩,
      fun hne => absurd rfl hne⟩
    rw [hlength]
    rfl
  · have hstatus : (416 : ℕ) ≠ 200 ∧ (416 : ℕ) ≠ 206 := by decide
    exact ⟨[], Says.nothing hstatus.1 hstatus.2, fun hne => absurd rfl hne⟩
  · next range hparsed =>
    obtain ⟨value, hvalue, hparse⟩ := Option.map_eq_some_iff.mp hparsed
    obtain ⟨-, -, hwithin⟩ := within_of_parse hparse
    have hrange := hwithin range (List.mem_singleton_self range)
    have hslice := slice_replicate hrange
    have hlength : (List.replicate range.len (0 : UInt8)).length = range.len := List.length_replicate
    rw [← @List.length_replicate _ (n.toNat * mib) (0 : UInt8)] at hrange
    refine ⟨[range], Says.part rfl hrange rfl ?_ ?_, fun _ => ⟨value, hvalue, hparse⟩⟩
    · rw [List.length_replicate]
      rfl
    · rw [hslice]
      exact ⟨hlength.symm ▸ rfl, fun _ => zeroStream_delivers _, fun h => absurd h Bool.false_ne_true⟩
  · next ranges hmany hparsed =>
    obtain ⟨value, hvalue, hparse⟩ := Option.map_eq_some_iff.mp hparsed
    obtain ⟨hne, hfew, hwithin⟩ := within_of_parse hparse
    have hboundary := length_hexBoundary (n := n.toNat * mib) (by omega)
    have hmodest : Modest (hexBoundary (n.toNat * mib)) "application/octet-stream".toList
        (List.replicate (n.toNat * mib) 0) ranges := by
      refine ⟨hboundary.le, ?_, ?_, hfew, ?_⟩
      · decide
      · rwa [List.length_replicate]
      · rwa [List.length_replicate]
    have hexact := @response_exact ε _ _ _ ranges (fun range => zeroStream range.len) hmodest
      (fun range hmem => slice_replicate (hwithin range hmem) ▸ zeroStream_delivers _) false
    rw [List.length_replicate] at hexact
    refine ⟨ranges, Says.parts ?_ hmodest.within rfl hboundary ?_
      ⟨hexact.declared, hexact.delivered, hexact.silent⟩, fun _ => ⟨value, hvalue, hparse⟩⟩
    · match ranges with
      | [] => exact absurd rfl hne
      | [range] => exact absurd rfl (hmany range)
      | _ :: _ :: _ => simp
    · rfl

/-- A mebibyte, of which the first byte and the last one are asked for. -/
theorem download_exact_two_ranges :
    let headers : HeaderMap := fun name => if name = .range then [encode "bytes=0-0,-1".toList] else []
    ∃ ranges, Says (List.replicate ((1 : ℤ).toNat * mib) 0) ranges false
        (download Unit (fun _ => []) true { status := 401 } ['1'] headers 0) ∧
      (ranges ≠ [] → ∃ value, headerStr headers .range = some value ∧
        Range.parse value ((1 : ℤ).toNat * mib) = .ok ranges) := by
  intro headers
  have hone : parseI32 ['1'] = some 1 := by decide
  exact download_exact hone

end zeros

/-! ### What is received of several ranges -/

/-- What each of the three writers of parts sends is read back as the ranges that were asked for; where a
body broke off, nothing is read out of it. -/
theorem parts_received {inner : Reads.Source σ ε} {rest : σ → List UInt8} {content : List UInt8}
    {playback : ℕ → ℕ → Except ε σ} {source : ServeContent.Source σ ε} (hholds : Holds inner rest)
    (hplays : Plays rest content playback) (hprovides : Provides rest content source) (hash : InfoHash)
    {index nanos : ℕ} (hindex : index < 2 ^ 32) (hnanos : nanos < 2 ^ 128) {mime : List Char} (hmime : '\r' ∉ mime)
    (hshort : mime.length < 2 ^ 32) (hsmall : content.length < 2 ^ 56) {value : List Char}
    {ranges : List Range.ByteRange} (hparse : Range.parse value content.length = .ok ranges) :
    Received (playbackBoundary hash index) mime content ranges
        (multipartResponse inner playback hash index content.length mime ranges false) ∧
      Received (hexBoundary nanos) mime content ranges
        (ServeContent.multipart inner nanos source ranges content.length mime false) ∧
      Received (hexBoundary content.length) "application/octet-stream".toList (List.replicate content.length 0) ranges
        (multipartZeros ranges content.length : Response ε) := by
  obtain ⟨-, hfew, hwithin⟩ := within_of_parse hparse
  have hmodest : ∀ {boundary kind : List Char} {content' : List UInt8}, boundary.length = 60 → kind.length < 2 ^ 32 →
      content'.length = content.length → Modest boundary kind content' ranges := by
    intro boundary kind content' hboundary hkind hlength
    exact ⟨hboundary.le, hkind, hlength ▸ hsmall, hfew, fun range hmem => hlength ▸ hwithin range hmem⟩
  refine ⟨?_, ?_, ?_⟩
  · exact response_received (hmodest (length_playbackBoundary hash hindex) hshort rfl) hmime
      fun range hmem => copied_delivers hholds hplays (hwithin range hmem)
  · exact response_received (hmodest (length_hexBoundary hnanos) hshort rfl) hmime
      fun range _ => part_delivers hholds hprovides range
  · have hzeros : (List.replicate content.length (0 : UInt8)).length = content.length := List.length_replicate
    have hboundary := length_hexBoundary (n := content.length) (by omega)
    have hreceived := @response_received ε _ "application/octet-stream".toList _ ranges
      (fun range => zeroStream range.len) (hmodest hboundary (by decide) hzeros) (by decide)
      fun range hmem => slice_replicate (hwithin range hmem) ▸ zeroStream_delivers _
    rw [hzeros] at hreceived
    exact hreceived

/-- Two ranges of four bytes. -/
theorem parts_received_two_ranges :
    Received (playbackBoundary ⟨List.replicate 20 1, rfl⟩ 1) "video/mp4".toList [1, 2, 3, 4] [⟨0, 1⟩, ⟨2, 3⟩]
        (multipartResponse Source.ofBytes (fun start _ => (.ok ([1, 2, 3, 4].drop start) : Except Unit (List UInt8)))
          ⟨List.replicate 20 1, rfl⟩ 1 4 "video/mp4".toList [⟨0, 1⟩, ⟨2, 3⟩] false) ∧
      Received (hexBoundary 7) "video/mp4".toList [1, 2, 3, 4] [⟨0, 1⟩, ⟨2, 3⟩]
        (ServeContent.multipart (Source.ofBytes : Reads.Source (List UInt8) Unit) 7 (.memory [1, 2, 3, 4])
          [⟨0, 1⟩, ⟨2, 3⟩] 4 "video/mp4".toList false) ∧
      Received (hexBoundary 4) "application/octet-stream".toList (List.replicate 4 0) [⟨0, 1⟩, ⟨2, 3⟩]
        (multipartZeros [⟨0, 1⟩, ⟨2, 3⟩] 4 : Response Unit) := by
  have hplays : Plays id [1, 2, 3, 4] fun start _ => (.ok ([1, 2, 3, 4].drop start) : Except Unit (List UInt8)) := by
    intro range s _ hopen
    cases hopen
    rfl
  have hparse : Range.parse "bytes=0-1,-2".toList [1, 2, 3, 4].length = .ok [⟨0, 1⟩, ⟨2, 3⟩] := by decide
  have hprovides : Provides id [1, 2, 3, 4] (.memory [1, 2, 3, 4] : ServeContent.Source (List UInt8) Unit) := rfl
  exact parts_received holds_ofBytes hplays hprovides _ (by decide) (by decide) (by decide) (by decide) (by decide)
    hparse

end Rustorr.RawPlayback
