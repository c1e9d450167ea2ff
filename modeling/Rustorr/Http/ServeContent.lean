import Rustorr.Http.Conditional
import Rustorr.Http.MediaType
import Rustorr.Http.Multipart
import Rustorr.Lib.Fallible

/-! `serve_content.rs`: content in memory, in a file or in a torrent is answered whole, in part or in parts,
or not at all. -/

namespace Rustorr.ServeContent

open Conditional (Bytes DateReader Method HeaderMap)
open Except Multipart Reads Text Utf8

variable {σ ε : Type}

/-! ### Sources -/

/-- Where the content comes from: bytes, a file that is opened and sought, or playbacks of a torrent. -/
inductive Source (σ ε : Type)
  | memory (bytes : List UInt8)
  | file (openAt : ℕ → Except ε σ)
  | torrent (playback : ℕ → Option ℕ → Except ε σ)

/-- What is read from: a cursor over bytes, or something that is read up to a limit. -/
inductive Handle (σ : Type)
  | cursor (rest : List UInt8)
  | limited (s : σ) (limit : ℕ)

/-- Reads of a handle, where `inner` is how files and playbacks are read. -/
def handles (inner : Reads.Source σ ε) : Reads.Source (Handle σ) ε where
  read h n := match h with
    | .cursor rest => (Reads.Source.ofBytes.read rest n).map fun out => (out.1, .cursor out.2)
    | .limited s limit => (inner.take.read (s, limit) n).map fun out => (out.1, .limited out.2.1 out.2.2)

namespace Source

variable (source : Source σ ε) (inner : Reads.Source σ ε)

/-- `reader`. -/
def reader (start length : ℕ) : Except ε (Handle σ) :=
  match source with
  | .memory bytes => .ok (.cursor ((bytes.take (min (start + length) bytes.length)).drop (min start bytes.length)))
  | .file openAt => (openAt start).map fun s => .limited s length
  | .torrent playback =>
    (playback start (if start + length = 0 then none else some (start + length - 1))).map fun s => .limited s length

/-- `stream`, in pieces of 4 KiB at most. -/
def stream (start length : ℕ) : Except ε (Streamed ε) :=
  (source.reader start length).map fun h => drain (handles inner) 4096 (length + 1) h

/-- The first bytes, no more than are looked at. -/
def head (size : ℕ) : Except ε (List UInt8) := do
  let h ← source.reader 0 (min size 512)
  let read := drain (handles inner) 32 (min size 512 + 1) h
  read.2
  .ok read.data

end Source

/-! ### The answer -/

/-- What is to be served. -/
structure Content (σ ε : Type) where
  source : Source σ ε
  size : ℕ
  name : List Char
  contentType : Option (List Char)
  modified : Option ℕ
  etag : Option (List Char)

/-- The signatures of well-known files, with their types. -/
def signatures : List (List UInt8 × String) :=
  [([0x25, 0x50, 0x44, 0x46, 0x2d], "application/pdf"),
    ([0x89, 0x50, 0x4e, 0x47, 0x0d, 0x0a, 0x1a, 0x0a], "image/png"),
    ([0xff, 0xd8, 0xff], "image/jpeg"),
    ([0x47, 0x49, 0x46, 0x38, 0x37, 0x61], "image/gif"),
    ([0x47, 0x49, 0x46, 0x38, 0x39, 0x61], "image/gif"),
    ([0x1a, 0x45, 0xdf, 0xa3], "video/webm"),
    ([0x49, 0x44, 0x33], "audio/mpeg"),
    ([0x4f, 0x67, 0x67, 0x53, 0x00], "application/ogg"),
    ([0x50, 0x4b, 0x03, 0x04], "application/zip"),
    ([0x1f, 0x8b, 0x08], "application/x-gzip")]

def isControl (b : UInt8) : Bool :=
  b ≤ 0x08 || b = 0x0b || (0x0e ≤ b && b ≤ 0x1a) || (0x1c ≤ b && b ≤ 0x1f)

def sniff (data : List UInt8) : List Char :=
  match signatures.find? fun entry => entry.1.isPrefixOf data with
  | some entry => entry.2.toList
  | none =>
    if data.length ≥ 12 ∧ (data.drop 4).take 4 = [0x66, 0x74, 0x79, 0x70] then "video/mp4".toList
    else if data.any isControl then "application/octet-stream".toList
    else "text/plain; charset=utf-8".toList

/-- A text that a field may carry. -/
def isFieldText (value : List Char) : Bool := (encode value).all fun b => (32 ≤ b && b ≠ 127) || b = 9

/-- `set`: a text that no field may carry is left out. -/
def set (headers : Headers) (name : Field) (value : List Char) : Headers :=
  if isFieldText value then headers.insert name value else headers

section serve

-- how files and playbacks are read, dates are read and written, and extensions are known
variable (inner : Reads.Source σ ε) (dates : DateReader) (fmtDate : ℕ → List Char)
  (guess : List Char → Option (List Char)) (content : Content σ ε) (method : Method) (headers : HeaderMap)
  (nanos : ℕ)

/-- `base_headers`, over the ones that are there. -/
def withBase (answered : Headers) : Headers :=
  let answered := match content.etag with
    | some etag => set answered .etag etag
    | none => answered
  match content.modified with
  | some modified => set answered .lastModified (fmtDate modified)
  | none => answered

/-- `go_http_error`. -/
def goHttpError (status : ℕ) (message : String) : Response ε where
  status
  headers := Headers.insert (Headers.insert (fun _ => none) .contentType "text/plain; charset=utf-8".toList)
    .contentTypeOptions "nosniff".toList
  body := .piece (encode (message.toList ++ ['\n']))

/-- The `Range` that is left to be looked at, as a text. -/
def rangeText (value : Bytes) : List Char := value.map fun b => Char.ofNat b.toNat

/-- The type of the content: as it was given, by its name, or by its first bytes. -/
def typeOf : Except ε (List Char) :=
  match content.contentType with
  | some kind => .ok kind
  | none => match MediaType.byExtension guess content.name with
    | some kind => .ok kind
    | none => (content.source.head inner content.size).map sniff

/-- The ranges that are answered; none for the whole content. -/
inductive Wanted
  | ranges (ranges : List Range.ByteRange)
  | unsatisfiable
  | invalid

def wanted (range : Option Bytes) : Wanted :=
  match range.map fun value => Range.parse (rangeText value) content.size with
  | none => .ranges []
  | some (.ok ranges) =>
    if (ranges.map Range.ByteRange.len).sum % 2 ^ 64 > content.size then .ranges [] else .ranges ranges
  | some (.error .unsatisfiable) => if content.size = 0 then .ranges [] else .unsatisfiable
  | some (.error .invalid) => .invalid

/-- The body of an answer that is not in parts. -/
def bodyOf (start length : ℕ) : Except ε (Streamed ε) :=
  if method = .head then .ok ([], .ok ()) else content.source.stream inner start length

/-- What is read of a part, in pieces that a buffer of 32 KiB takes. -/
def partOf (source : Source σ ε) (range : Range.ByteRange) : Streamed ε :=
  match source.reader range.start range.len with
  | .error e => .failed e
  | .ok h => drain (handles inner) (32 * 1024) (range.len + 1) h

/-- The writer of parts in `serve_content.rs`. -/
def multipart (source : Source σ ε) (ranges : List Range.ByteRange) (size : ℕ) (kind : List Char) (isHead : Bool) :
    Response ε :=
  response (hexBoundary nanos) kind size ranges (partOf inner source) isHead

/-- The answer once the preconditions let it through. -/
def answer (kind : List Char) (ranges : List Range.ByteRange) : Response ε :=
  let finish (answered : Response ε) : Response ε :=
    { answered with headers := withBase fmtDate content (answered.headers.insert .acceptRanges "bytes".toList) }
  match ranges with
  | [] => match bodyOf inner content method 0 content.size with
    | .error _ => goHttpError 500 "cannot read content"
    | .ok body => finish {
        status := 200
        headers := (set (fun _ => none) .contentType kind).insert .contentLength (decimal content.size)
        body }
  | [range] => match bodyOf inner content method range.start range.len with
    | .error _ => goHttpError 416 "cannot seek"
    | .ok body => finish {
        status := 206
        headers := set ((set (fun _ => none) .contentType kind).insert .contentLength (decimal range.len))
          .contentRange (contentRange content.size range)
        body }
  | ranges => finish (multipart inner nanos content.source ranges content.size kind (method = .head))

def serve : Response ε :=
  match Conditional.preconditions dates method headers ⟨content.modified, content.etag.map encode⟩ with
  | .preconditionFailed => { status := 412, headers := withBase fmtDate content fun _ => none }
  | .notModified =>
    let kept := withBase fmtDate content fun _ => none
    { status := 304, headers := if content.etag.isSome then kept.remove .lastModified else kept }
  | .proceed range => match typeOf inner guess content with
    | .error _ => goHttpError 500 "seeker can't seek"
    | .ok kind => match wanted content range with
      | .unsatisfiable =>
        let refused : Response ε := goHttpError 416 "invalid range: failed to overlap"
        { refused with
          headers := set refused.headers .contentRange ("bytes */".toList ++ decimal content.size) }
      | .invalid => goHttpError 416 "invalid range"
      | .ranges ranges => answer inner fmtDate content method nanos kind ranges

end serve

/-! ### What is read -/

variable {inner : Reads.Source σ ε} {rest : σ → List UInt8} {content : List UInt8}

/-- What a handle has left. -/
def Handle.left (rest : σ → List UInt8) : Handle σ → List UInt8
  | .cursor bytes => bytes
  | .limited s limit => (rest s).take limit

theorem handles_cursor (left : List UInt8) (n : ℕ) :
    (handles inner).read (.cursor left) n =
      (Reads.Source.ofBytes.read left n).map fun out => (out.1, .cursor out.2) := rfl

theorem handles_limited (s : σ) (limit n : ℕ) :
    (handles inner).read (.limited s limit) n =
      (inner.take.read (s, limit) n).map fun out => (out.1, .limited out.2.1 out.2.2) := rfl

theorem holds_handles (h : Holds inner rest) : Holds (handles inner) (Handle.left rest) where
  split := by
    intro s s' n bytes hread
    cases s with
    | cursor left =>
      rw [handles_cursor] at hread
      obtain ⟨out, hinner, heq⟩ := map_eq_ok hread
      cases heq
      show left = out.1 ++ out.2
      exact holds_ofBytes.split hinner
    | limited s limit =>
      rw [handles_limited] at hread
      obtain ⟨out, hinner, heq⟩ := map_eq_ok hread
      cases heq
      exact h.take.split hinner
  bounded := by
    intro s s' n bytes hread
    cases s with
    | cursor left =>
      rw [handles_cursor] at hread
      obtain ⟨out, hinner, heq⟩ := map_eq_ok hread
      cases heq
      exact holds_ofBytes.bounded hinner
    | limited s limit =>
      rw [handles_limited] at hread
      obtain ⟨out, hinner, heq⟩ := map_eq_ok hread
      cases heq
      exact h.take.bounded hinner
  ended := by
    intro s s' n hread hn
    cases s with
    | cursor left =>
      rw [handles_cursor] at hread
      obtain ⟨⟨bytes, left'⟩, hinner, heq⟩ := map_eq_ok hread
      cases heq
      exact holds_ofBytes.ended hinner hn
    | limited s limit =>
      rw [handles_limited] at hread
      obtain ⟨⟨bytes, s', limit'⟩, hinner, heq⟩ := map_eq_ok hread
      cases heq
      exact h.take.ended hinner hn

/-- The source is of this content: what is opened anywhere in it goes on with what comes there. -/
def Provides (rest : σ → List UInt8) (content : List UInt8) : Source σ ε → Prop
  | .memory bytes => bytes = content
  | .file openAt => ∀ start s, openAt start = .ok s → rest s = content.drop start
  | .torrent playback => ∀ start last s, playback start (some last) = .ok s →
    (rest s).take (last + 1 - start) = (content.drop start).take (last + 1 - start)

theorem reader_left {source : Source σ ε} {start length : ℕ} {h : Handle σ}
    (hprovides : Provides rest content source) (hopen : source.reader start length = .ok h) :
    h.left rest = (content.drop start).take length := by
  cases source with
  | memory bytes =>
    cases hopen
    have hbytes : bytes = content := hprovides
    subst hbytes
    show (bytes.take (min (start + length) bytes.length)).drop (min start bytes.length) =
      (bytes.drop start).take length
    rcases le_total start bytes.length with hle | hle
    · have hend : bytes.take (min (start + length) bytes.length) = bytes.take (start + length) := by
        rw [← List.take_take, List.take_length]
      rw [hend, min_eq_left hle, List.drop_take, Nat.add_sub_cancel_left]
    · rw [min_eq_right hle, min_eq_right (by omega), List.take_length, List.drop_length, List.drop_of_length_le hle,
        List.take_nil]
  | file openAt =>
    obtain ⟨s, hs, heq⟩ := map_eq_ok hopen
    cases heq
    show (rest s).take length = _
    rw [hprovides start s hs]
  | torrent playback =>
    obtain ⟨s, hs, heq⟩ := map_eq_ok hopen
    cases heq
    show (rest s).take length = _
    by_cases hzero : length = 0
    · rw [hzero, List.take_zero, List.take_zero]
    · rw [if_neg (by omega)] at hs
      have hall := hprovides start (start + length - 1) s hs
      have hlength : start + length - 1 + 1 - start = length := by omega
      rwa [hlength] at hall

theorem stream_delivers {source : Source σ ε} {start length : ℕ} {body : Streamed ε} (hholds : Holds inner rest)
    (hprovides : Provides rest content source) (h : source.stream inner start length = .ok body) :
    body.Delivers ((content.drop start).take length) := by
  obtain ⟨handle, hopen, heq⟩ := map_eq_ok h
  cases heq
  have hleft := reader_left hprovides hopen
  rw [← hleft]
  refine drain_delivers (holds_handles hholds) (by decide) ?_
  rw [hleft, List.length_take]
  omega

theorem part_delivers {source : Source σ ε} (hholds : Holds inner rest) (hprovides : Provides rest content source)
    (range : Range.ByteRange) : (partOf inner source range).Delivers (slice content range) := by
  unfold partOf
  cases hopen : source.reader range.start range.len with
  | error e => exact Streamed.delivers_failed e _
  | ok handle =>
    have hleft := reader_left hprovides hopen
    unfold slice
    rw [← hleft]
    refine drain_delivers (holds_handles hholds) (by decide) ?_
    rw [hleft, List.length_take]
    omega

/-! ### Every answer is exact -/

/-- The declared length is that of the bytes that are to come, and they come: all of them, or the
start of them where a read failed. The head alone has no body. -/
structure Exact (bytes : List UInt8) (isHead : Bool) (answered : Response ε) : Prop where
  declared : answered.headers .contentLength = some (decimal bytes.length)
  delivered : isHead = false → answered.body.Delivers bytes
  silent : isHead = true → answered.body = ([], .ok ())

/-- What an answer says of the content: nothing, all of it, a range or several of them. -/
inductive Says (content : List UInt8) (ranges : List Range.ByteRange) (isHead : Bool) (answered : Response ε) : Prop
  | nothing : answered.status ≠ 200 → answered.status ≠ 206 → Says content ranges isHead answered
  | whole : answered.status = 200 → answered.headers .contentRange = none →
      Exact content isHead answered → Says content ranges isHead answered
  | part {range : Range.ByteRange} : ranges = [range] → Within content.length range → answered.status = 206 →
      answered.headers .contentRange = some (contentRange content.length range) →
      Exact (slice content range) isHead answered → Says content ranges isHead answered
  | parts {boundary mime : List Char} : 2 ≤ ranges.length → (∀ range ∈ ranges, Within content.length range) →
      answered.status = 206 → boundary.length = 60 →
      answered.headers .contentType = some (contentType boundary) →
      Exact (exact boundary mime content ranges) isHead answered → Says content ranges isHead answered

theorem response_exact {boundary mime : List Char} {ranges : List Range.ByteRange}
    {part : Range.ByteRange → Streamed ε} (hmodest : Modest boundary mime content ranges)
    (hpart : ∀ range ∈ ranges, (part range).Delivers (slice content range)) (isHead : Bool) :
    Exact (exact boundary mime content ranges) isHead
      (response boundary mime content.length ranges part isHead) where
  declared := congrArg (fun n => some (decimal n)) (contentLength_eq hmodest)
  delivered hget := by
    subst hget
    exact body_delivers boundary mime content hpart
  silent hhead := by
    subst hhead
    rfl

/-- What is asked for lies in the content. -/
theorem within_of_parse {value : List Char} {length : ℕ} {ranges : List Range.ByteRange}
    (h : Range.parse value length = .ok ranges) :
    ranges ≠ [] ∧ ranges.length ≤ 64 ∧ ∀ range ∈ ranges, Within length range := by
  unfold Range.parse at h
  split at h
  · cases h
  · next values hunit =>
    split at h
    · cases h
    · next hlength =>
      have hnone : ([] : List Range.ByteRange).length ≤ 64 := Nat.zero_le 64
      obtain ⟨new, hnew, hall, hfew⟩ := Range.collect_eq_ok hnone h
      rw [List.nil_append] at hnew
      subst hnew
      have hlengths := hall.length_eq
      refine ⟨?_, hfew, fun range hrange => ?_⟩
      · rw [← List.length_pos_iff, ← hlengths, List.length_pos_iff]
        exact List.splitOn_ne_nil ',' values
      · obtain ⟨i, hi, hget⟩ := List.getElem_of_mem hrange
        have helement := (List.forall₂_iff_get.mp hall).2 i (hlengths ▸ hi) hi
        rw [List.get_eq_getElem, List.get_eq_getElem, hget] at helement
        exact Range.element_bounds (Nat.pos_of_ne_zero hlength) helement

/-! ### The whole of `serve` -/

section exactness

variable (dates : DateReader) (fmtDate : ℕ → List Char) (guess : List Char → Option (List Char))
  (c : Content σ ε) (method : Method) (headers : HeaderMap) (nanos : ℕ)

theorem set_other {answered : Headers} {name name' : Field} {value : List Char} (hne : name' ≠ name) :
    set answered name value name' = answered name' := by
  unfold set
  split
  · exact Function.update_of_ne hne _ _
  · rfl

theorem withBase_other {answered : Headers} {name : Field} (hetag : name ≠ .etag) (hmodified : name ≠ .lastModified) :
    withBase fmtDate c answered name = answered name := by
  unfold withBase
  cases c.etag <;> cases c.modified <;> simp only [set_other hetag, set_other hmodified]

/-- What is served by a source: the content that is described, and not too much of it. -/
structure Served (inner : Reads.Source σ ε) (rest : σ → List UInt8) (content : List UInt8) : Prop where
  holds : Holds inner rest
  provides : Provides rest content c.source
  size : content.length = c.size
  small : c.size < 2 ^ 56
  clock : nanos < 2 ^ 128

theorem isFieldText_ascii {value : List Char} (h : ∀ ch ∈ value, 32 ≤ ch.toNat ∧ ch.toNat < 127) :
    isFieldText value = true := by
  refine List.all_eq_true.mpr fun b hb => ?_
  obtain ⟨ch, hch, hbyte⟩ := List.mem_flatMap.mp hb
  have hbounds : 32 ≤ ch.val.toNat ∧ ch.val.toNat < 127 := h ch hch
  rcases utf8EncodeChar_cases ch with ⟨-, heq⟩ | ⟨hlarge, -⟩
  · rw [heq, List.mem_singleton] at hbyte
    have hval : b.toNat = ch.val.toNat := by
      rw [hbyte, UInt8.toNat_ofNat']
      exact Nat.mod_eq_of_lt (by omega)
    have hlow : 32 ≤ b := by
      rw [UInt8.le_iff_toNat_le, hval]
      exact hbounds.1
    have hne : b ≠ 127 := by
      intro heq
      rw [heq] at hval
      have h127 : (127 : UInt8).toNat = 127 := rfl
      omega
    rw [decide_eq_true hlow, decide_eq_true hne]
    rfl
  · omega

theorem isFieldText_contentRange (size : ℕ) (range : Range.ByteRange) :
    isFieldText (contentRange size range) = true := by
  have hdigits : ∀ n, ∀ ch ∈ decimal n, 32 ≤ ch.toNat ∧ ch.toNat < 127 := by
    intro n ch hch
    have hdigit : 48 ≤ ch.toNat ∧ ch.toNat ≤ 57 := by
      simpa [Char.isDigit, UInt32.le_iff_toNat_le] using isDigit_of_mem_decimal hch
    omega
  have hunit : ("bytes ".toList.all fun ch => 32 ≤ ch.toNat ∧ ch.toNat < 127) = true := by decide
  refine isFieldText_ascii fun ch hch => ?_
  unfold contentRange at hch
  simp only [List.mem_append, List.mem_cons] at hch
  rcases hch with hch | hch | rfl | hch | rfl | hch
  · exact of_decide_eq_true (List.all_eq_true.mp hunit ch hch)
  · exact hdigits _ ch hch
  · decide
  · exact hdigits _ ch hch
  · decide
  · exact hdigits _ ch hch

/-- What the source gives of a range is the range. -/
theorem bodyOf_exact {inner : Reads.Source σ ε} (hserved : Served c nanos inner rest content) {start length : ℕ}
    {body : Streamed ε} (h : bodyOf inner c method start length = .ok body) :
    (decide (method = .head) = false → body.Delivers ((content.drop start).take length)) ∧
      (decide (method = .head) = true → body = ([], .ok ())) := by
  unfold bodyOf at h
  split at h
  · next hhead =>
    cases h
    exact ⟨fun hget => absurd hhead (of_decide_eq_false hget), fun _ => rfl⟩
  · next hget =>
    exact ⟨fun _ => stream_delivers hserved.holds hserved.provides h,
      fun hhead => absurd (of_decide_eq_true hhead) hget⟩

/-- What is put in at the end leaves the fields of the content alone. -/
theorem finished {answered : Headers} {name : Field} (haccept : name ≠ .acceptRanges) (hetag : name ≠ .etag)
    (hmodified : name ≠ .lastModified) :
    withBase fmtDate c (answered.insert .acceptRanges "bytes".toList) name = answered name :=
  (withBase_other fmtDate c hetag hmodified).trans (Function.update_of_ne haccept _ _)

theorem set_self {answered : Headers} {name : Field} {value : List Char} (h : isFieldText value = true) :
    set answered name value name = some value := by
  unfold set
  rw [if_pos h]
  exact Function.update_self _ _ _

theorem answer_says {inner : Reads.Source σ ε} (hserved : Served c nanos inner rest content)
    {kind : List Char} (hkind : kind.length < 2 ^ 32) {ranges : List Range.ByteRange} (hfew : ranges.length ≤ 64)
    (hwithin : ∀ range ∈ ranges, Within c.size range) :
    Says content ranges (method = .head) (answer inner fmtDate c method nanos kind ranges) := by
  have hsize := hserved.size
  rw [← hsize] at hwithin
  match ranges with
  | [] =>
    unfold answer
    simp only
    cases hbody : bodyOf inner c method 0 c.size with
    | error e =>
      have hstatus : (500 : ℕ) ≠ 200 ∧ (500 : ℕ) ≠ 206 := by decide
      exact Says.nothing hstatus.1 hstatus.2
    | ok body =>
      obtain ⟨hdelivers, hsilent⟩ := bodyOf_exact c method nanos hserved hbody
      rw [← hsize, List.drop_zero, List.take_length] at hdelivers
      refine Says.whole rfl ?_ ⟨?_, hdelivers, hsilent⟩
      · refine (finished fmtDate c (by decide) (by decide) (by decide)).trans ?_
        exact (Function.update_of_ne (by decide) _ _).trans (set_other (by decide))
      · refine (finished fmtDate c (by decide) (by decide) (by decide)).trans ?_
        rw [hsize]
        exact Function.update_self _ _ _
  | [range] =>
    have hrange := hwithin range (List.mem_singleton_self range)
    unfold answer
    simp only
    cases hbody : bodyOf inner c method range.start range.len with
    | error e =>
      have hstatus : (416 : ℕ) ≠ 200 ∧ (416 : ℕ) ≠ 206 := by decide
      exact Says.nothing hstatus.1 hstatus.2
    | ok body =>
      obtain ⟨hdelivers, hsilent⟩ := bodyOf_exact c method nanos hserved hbody
      refine Says.part rfl hrange rfl ?_ ⟨?_, hdelivers, hsilent⟩
      · refine (finished fmtDate c (by decide) (by decide) (by decide)).trans ?_
        rw [hsize]
        exact set_self (isFieldText_contentRange c.size range)
      · refine (finished fmtDate c (by decide) (by decide) (by decide)).trans ?_
        refine (set_other (by decide)).trans ?_
        rw [length_slice hrange]
        exact Function.update_self _ _ _
  | first :: second :: more =>
    have hboundary := length_hexBoundary hserved.clock
    have hmodest : Modest (hexBoundary nanos) kind content (first :: second :: more) :=
      ⟨hboundary.le, hkind, hsize ▸ hserved.small, hfew, hwithin⟩
    have hexact := response_exact hmodest
      (fun range _ => part_delivers hserved.holds hserved.provides range) (method = .head)
    rw [hsize] at hexact
    refine Says.parts (by simp) hwithin rfl hboundary ?_ ⟨?_, hexact.delivered, hexact.silent⟩
    · refine (finished fmtDate c (by decide) (by decide) (by decide)).trans ?_
      exact response_contentType _ _ _ _ _ _
    · exact (finished fmtDate c (by decide) (by decide) (by decide)).trans hexact.declared

/-- What is asked for lies in the content, or nothing is. -/
theorem wanted_within {range : Option Bytes} {ranges : List Range.ByteRange}
    (h : wanted c range = .ranges ranges) :
    ranges.length ≤ 64 ∧ (∀ r ∈ ranges, Within c.size r) ∧
      (ranges ≠ [] → ∃ value, range = some value ∧ Range.parse (rangeText value) c.size = .ok ranges) := by
  have hnone : ∀ {ranges : List Range.ByteRange}, Wanted.ranges [] = .ranges ranges →
      ranges.length ≤ 64 ∧ (∀ r ∈ ranges, Within c.size r) ∧
      (ranges ≠ [] → ∃ value, range = some value ∧ Range.parse (rangeText value) c.size = .ok ranges) := by
    intro ranges heq
    cases heq
    exact ⟨Nat.zero_le 64, fun r hr => absurd hr List.not_mem_nil, fun hne => absurd rfl hne⟩
  unfold wanted at h
  split at h
  · exact hnone h
  · next parsed hparsed =>
    split at h
    · exact hnone h
    · cases h
      obtain ⟨value, hvalue, hparse⟩ := Option.map_eq_some_iff.mp hparsed
      obtain ⟨-, hfew, hwithin⟩ := within_of_parse hparse
      exact ⟨hfew, hwithin, fun _ => ⟨value, hvalue, hparse⟩⟩
  · split at h
    · exact hnone h
    · cases h
  · cases h

/-- Whatever is asked, what is answered is exact: the content, a range of it or several, with the length
that is declared; or an answer without content. -/
theorem serve_exact {inner : Reads.Source σ ε} (hserved : Served c nanos inner rest content)
    (hkind : ∀ kind, typeOf inner guess c = .ok kind → kind.length < 2 ^ 32) :
    ∃ ranges, Says content ranges (method = .head) (serve inner dates fmtDate guess c method headers nanos) ∧
      (ranges ≠ [] → ∃ value, Conditional.preconditions dates method headers ⟨c.modified, c.etag.map encode⟩ =
        .proceed (some value) ∧ Range.parse (rangeText value) c.size = .ok ranges) := by
  have hnothing : ∀ {answered : Response ε} (status : ℕ), answered.status = status →
      status ≠ 200 ∧ status ≠ 206 → ∃ ranges, Says content ranges (method = .head) answered ∧
        (ranges ≠ [] → ∃ value, Conditional.preconditions dates method headers ⟨c.modified, c.etag.map encode⟩ =
          .proceed (some value) ∧ Range.parse (rangeText value) c.size = .ok ranges) :=
    fun status heq hstatus => ⟨[], Says.nothing (heq ▸ hstatus.1) (heq ▸ hstatus.2), fun hne => absurd rfl hne⟩
  unfold serve
  split
  · exact hnothing 412 rfl (by decide)
  · exact hnothing 304 rfl (by decide)
  · next range hpre =>
    cases htype : typeOf inner guess c with
    | error e => exact hnothing 500 rfl (by decide)
    | ok kind =>
      simp only
      cases hwanted : wanted c range with
      | unsatisfiable => exact hnothing 416 rfl (by decide)
      | invalid => exact hnothing 416 rfl (by decide)
      | ranges ranges =>
        obtain ⟨hfew, hwithin, hparse⟩ := wanted_within c hwanted
        refine ⟨ranges, answer_says fmtDate c method nanos hserved (hkind kind htype) hfew hwithin, fun hne => ?_⟩
        obtain ⟨value, rfl, hvalue⟩ := hparse hne
        exact ⟨value, hpre, hvalue⟩

/-- Two ranges of a text in memory. -/
theorem serve_exact_two_ranges :
    let c : Content Unit Unit :=
      ⟨.memory [1, 2, 3, 4], 4, [], some "text/plain".toList, none, some "\"a\"".toList⟩
    let headers : HeaderMap := fun name => if name = .range then [encode "bytes=0-0,2-3".toList] else []
    let served : Response Unit := serve ⟨fun _ _ => .error ()⟩ Conditional.noDates (fun _ => []) (fun _ => none) c
      .get headers 7
    ∃ ranges, Says [1, 2, 3, 4] ranges false served ∧ (ranges ≠ [] → ∃ value,
      Conditional.preconditions Conditional.noDates .get headers ⟨none, some (encode "\"a\"".toList)⟩ =
        .proceed (some value) ∧ Range.parse (rangeText value) 4 = .ok ranges) := by
  intro c headers served
  have hholds : Holds (⟨fun _ _ => .error ()⟩ : Reads.Source Unit Unit) fun _ => [] := by
    constructor
    · intro s s' n bytes h
      cases h
    · intro s s' n bytes h
      cases h
    · intro s s' n h
      cases h
  have hkind : ∀ kind, typeOf (⟨fun _ _ => .error ()⟩ : Reads.Source Unit Unit) (fun _ => none) c = .ok kind →
      kind.length < 2 ^ 32 := by
    intro kind h
    cases h
    decide
  exact serve_exact Conditional.noDates (fun _ => []) (fun _ => none) c .get headers 7
    ⟨hholds, rfl, rfl, by decide, by decide⟩ hkind

theorem preconditions_head (content : Conditional.Content) :
    Conditional.preconditions dates .head headers content =
      Conditional.preconditions dates .get headers content := by
  unfold Conditional.preconditions Conditional.proceed
  rfl

/-- Where what is asked for can be opened, the head is answered as the content is, without the body. -/
theorem serve_head {inner : Reads.Source σ ε} (hopens : ∀ start length, ∃ h, c.source.reader start length = .ok h) :
    (serve inner dates fmtDate guess c .head headers nanos).status =
        (serve inner dates fmtDate guess c .get headers nanos).status ∧
      (serve inner dates fmtDate guess c .head headers nanos).headers =
        (serve inner dates fmtDate guess c .get headers nanos).headers := by
  have hhead : ∀ start length, bodyOf inner c .head start length = .ok ([], .ok ()) := fun _ _ => if_pos rfl
  have hbody : ∀ start length, ∃ body, bodyOf inner c .get start length = .ok body := by
    intro start length
    obtain ⟨h, hopen⟩ := hopens start length
    refine ⟨drain (handles inner) 4096 (length + 1) h, ?_⟩
    unfold bodyOf Source.stream
    rw [if_neg (by decide), hopen]
    rfl
  have hanswer : ∀ kind ranges, (answer inner fmtDate c .head nanos kind ranges).status =
        (answer inner fmtDate c .get nanos kind ranges).status ∧
      (answer inner fmtDate c .head nanos kind ranges).headers =
        (answer inner fmtDate c .get nanos kind ranges).headers := by
    intro kind ranges
    match ranges with
    | [] =>
      obtain ⟨body, hget⟩ := hbody 0 c.size
      unfold answer
      simp only [hget, hhead, and_self]
    | [range] =>
      obtain ⟨body, hget⟩ := hbody range.start range.len
      unfold answer
      simp only [hget, hhead, and_self]
    | first :: second :: more => exact ⟨rfl, rfl⟩
  unfold serve
  rw [preconditions_head]
  split
  · exact ⟨rfl, rfl⟩
  · exact ⟨rfl, rfl⟩
  · next range _ =>
    cases typeOf inner guess c with
    | error e => exact ⟨rfl, rfl⟩
    | ok kind =>
      cases wanted c range with
      | unsatisfiable => exact ⟨rfl, rfl⟩
      | invalid => exact ⟨rfl, rfl⟩
      | ranges ranges => exact hanswer kind ranges

end exactness

end Rustorr.ServeContent
