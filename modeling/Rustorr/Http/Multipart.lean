import Mathlib.Algebra.Order.BigOperators.Group.List
import Mathlib.Algebra.GroupWithZero.Nat
import Rustorr.Domain
import Rustorr.Http.Range
import Rustorr.Lib.Reads

/-! `multipart/byteranges`: the three writers of it (`app.rs`, `serve_content.rs`, `web_api.rs`), the length
they declare before the body is there, and what a receiver reads out of the body. -/

namespace Rustorr.Multipart

open Reads Text Utf8

variable {ε : Type}

/-! ### Responses -/

/-- The fields of the answers that carry content. -/
inductive Field
  | contentType
  | contentLength
  | contentRange
  | acceptRanges
  | etag
  | lastModified
  | connection
  | server
  | streamTimeout
  | transferMode
  | contentFeatures
  | contentTypeOptions
  deriving DecidableEq

abbrev Headers := Field → Option (List Char)

namespace Headers

def insert (headers : Headers) (name : Field) (value : List Char) : Headers :=
  Function.update headers name (some value)

def remove (headers : Headers) (name : Field) : Headers := Function.update headers name none

end Headers

structure Response (ε : Type) where
  status : ℕ
  headers : Headers := fun _ => none
  body : Streamed ε := ([], .ok ())

/-! ### The frames -/

def crlf : List Char := ['\r', '\n']

/-- The `Content-Range` of a range, as all three writers format it. -/
def contentRange (size : ℕ) (range : Range.ByteRange) : List Char :=
  "bytes ".toList ++ (decimal range.start ++ '-' :: (decimal range.end_ ++ '/' :: decimal size))

/-- What stands before the bytes of a part. -/
def head (boundary mime : List Char) (size : ℕ) (range : Range.ByteRange) : List Char :=
  "--".toList ++ (boundary ++ (crlf ++ ("Content-Range: ".toList ++ (contentRange size range ++
    (crlf ++ ("Content-Type: ".toList ++ (mime ++ (crlf ++ crlf))))))))

def closing (boundary : List Char) : List Char := "--".toList ++ (boundary ++ ("--".toList ++ crlf))

/-- The declared length, which is added up in 64 bits. -/
def contentLength (boundary mime : List Char) (size : ℕ) (ranges : List Range.ByteRange) : ℕ :=
  ((ranges.map fun range => (encode (head boundary mime size range)).length + range.len + 2).sum +
    (encode (closing boundary)).length) % 2 ^ 64

/-- The stream of the parts: for each range its head, what is read of it, and a line break. -/
def body (boundary mime : List Char) (size : ℕ) (part : Range.ByteRange → Streamed ε) :
    List Range.ByteRange → Streamed ε
  | [] => .piece (encode (closing boundary))
  | range :: ranges =>
    (Streamed.piece (encode (head boundary mime size range))).append
      ((part range).append ((Streamed.piece (encode crlf)).append (body boundary mime size part ranges)))

def contentType (boundary : List Char) : List Char := "multipart/byteranges; boundary=".toList ++ boundary

/-- An answer of several parts; without its body where only the head is asked for. -/
def response (boundary mime : List Char) (size : ℕ) (ranges : List Range.ByteRange) (part : Range.ByteRange → Streamed ε)
    (isHead : Bool) : Response ε where
  status := 206
  headers := Headers.insert (Headers.insert (fun _ => none) .contentType (contentType boundary)) .contentLength
    (decimal (contentLength boundary mime size ranges))
  body := if isHead then ([], .ok ()) else body boundary mime size part ranges

theorem response_contentType (boundary mime : List Char) (size : ℕ) (ranges : List Range.ByteRange)
    (part : Range.ByteRange → Streamed ε) (isHead : Bool) :
    (response boundary mime size ranges part isHead).headers .contentType = some (contentType boundary) := by
  have hne : Field.contentType ≠ .contentLength := by decide
  unfold response Headers.insert
  simp only [Function.update_of_ne hne, Function.update_self]

/-! ### The writers -/

def leftPad (width : ℕ) (digits : List Char) : List Char := List.replicate (width - digits.length) '0' ++ digits

/-- `{hash}{index:020}`. -/
def playbackBoundary (hash : InfoHash) (index : ℕ) : List Char := hash.toText ++ leftPad 20 (decimal index)

/-- `{:060x}`, of the clock or of the length. -/
def hexBoundary (n : ℕ) : List Char := leftPad 60 (Nat.toDigits 16 n)

variable {σ : Type} (source : Source σ ε)

/-- What a reader gives of a part: up to so many bytes, in pieces that a buffer of 32 KiB takes. -/
def copied (opened : Except ε (σ × ℕ)) : Streamed ε :=
  match opened with
  | .error e => .failed e
  | .ok (s, limit) => drain source.take (32 * 1024) (limit + 1) (s, limit)

/-- `multipart_response`: each part is a playback of its own, from its first byte to its last. -/
def multipartResponse (playback : ℕ → ℕ → Except ε σ) (hash : InfoHash) (index fullLength : ℕ)
    (mime : List Char) (ranges : List Range.ByteRange) (isHead : Bool) : Response ε :=
  response (playbackBoundary hash index) mime fullLength ranges
    (fun range => copied source ((playback range.start range.end_).map fun s => (s, range.len))) isHead

/-- `zero_stream`: zeros in pieces of 64 KiB at most. -/
def zeroPieces (remaining : ℕ) : List (List UInt8) :=
  if remaining = 0 then []
  else List.replicate (min remaining (64 * 1024)) 0 :: zeroPieces (remaining - min remaining (64 * 1024))
termination_by remaining

def zeroStream (remaining : ℕ) : Streamed ε := (zeroPieces remaining, .ok ())

/-- `multipart_zeros`, which answers every method alike. -/
def multipartZeros (ranges : List Range.ByteRange) (length : ℕ) : Response ε :=
  response (hexBoundary length) "application/octet-stream".toList length ranges
    (fun range => zeroStream range.len) false

/-! ### What is to be sent -/

/-- The bytes of a range. -/
def slice (content : List UInt8) (range : Range.ByteRange) : List UInt8 := (content.drop range.start).take range.len

/-- All the bytes of the body. -/
def exact (boundary mime : List Char) (content : List UInt8) (ranges : List Range.ByteRange) : List UInt8 :=
  (ranges.flatMap fun range =>
    encode (head boundary mime content.length range) ++ (slice content range ++ encode crlf)) ++
  encode (closing boundary)

theorem exact_cons (boundary mime : List Char) (content : List UInt8) (range : Range.ByteRange)
    (ranges : List Range.ByteRange) :
    exact boundary mime content (range :: ranges) =
      encode (head boundary mime content.length range) ++
        (slice content range ++ (encode crlf ++ exact boundary mime content ranges)) := by
  unfold exact
  rw [List.flatMap_cons]
  simp only [List.append_assoc]

/-- Where each part delivers its bytes, so does the body. -/
theorem body_delivers (boundary mime : List Char) (content : List UInt8) {part : Range.ByteRange → Streamed ε}
    {ranges : List Range.ByteRange} (h : ∀ range ∈ ranges, (part range).Delivers (slice content range)) :
    (body boundary mime content.length part ranges).Delivers (exact boundary mime content ranges) := by
  induction ranges with
  | nil => exact Streamed.delivers_piece _
  | cons range ranges ih =>
    have hfirst := h range List.mem_cons_self
    have hrest := ih fun r hr => h r (List.mem_cons_of_mem _ hr)
    rw [exact_cons]
    exact (Streamed.delivers_piece _).append (hfirst.append ((Streamed.delivers_piece _).append hrest))

theorem zeroPieces_flatten (remaining : ℕ) : (zeroPieces remaining).flatten = List.replicate remaining 0 := by
  induction remaining using Nat.strong_induction_on with
  | _ n ih =>
    unfold zeroPieces
    split
    · next hzero =>
      rw [hzero]
      rfl
    · next hpos =>
      rw [List.flatten_cons, ih _ (by omega), List.replicate_append_replicate]
      congr 1
      omega

/-! ### The declared length -/

/-- A range that lies in the content. -/
def Within (length : ℕ) (range : Range.ByteRange) : Prop := range.start ≤ range.end_ ∧ range.end_ < length

theorem length_slice {content : List UInt8} {range : Range.ByteRange} (h : Within content.length range) :
    (slice content range).length = range.len := by
  obtain ⟨hle, hlt⟩ := h
  unfold slice Range.ByteRange.len
  rw [List.length_take, List.length_drop]
  omega

theorem length_exact (boundary mime : List Char) {content : List UInt8} {ranges : List Range.ByteRange}
    (h : ∀ range ∈ ranges, Within content.length range) :
    (exact boundary mime content ranges).length =
      (ranges.map fun range =>
        (encode (head boundary mime content.length range)).length + range.len + 2).sum +
      (encode (closing boundary)).length := by
  induction ranges with
  | nil => exact (Nat.zero_add _).symm
  | cons range ranges ih =>
    have hcrlf : (encode crlf).length = 2 := by decide
    rw [exact_cons, List.length_append, List.length_append, List.length_append,
      length_slice (h range List.mem_cons_self), ih fun r hr => h r (List.mem_cons_of_mem _ hr), hcrlf,
      List.map_cons, List.sum_cons]
    omega

theorem length_decimal_le {n : ℕ} (h : n < 2 ^ 64) : (decimal n).length ≤ 20 := by
  refine (Nat.length_toDigits_le_iff (by decide) (by decide)).mpr ?_
  omega

theorem length_encode_le (s : List Char) : (encode s).length ≤ 4 * s.length := by
  induction s with
  | nil => exact Nat.zero_le _
  | cons c s ih =>
    have hsplit : encode (c :: s) = String.utf8EncodeChar c ++ encode s := List.flatMap_cons
    have hchar : (String.utf8EncodeChar c).length ≤ 4 := by
      rw [String.length_utf8EncodeChar]
      exact Char.utf8Size_le_four c
    rw [hsplit, List.length_append, List.length_cons]
    omega

theorem length_head_le {boundary mime : List Char} {size : ℕ} {range : Range.ByteRange} (hsize : size < 2 ^ 64)
    (h : Within size range) : (head boundary mime size range).length ≤ boundary.length + mime.length + 110 := by
  have hstart := length_decimal_le (n := range.start) (by obtain ⟨hle, hlt⟩ := h; omega)
  have hend := length_decimal_le (n := range.end_) (by obtain ⟨hle, hlt⟩ := h; omega)
  have hall := length_decimal_le hsize
  unfold head contentRange crlf
  simp only [List.length_append, List.length_cons, List.length_nil]
  have h₁ : "--".toList.length = 2 := rfl
  have h₂ : "Content-Range: ".toList.length = 15 := rfl
  have h₃ : "Content-Type: ".toList.length = 14 := rfl
  have h₄ : "bytes ".toList.length = 6 := rfl
  omega

/-- What a request may ask for: at most 64 ranges of a file that is not too large. -/
structure Modest (boundary mime : List Char) (content : List UInt8) (ranges : List Range.ByteRange) : Prop where
  boundary_le : boundary.length ≤ 60
  mime_lt : mime.length < 2 ^ 32
  content_lt : content.length < 2 ^ 56
  few : ranges.length ≤ 64
  within : ∀ range ∈ ranges, Within content.length range

/-- The length that is declared is the length of what is to be sent. -/
theorem contentLength_eq {boundary mime : List Char} {content : List UInt8} {ranges : List Range.ByteRange}
    (h : Modest boundary mime content ranges) :
    contentLength boundary mime content.length ranges = (exact boundary mime content ranges).length := by
  obtain ⟨hboundary, hmime, hcontent, hfew, hwithin⟩ := h
  have hparts : (ranges.map fun range =>
      (encode (head boundary mime content.length range)).length + range.len + 2).sum ≤
        ranges.length * (2 ^ 56 + 2 ^ 35) := by
    have hsum := List.sum_le_card_nsmul (ranges.map fun range =>
      (encode (head boundary mime content.length range)).length + range.len + 2) (2 ^ 56 + 2 ^ 35) ?_
    · rw [List.length_map] at hsum
      exact hsum
    · intro n hn
      obtain ⟨range, hrange, rfl⟩ := List.mem_map.mp hn
      have hhead := @length_head_le boundary mime content.length range (by omega) (hwithin range hrange)
      have hencoded := length_encode_le (head boundary mime content.length range)
      obtain ⟨hle, hlt⟩ := hwithin range hrange
      unfold Range.ByteRange.len
      omega
  have hclosing : (encode (closing boundary)).length ≤ 4 * 66 := by
    refine (length_encode_le _).trans (Nat.mul_le_mul_left 4 ?_)
    unfold closing crlf
    simp only [List.length_append, List.length_cons, List.length_nil]
    have h₁ : "--".toList.length = 2 := rfl
    omega
  rw [length_exact boundary mime hwithin]
  unfold contentLength
  refine Nat.mod_eq_of_lt ?_
  have hmul : ranges.length * (2 ^ 56 + 2 ^ 35) ≤ 64 * (2 ^ 56 + 2 ^ 35) := Nat.mul_le_mul_right _ hfew
  omega

theorem length_leftPad {width : ℕ} {digits : List Char} (h : digits.length ≤ width) :
    (leftPad width digits).length = width := by
  unfold leftPad
  rw [List.length_append, List.length_replicate]
  omega

/-- The boundaries are 60 characters long. -/
theorem length_playbackBoundary (hash : InfoHash) {index : ℕ} (h : index < 2 ^ 32) :
    (playbackBoundary hash index).length = 60 := by
  unfold playbackBoundary
  rw [List.length_append, InfoHash.length_toText, length_leftPad (length_decimal_le (by omega))]
  rfl

theorem length_hexBoundary {n : ℕ} (h : n < 2 ^ 128) : (hexBoundary n).length = 60 := by
  unfold hexBoundary
  refine length_leftPad ((Nat.length_toDigits_le_iff (by decide) (by decide)).mpr ?_)
  omega

/-! ### A receiver -/

/-- A part as it is received. -/
structure Part where
  start : ℕ
  end_ : ℕ
  size : ℕ
  kind : List Char
  data : List UInt8
  deriving DecidableEq

def stripPrefix (mark bytes : List UInt8) : Option (List UInt8) :=
  if mark <+: bytes then some (bytes.drop mark.length) else none

/-- A line, which a carriage return and a line feed end. -/
def line (bytes : List UInt8) : Option (List Char × List UInt8) := do
  let rest ← stripPrefix [13, 10] (bytes.dropWhile (· ≠ 13))
  let text ← decode (bytes.takeWhile (· ≠ 13))
  some (text, rest)

/-- The value of a field of a part. -/
def fieldValue (name text : List Char) : Option (List Char) :=
  if name <+: text then some (text.drop name.length) else none

def rangeOf (value : List Char) : Option (ℕ × ℕ × ℕ) := do
  let value ← fieldValue "bytes ".toList value
  let (start, rest) ← splitOnce '-' value
  let (end_, size) ← splitOnce '/' rest
  some ((← parseU64 start).val, (← parseU64 end_).val, (← parseU64 size).val)

/-- Reads a body of at most so many parts, each as long as its `Content-Range` says. -/
def receive (boundary : List Char) : ℕ → List UInt8 → Option (List Part)
  | 0, _ => none
  | more + 1, bytes => do
    let bytes ← stripPrefix (encode ("--".toList ++ boundary)) bytes
    if bytes = encode ("--".toList ++ crlf) then some []
    else do
      let bytes ← stripPrefix [13, 10] bytes
      let (range, bytes) ← line bytes
      let (kind, bytes) ← line bytes
      let bytes ← stripPrefix [13, 10] bytes
      let (start, end_, size) ← rangeOf (← fieldValue "Content-Range: ".toList range)
      let kind ← fieldValue "Content-Type: ".toList kind
      let bytes' ← stripPrefix [13, 10] (bytes.drop (end_ - start + 1))
      let parts ← receive boundary more bytes'
      some (⟨start, end_, size, kind, bytes.take (end_ - start + 1)⟩ :: parts)

theorem stripPrefix_append (mark bytes : List UInt8) : stripPrefix mark (mark ++ bytes) = some bytes := by
  unfold stripPrefix
  rw [if_pos (List.prefix_append mark bytes), List.drop_left]

theorem fieldValue_append (name text : List Char) : fieldValue name (name ++ text) = some text := by
  unfold fieldValue
  rw [if_pos (List.prefix_append name text), List.drop_left]

theorem notMem_encode {text : List Char} (h : '\r' ∉ text) : (13 : UInt8) ∉ encode text := by
  intro hmem
  exact h (mem_encode_of_ascii (by decide) hmem)

theorem line_append {text : List Char} (h : '\r' ∉ text) (bytes : List UInt8) :
    line (encode text ++ ([13, 10] ++ bytes)) = some (text, bytes) := by
  have hall : ∀ b ∈ encode text, decide (b ≠ 13) = true := by
    intro b hb
    refine decide_eq_true fun heq => ?_
    subst heq
    exact notMem_encode h hb
  unfold line
  rw [List.takeWhile_append_of_pos hall, List.dropWhile_append_of_pos hall]
  have hstop : ([13, 10] ++ bytes).dropWhile (fun b => decide (b ≠ 13)) = [13, 10] ++ bytes := rfl
  have hnone : ([13, 10] ++ bytes).takeWhile (fun b => decide (b ≠ 13)) = [] := rfl
  simp only [hstop, hnone, stripPrefix_append, List.append_nil, decode_encode, Option.bind_eq_bind, Option.bind_some]

theorem rangeOf_contentRange {size : ℕ} {range : Range.ByteRange} (hsize : size < 2 ^ 64) (h : Within size range) :
    rangeOf (contentRange size range) = some (range.start, range.end_, size) := by
  obtain ⟨hle, hlt⟩ := h
  have hnumber : ∀ n (hn : n < 2 ^ 64), parseU64 (decimal n) = some ⟨n, hn⟩ := fun n hn => parseU64_decimal ⟨n, hn⟩
  unfold rangeOf contentRange
  simp only [fieldValue_append, splitOnce_append (notMem_decimal (c := '-') (by decide) range.start),
    splitOnce_append (notMem_decimal (c := '/') (by decide) range.end_), hnumber _ (by omega : range.start < 2 ^ 64),
    hnumber _ (by omega : range.end_ < 2 ^ 64), hnumber _ hsize, Option.bind_eq_bind, Option.bind_some]

theorem notMem_contentRange (size : ℕ) (range : Range.ByteRange) :
    '\r' ∉ "Content-Range: ".toList ++ contentRange size range := by
  have hdigits : ∀ n, '\r' ∉ decimal n := fun n => notMem_decimal (by decide) n
  unfold contentRange
  simp only [List.mem_append, List.mem_cons, hdigits, or_false, false_or, not_or]
  decide

/-- What a head begins with, line by line. -/
theorem encode_head (boundary mime : List Char) (size : ℕ) (range : Range.ByteRange) (bytes : List UInt8) :
    encode (head boundary mime size range) ++ bytes =
      encode ("--".toList ++ boundary) ++ ([13, 10] ++
        (encode ("Content-Range: ".toList ++ contentRange size range) ++ ([13, 10] ++
          (encode ("Content-Type: ".toList ++ mime) ++ ([13, 10] ++ ([13, 10] ++ bytes)))))) := by
  have hcrlf : encode crlf = [13, 10] := by decide
  unfold head
  simp only [encode_append, List.append_assoc, hcrlf]

theorem encode_closing (boundary : List Char) :
    encode (closing boundary) = encode ("--".toList ++ boundary) ++ encode ("--".toList ++ crlf) := by
  unfold closing
  simp only [encode_append, List.append_assoc]

/-- What a receiver reads out of the body: every range that was asked for, in order, with its bytes. -/
theorem receive_exact {boundary mime : List Char} {content : List UInt8} {ranges : List Range.ByteRange}
    (hmime : '\r' ∉ mime) (hsize : content.length < 2 ^ 64)
    (h : ∀ range ∈ ranges, Within content.length range) {rounds : ℕ} (hrounds : ranges.length < rounds) :
    receive boundary rounds (exact boundary mime content ranges) =
      some (ranges.map fun range => ⟨range.start, range.end_, content.length, mime, slice content range⟩) := by
  induction ranges generalizing rounds with
  | nil =>
    obtain ⟨more, rfl⟩ := Nat.exists_eq_succ_of_ne_zero (Nat.ne_of_gt hrounds)
    unfold receive
    have hall : exact boundary mime content [] =
        encode ("--".toList ++ boundary) ++ encode ("--".toList ++ crlf) := encode_closing boundary
    rw [hall, stripPrefix_append]
    rfl
  | cons range ranges ih =>
    obtain ⟨more, rfl⟩ := Nat.exists_eq_succ_of_ne_zero (Nat.ne_of_gt (Nat.zero_lt_of_lt hrounds))
    have hwithin := h range List.mem_cons_self
    have hlength := length_slice hwithin
    have hrest := @ih (fun r hr => h r (List.mem_cons_of_mem _ hr)) more
      (Nat.lt_of_succ_lt_succ hrounds)
    have hcrlf : encode crlf = [13, 10] := by decide
    have hkind : '\r' ∉ "Content-Type: ".toList ++ mime := by
      simp only [List.mem_append, hmime, or_false]
      decide
    have hopen : ∀ bytes : List UInt8, [13, 10] ++ bytes ≠ encode ("--".toList ++ crlf) := by
      intro bytes heq
      have hfirst : some (13 : UInt8) = (encode ("--".toList ++ crlf)).head? := congrArg List.head? heq
      exact absurd hfirst (by decide)
    have hdata : ∀ bytes : List UInt8, (slice content range ++ bytes).take (range.end_ - range.start + 1) =
        slice content range ∧ (slice content range ++ bytes).drop (range.end_ - range.start + 1) = bytes := by
      intro bytes
      have heq : range.end_ - range.start + 1 = (slice content range).length := by
        rw [hlength]
        rfl
      rw [heq, List.take_left, List.drop_left]
      exact ⟨rfl, rfl⟩
    rw [exact_cons, hcrlf, encode_head]
    unfold receive
    simp only [stripPrefix_append, if_neg (hopen _), line_append (notMem_contentRange content.length range),
      line_append hkind, fieldValue_append, rangeOf_contentRange hsize hwithin, (hdata _).1, (hdata _).2,
      hrest, Option.bind_eq_bind, Option.bind_some, List.map_cons]

/-! ### Bodies that break off -/

theorem stripPrefix_eq_some {mark bytes left : List UInt8} (h : stripPrefix mark bytes = some left) :
    bytes = mark ++ left := by
  unfold stripPrefix at h
  split at h
  · next hpart =>
    obtain ⟨more, rfl⟩ := hpart
    rw [List.drop_left] at h
    rw [Option.some.inj h]
  · cases h

/-- What is stripped off the start of a text is the start of it. -/
theorem stripPrefix_prefix {mark bytes left all : List UInt8} (h : stripPrefix mark bytes = some left)
    (hpart : bytes <+: mark ++ all) : bytes = mark ++ left ∧ left <+: all := by
  obtain rfl := stripPrefix_eq_some h
  exact ⟨rfl, (List.prefix_append_right_inj mark).mp hpart⟩

/-- A line that is read from the start of a text is the first line of it. -/
theorem line_prefix {text text' : List Char} (htext : '\r' ∉ text) {bytes left all : List UInt8}
    (h : line bytes = some (text', left)) (hpart : bytes <+: encode text ++ ([13, 10] ++ all)) :
    text' = text ∧ bytes = encode text ++ ([13, 10] ++ left) ∧ left <+: all := by
  obtain ⟨left', hstrip, h⟩ := Option.bind_eq_some_iff.mp h
  obtain ⟨text'', hdecode, h⟩ := Option.bind_eq_some_iff.mp h
  cases h
  have hsplit : bytes = bytes.takeWhile (· ≠ 13) ++ ([13, 10] ++ left) := by
    rw [← stripPrefix_eq_some hstrip, List.takeWhile_append_dropWhile]
  -- up to the first carriage return both are the same
  have hfirst : bytes.takeWhile (· ≠ 13) = encode text := by
    obtain ⟨more, hmore⟩ := hpart
    have hcongr := congrArg (List.takeWhile fun b : UInt8 => decide (b ≠ 13)) hmore
    have hleft : (bytes ++ more).takeWhile (fun b => decide (b ≠ 13)) = bytes.takeWhile (· ≠ 13) := by
      conv_lhs => rw [hsplit, List.append_assoc]
      rw [List.takeWhile_append_of_pos]
      · exact List.append_nil _
      · intro b hb
        have hne := List.mem_takeWhile_imp hb
        exact hne
    have hright : (encode text ++ ([13, 10] ++ all)).takeWhile (fun b => decide (b ≠ 13)) = encode text := by
      rw [List.takeWhile_append_of_pos]
      · exact List.append_nil _
      · intro b hb
        refine decide_eq_true fun heq => ?_
        exact notMem_encode htext (heq ▸ hb)
    rw [hleft, hright] at hcongr
    exact hcongr
  rw [hfirst] at hdecode hsplit
  rw [decode_encode] at hdecode
  rw [hsplit, List.prefix_append_right_inj, List.prefix_append_right_inj] at hpart
  exact ⟨(Option.some.inj hdecode).symm, hsplit, hpart⟩

/-- What a receiver found in a body of which it made something. -/
theorem receive_cases {boundary : List Char} {more : ℕ} {bytes : List UInt8} {parts : List Part}
    (h : receive boundary (more + 1) bytes = some parts) :
    ∃ after, stripPrefix (encode ("--".toList ++ boundary)) bytes = some after ∧
      ((after = encode ("--".toList ++ crlf) ∧ parts = []) ∨
        ∃ first range second kind third data start end_ size value value' next rest,
          stripPrefix [13, 10] after = some first ∧ line first = some (range, second) ∧
          line second = some (kind, third) ∧ stripPrefix [13, 10] third = some data ∧
          fieldValue "Content-Range: ".toList range = some value ∧ rangeOf value = some (start, end_, size) ∧
          fieldValue "Content-Type: ".toList kind = some value' ∧
          stripPrefix [13, 10] (data.drop (end_ - start + 1)) = some next ∧
          receive boundary more next = some rest ∧
          parts = ⟨start, end_, size, value', data.take (end_ - start + 1)⟩ :: rest) := by
  unfold receive at h
  obtain ⟨after, hafter, h⟩ := Option.bind_eq_some_iff.mp h
  refine ⟨after, hafter, ?_⟩
  split at h
  · next hend =>
    cases h
    exact Or.inl ⟨hend, rfl⟩
  · obtain ⟨first, hfirst, h⟩ := Option.bind_eq_some_iff.mp h
    obtain ⟨⟨range, second⟩, hrange, h⟩ := Option.bind_eq_some_iff.mp h
    obtain ⟨⟨kind, third⟩, hkind, h⟩ := Option.bind_eq_some_iff.mp h
    obtain ⟨data, hdata, h⟩ := Option.bind_eq_some_iff.mp h
    obtain ⟨value, hvalue, h⟩ := Option.bind_eq_some_iff.mp h
    obtain ⟨⟨start, end_, size⟩, hnumbers, h⟩ := Option.bind_eq_some_iff.mp h
    obtain ⟨value', hvalue', h⟩ := Option.bind_eq_some_iff.mp h
    obtain ⟨next, hnext, h⟩ := Option.bind_eq_some_iff.mp h
    obtain ⟨rest, hrest, h⟩ := Option.bind_eq_some_iff.mp h
    cases h
    exact Or.inr ⟨first, range, second, kind, third, data, start, end_, size, value, value', next, rest, hfirst,
      hrange, hkind, hdata, hvalue, hnumbers, hvalue', hnext, hrest, rfl⟩

/-- The bytes of a part are all there where a line break follows them. -/
theorem data_prefix (part : List UInt8) {data left all : List UInt8}
    (h : stripPrefix [13, 10] (data.drop part.length) = some left) (hpart : data <+: part ++ ([13, 10] ++ all)) :
    data = part ++ ([13, 10] ++ left) ∧ left <+: all := by
  have hdrop := stripPrefix_eq_some h
  have hlength : part.length ≤ data.length := by
    have hlen := congrArg List.length hdrop
    rw [List.length_drop, List.length_append, List.length_cons] at hlen
    omega
  have htake : data.take part.length = part := by
    obtain ⟨more, hmore⟩ := hpart
    have hcongr := congrArg (List.take part.length) hmore
    rwa [List.take_append_of_le_length hlength, List.take_left] at hcongr
  have hsplit : data = part ++ ([13, 10] ++ left) := by
    rw [← hdrop]
    conv_lhs => rw [← List.take_append_drop part.length data, htake]
  rw [hsplit, List.prefix_append_right_inj, List.prefix_append_right_inj] at hpart
  exact ⟨hsplit, hpart⟩

/-- A body of which a receiver makes something, as far as it came, has come as a whole. -/
theorem receive_prefix {boundary mime : List Char} {content : List UInt8} {ranges : List Range.ByteRange}
    (hmime : '\r' ∉ mime) (hsize : content.length < 2 ^ 64)
    (h : ∀ range ∈ ranges, Within content.length range) {rounds : ℕ} {bytes : List UInt8} {parts : List Part}
    (hreceive : receive boundary rounds bytes = some parts)
    (hpart : bytes <+: exact boundary mime content ranges) :
    bytes = exact boundary mime content ranges ∧
      parts = ranges.map fun range => ⟨range.start, range.end_, content.length, mime, slice content range⟩ := by
  have hdashes : ∀ bytes : List UInt8, ¬[13, 10] ++ bytes <+: encode ("--".toList ++ crlf) := by
    intro bytes hpre
    have hfirst : (13 : UInt8) :: (10 :: bytes) <+: 45 :: [45, 13, 10] := hpre
    exact absurd (List.cons_prefix_cons.mp hfirst).1 (by decide)
  induction ranges generalizing rounds bytes parts with
  | nil =>
    obtain _ | more := rounds
    · cases hreceive
    have hall : exact boundary mime content [] =
        encode ("--".toList ++ boundary) ++ encode ("--".toList ++ crlf) := encode_closing boundary
    rw [hall] at hpart ⊢
    obtain ⟨after, hmark, hcases⟩ := receive_cases hreceive
    obtain ⟨rfl, hafter⟩ := stripPrefix_prefix hmark hpart
    obtain ⟨rfl, rfl⟩ | ⟨first, _, _, _, _, _, _, _, _, _, _, _, _, hfirst, -⟩ := hcases
    · exact ⟨rfl, rfl⟩
    · obtain rfl := stripPrefix_eq_some hfirst
      exact absurd hafter (hdashes first)
  | cons range ranges ih =>
    obtain _ | more := rounds
    · cases hreceive
    have hwithin := h range List.mem_cons_self
    have hlength := length_slice hwithin
    have hcrlf : encode crlf = [13, 10] := by decide
    have hkind : '\r' ∉ "Content-Type: ".toList ++ mime := by
      simp only [List.mem_append, hmime, or_false]
      decide
    rw [exact_cons, hcrlf, encode_head] at hpart ⊢
    obtain ⟨after, hmark, hcases⟩ := receive_cases hreceive
    obtain ⟨rfl, hafter⟩ := stripPrefix_prefix hmark hpart
    obtain ⟨rfl, -⟩ | ⟨first, line₁, second, line₂, third, data, start, end_, size, value, value', next, rest,
      hbreak, hline₁, hline₂, hthird, hvalue, hnumbers, hvalue', hnext, hrest, rfl⟩ := hcases
    · -- no part begins as the end does
      have hpre : (45 : UInt8) :: [45, 13, 10] <+: 13 :: _ := hafter
      exact absurd (List.cons_prefix_cons.mp hpre).1 (by decide)
    · obtain ⟨rfl, hfirst⟩ := stripPrefix_prefix hbreak hafter
      obtain ⟨rfl, rfl, hsecond⟩ := line_prefix (notMem_contentRange content.length range) hline₁ hfirst
      obtain ⟨rfl, rfl, hthird'⟩ := line_prefix hkind hline₂ hsecond
      obtain ⟨rfl, hdata⟩ := stripPrefix_prefix hthird hthird'
      rw [fieldValue_append] at hvalue hvalue'
      cases hvalue
      cases hvalue'
      rw [rangeOf_contentRange hsize hwithin] at hnumbers
      cases hnumbers
      have hlen : range.end_ - range.start + 1 = (slice content range).length := hlength.symm
      rw [hlen] at hnext
      obtain ⟨rfl, hnext'⟩ := data_prefix (slice content range) hnext hdata
      obtain ⟨rfl, rfl⟩ := ih (fun r hr => h r (List.mem_cons_of_mem _ hr)) hrest hnext'
      have htake : (slice content range ++ ([13, 10] ++ exact boundary mime content ranges)).take
          (range.end_ - range.start + 1) = slice content range := by
        rw [hlen, List.take_left]
      rw [htake]
      exact ⟨rfl, rfl⟩

/-- The parts of these ranges. -/
def partsOf (mime : List Char) (content : List UInt8) (ranges : List Range.ByteRange) : List Part :=
  ranges.map fun range => ⟨range.start, range.end_, content.length, mime, slice content range⟩

/-- A receiver reads every range that was asked for out of a body that came to its end, and nothing
at all out of one that did not. -/
structure Received (boundary mime : List Char) (content : List UInt8) (ranges : List Range.ByteRange)
    (answered : Response ε) : Prop where
  whole : answered.body.2 = .ok () →
    receive boundary (ranges.length + 1) answered.body.data = some (partsOf mime content ranges)
  only : ∀ rounds parts, receive boundary rounds answered.body.data = some parts →
    parts = partsOf mime content ranges ∧
      answered.headers .contentLength = some (decimal answered.body.data.length)

theorem response_received {boundary mime : List Char} {content : List UInt8} {ranges : List Range.ByteRange}
    {part : Range.ByteRange → Streamed ε} (hmodest : Modest boundary mime content ranges) (hmime : '\r' ∉ mime)
    (hpart : ∀ range ∈ ranges, (part range).Delivers (slice content range)) :
    Received boundary mime content ranges (response boundary mime content.length ranges part false) := by
  have hsize : content.length < 2 ^ 64 := hmodest.content_lt.trans (by decide)
  have hdelivers := body_delivers boundary mime content hpart
  constructor
  · intro hok
    show receive boundary _ (body boundary mime content.length part ranges).data = _
    rw [hdelivers.2 hok]
    exact receive_exact hmime hsize hmodest.within (Nat.lt_succ_self _)
  · intro rounds parts hreceive
    obtain ⟨hall, hparts⟩ := receive_prefix hmime hsize hmodest.within hreceive hdelivers.1
    refine ⟨hparts, ?_⟩
    rw [hall, ← contentLength_eq hmodest]
    rfl

end Rustorr.Multipart
