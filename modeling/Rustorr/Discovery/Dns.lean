import Rustorr.Lib.DomainName
import Rustorr.Lib.BigEndian
import Rustorr.Lib.Utf8
import Mathlib.Data.List.Basic
import Mathlib.Data.List.DropRight

/-! The messages of the mDNS responder: packing and parsing (`dns.rs`). -/

namespace Rustorr.Dns

abbrev Name : Type := List Char

def TYPE_A : UInt16 := 1

def TYPE_PTR : UInt16 := 12

def TYPE_TXT : UInt16 := 16

def TYPE_AAAA : UInt16 := 28

def TYPE_SRV : UInt16 := 33

inductive Data where
  | ptr (target : Name)
  | srv (port : UInt16) (target : Name)
  | txt (strings : List (List Char))
  | a (ip : Vector UInt8 4)
  | aaaa (ip : Vector UInt8 16)
  deriving DecidableEq

structure Record where
  name : Name
  class_ : UInt16
  ttl : UInt32
  data : Data
  deriving DecidableEq

namespace Record

def kind (record : Record) : UInt16 :=
  match record.data with
  | .ptr _ => TYPE_PTR
  | .srv _ _ => TYPE_SRV
  | .txt _ => TYPE_TXT
  | .a _ => TYPE_A
  | .aaaa _ => TYPE_AAAA

/-- Stands in a parsed message for a record that the responder does not understand. -/
def placeholder : Record := ⟨[], 0, 0, .txt []⟩

end Record

structure Question where
  name : Name
  kind : UInt16
  class_ : UInt16
  deriving DecidableEq

structure Message where
  id : UInt16
  response : Bool
  opcode : UInt8
  authoritative : Bool
  recursionDesired : Bool
  checkingDisabled : Bool
  questions : List Question
  answers : List Record
  authority : List Record
  additional : List Record
  deriving DecidableEq

def be16 (n : UInt16) : List UInt8 := [UInt8.ofNat (n.toNat / 256), UInt8.ofNat n.toNat]

/-! ### Packing -/

/-- The position of each suffix written so far, where names are compressed. -/
structure Writer where
  out : List UInt8
  names : Option (List Char → Option UInt16)

def labelsOf (name : Name) : List (List Char) :=
  ((name.rdropWhile (· = '.')).splitOn '.').filter fun label => !label.isEmpty

/-- A suffix as it is looked up. -/
def suffix (labels : List (List Char)) : List Char :=
  (['.'].intercalate labels).map Char.toLower

namespace Writer

def push (bytes : List UInt8) (w : Writer) : Writer := { w with out := w.out ++ bytes }

/-- `or_insert`, where the position can be pointed to. -/
def register (suffix : List Char) (w : Writer) : Writer :=
  if w.out.length < 0x3FFF then
    { w with names := w.names.map fun names s =>
        if s = suffix then some ((names s).getD (UInt16.ofNat w.out.length)) else names s }
  else w

def labels (compressible : Bool) : List (List Char) → Writer → Writer
  | [], w => w.push [0]
  | label :: rest, w =>
    match if compressible then w.names.bind fun names => names (suffix (label :: rest))
      else none with
    | some pointer => w.push (be16 (0xC000 ||| pointer))
    | none =>
      let bytes := (Utf8.encode label).take 63
      labels compressible rest
        ((w.register (suffix (label :: rest))).push (UInt8.ofNat bytes.length :: bytes))

def name (name : Name) (compressible : Bool) (w : Writer) : Writer :=
  w.labels compressible (labelsOf name)

def data (data : Data) (w : Writer) : Writer :=
  match data with
  | .ptr target => w.name target true
  | .srv port target => (w.push ([0, 0, 0, 0] ++ be16 port)).name target false
  | .txt strings => w.push (strings.flatMap fun text =>
      let bytes := (Utf8.encode text).take 255
      UInt8.ofNat bytes.length :: bytes)
  | .a ip => w.push ip.toList
  | .aaaa ip => w.push ip.toList

/-- `copy_from_slice` over the two bytes at a position. -/
def patch (at_ : ℕ) (n : UInt16) (w : Writer) : Writer :=
  { w with out := w.out.take at_ ++ be16 n ++ w.out.drop (at_ + 2) }

def record (record : Record) (w : Writer) : Writer :=
  let w := (w.name record.name true).push
    (be16 record.kind ++ be16 record.class_ ++ BigEndian.toBe32 record.ttl)
  let lengthAt := w.out.length
  let w := (w.push [0, 0]).data record.data
  w.patch lengthAt (UInt16.ofNat (min (w.out.length - lengthAt - 2) 0xFFFF))

def question (question : Question) (w : Writer) : Writer :=
  (w.name question.name true).push (be16 question.kind ++ be16 question.class_)

end Writer

def count (length : ℕ) : UInt16 := UInt16.ofNat (min length 0xFFFF)

def bit (n : UInt16) (set : Bool) : UInt16 := if set then 1 <<< n else 0

def hasBit (flags n : UInt16) : Bool := flags &&& 1 <<< n != 0

namespace Message

def flags (message : Message) : UInt16 :=
  bit 15 message.response ||| (message.opcode &&& 0x0f).toUInt16 <<< 11 |||
    bit 10 message.authoritative ||| bit 8 message.recursionDesired |||
    bit 4 message.checkingDisabled

def records (message : Message) : List Record :=
  message.answers ++ message.authority ++ message.additional

def header (message : Message) : List UInt8 :=
  [message.id, message.flags, count message.questions.length, count message.answers.length,
    count message.authority.length, count message.additional.length].flatMap be16

def pack (compress : Bool) (message : Message) : List UInt8 :=
  let w : Writer := ⟨message.header, if compress then some fun _ => none else none⟩
  let w := message.questions.foldl (fun w question => w.question question) w
  (message.records.foldl (fun w record => w.record record) w).out

end Message

/-! ### Parsing -/

/-- A byte as three decimal digits. -/
def decimal (byte : UInt8) : List Char :=
  [byte.toNat / 100, byte.toNat / 10 % 10, byte.toNat % 10].map Nat.digitChar

def escapeByte (byte : UInt8) : List Char :=
  if byte ∈ [46, 32, 39, 64, 59, 40, 41, 34, 92] then ['\\', Char.ofNat byte.toNat]
  else if 0x21 ≤ byte ∧ byte ≤ 0x7e then [Char.ofNat byte.toNat]
  else '\\' :: decimal byte

def escapeLabel (label : List UInt8) : List Char := label.flatMap escapeByte

/-- A name as it is read: its labels, and a dot. -/
def dotted (labels : List (List UInt8)) : Name :=
  ['.'].intercalate (labels.map escapeLabel) ++ ['.']

def slice (bytes : List UInt8) (start stop : ℕ) : Option (List UInt8) :=
  if start ≤ stop ∧ stop ≤ bytes.length then some ((bytes.drop start).take (stop - start)) else none

/-- At most so many steps; the labels read so far, and where the name ends if a pointer was met. -/
def readLabels (bytes : List UInt8) : ℕ → List (List UInt8) → Option ℕ → ℕ → Option (Name × ℕ)
  | 0, _, _, _ => none
  | n + 1, labels, stop, offset => do
    let length ← bytes[offset]?
    if length &&& 0xC0 = 0xC0 then
      let low ← bytes[offset + 1]?
      readLabels bytes n labels (some (stop.getD (offset + 2)))
        ((length &&& 0x3F).toNat <<< 8 ||| low.toNat)
    else if length = 0 then
      some (dotted labels, stop.getD (offset + 1))
    else
      let label ← slice bytes (offset + 1) (offset + 1 + length.toNat)
      readLabels bytes n (labels ++ [label]) stop (offset + 1 + length.toNat)

def readName (bytes : List UInt8) (offset : ℕ) : Option (Name × ℕ) :=
  readLabels bytes 128 [] none offset

def field (bytes : List UInt8) (at_ : ℕ) : Option UInt16 := do
  let high ← bytes[at_]?
  let low ← bytes[at_ + 1]?
  return UInt16.ofNat (high.toNat * 256 + low.toNat)

def readRecord (bytes : List UInt8) (offset : ℕ) : Option (Option Record × ℕ) := do
  let (name, offset) ← readName bytes offset
  let kind ← field bytes offset
  let class_ ← field bytes (offset + 2)
  let high ← field bytes (offset + 4)
  let low ← field bytes (offset + 6)
  let ttl := UInt32.ofNat (high.toNat * 2 ^ 16 + low.toNat)
  let length := (← field bytes (offset + 8)).toNat
  let start := offset + 10
  let stop := start + length
  let _ ← slice bytes start stop
  let data := if kind = TYPE_PTR then (readName bytes start).map fun read => Data.ptr read.1
    else none
  return (data.map fun data => ⟨name, class_, ttl, data⟩, stop)

def readQuestions (bytes : List UInt8) : ℕ → ℕ → Option (List Question × ℕ)
  | 0, offset => some ([], offset)
  | n + 1, offset => do
    let (name, next) ← readName bytes offset
    let kind ← field bytes next
    let class_ ← field bytes (next + 2)
    let (questions, stop) ← readQuestions bytes n (next + 4)
    return (⟨name, kind, class_⟩ :: questions, stop)

def readRecords (bytes : List UInt8) : ℕ → ℕ → Option (List Record × ℕ)
  | 0, offset => some ([], offset)
  | n + 1, offset => do
    let (record, next) ← readRecord bytes offset
    let (records, stop) ← readRecords bytes n next
    return (record.getD .placeholder :: records, stop)

namespace Message

def parse (bytes : List UInt8) : Option Message := do
  let flags ← field bytes 2
  let id ← field bytes 0
  let questions ← field bytes 4
  let answers ← field bytes 6
  let authority ← field bytes 8
  let additional ← field bytes 10
  let (questions, offset) ← readQuestions bytes questions.toNat 12
  let (answers, offset) ← readRecords bytes answers.toNat offset
  let (authority, offset) ← readRecords bytes authority.toNat offset
  let (additional, _) ← readRecords bytes additional.toNat offset
  return {
    id := id
    response := hasBit flags 15
    opcode := ((flags >>> 11) &&& 0x0f).toUInt8
    authoritative := hasBit flags 10
    recursionDesired := hasBit flags 8
    checkingDisabled := hasBit flags 4
    questions := questions
    answers := answers
    authority := authority
    additional := additional }

end Message

end Rustorr.Dns
