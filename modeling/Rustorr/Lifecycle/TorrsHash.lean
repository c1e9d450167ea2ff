import Rustorr.Domain
import Rustorr.Lib.Radix
import Rustorr.Lib.Utf8

/-! Torrs tokens (`torrs_hash.rs`): a torrent's hash and texts as a tagged record,
compressed and written as one number in base 62. -/

namespace Rustorr.TorrsHash

def alphabet : List Char :=
  "0123456789ABCDEFGHIJKLMNOPQRSTUVWXYZabcdefghijklmnopqrstuvwxyz".toList

/-- The parts of a torrent view that go into its token. -/
structure TorrentView where
  title : List Char
  category : List Char
  poster : List Char
  hash : Option (List Char)
  torrentSize : Option ℕ

def TorrentView.infoHash (view : TorrentView) : Option InfoHash :=
  view.hash.bind fun text => (InfoHash.fromStr text).toOption

/-- `flate2`: the whole of `ZlibEncoder` (write, flush and finish) and of
`ZlibDecoder`, each of which may fail. -/
structure Zlib where
  compress : List UInt8 → Option (List UInt8)
  decompress : List UInt8 → Option (List UInt8)

/-- Bytes come only out of a stream that begins with a `zlib` header, whose
compression method is 8. -/
def Zlib.Headed (z : Zlib) : Prop := ∀ packed plain, plain ≠ [] → z.decompress packed = some plain →
  ∃ first rest, packed = first :: rest ∧ first.toNat % 16 = 8

/-! ### Encoding -/

def u16Bytes (n : ℕ) : List UInt8 := [UInt8.ofNat (n % 256), UInt8.ofNat (n / 256)]

/-- The length is written as a `u16`, which stays at its maximum for longer values. -/
def field (tag : UInt8) (value : List Char) : List UInt8 :=
  let value := Utf8.trim value
  if value.isEmpty then []
  else
    let bytes := Utf8.encode value
    tag :: u16Bytes (if bytes.length < 2 ^ 16 then bytes.length else 2 ^ 16 - 1) ++ bytes

def base62 (bytes : List UInt8) : List Char :=
  Radix.letters alphabet (Radix.digits 62 (Radix.ofBytes bytes))

/-- `token.bytes()` is modelled by its characters: no byte of a character outside
ASCII is in the alphabet. -/
def unbase62 (token : List Char) : Option (List UInt8) :=
  (Radix.ofLetters alphabet (Utf8.trim token)).map fun ds => Radix.toBytes (Radix.value 62 ds)

/-- `checked_sub`. -/
def checkedSub (a b : ℕ) : Option ℕ := if b ≤ a then some (a - b) else none

/-- The candidate whose block header has `bit` set, if the bit is clear and the
decoder accepts it. -/
def candidate (z : Zlib) (plain packed : List UInt8) (header : ℕ) (bit : ℕ) : Option (List UInt8) :=
  let byte := packed.getD header 0
  if byte &&& (1 <<< UInt8.ofNat bit) ≠ 0 then none
  else
    let candidate := packed.set header (byte ||| (1 <<< UInt8.ofNat bit))
    if z.decompress candidate = some plain then some candidate else none

def matrixZlib (z : Zlib) (plain : List UInt8) : Option (List UInt8) := do
  let packed ← z.compress plain
  let syncLen ← checkedSub packed.length 6
  if (packed.drop syncLen).take 2 ≠ [0x03, 0x00] then none
  else
    let packed := packed.take syncLen ++ packed.drop (syncLen + 2)
    let header ← checkedSub syncLen 5
    (List.range 8).findSome? (candidate z plain packed header)

def i64Bytes (n : ℕ) : List UInt8 := (List.range 8).map fun k => UInt8.ofNat (n / 256 ^ k % 256)

/-- The size is left out when it is zero, and has to fit an `i64`. -/
def sizeField (size : Option ℕ) : Option (List UInt8) :=
  match size.filter (· ≠ 0) with
  | none => some []
  | some size => if size < 2 ^ 63 then some (4 :: i64Bytes size) else none

def plainOf (view : TorrentView) (trackers : List (List Char)) : Option (List UInt8) := do
  let hash ← view.infoHash
  let size ← sizeField view.torrentSize
  pure (hash.bytes ++ field 0 view.title ++ field 1 view.poster ++ field 3 view.category ++ size ++
    trackers.flatMap (field 2))

def encode (z : Zlib) (view : TorrentView) (trackers : List (List Char)) : Option (List Char) := do
  let plain ← plainOf view trackers
  let packed ← matrixZlib z plain
  pure (base62 packed)

/-! ### Decoding -/

structure Decoded where
  hash : InfoHash
  title : List Char
  poster : List Char
  category : List Char
  trackers : List (List Char)
  deriving DecidableEq

def Decoded.set (d : Decoded) (tag : UInt8) (value : List Char) : Decoded :=
  if tag = 0 then { d with title := value }
  else if tag = 1 then { d with poster := value }
  else if tag = 2 then { d with trackers := d.trackers ++ [value] }
  else if tag = 3 then { d with category := value }
  else d

/-- The loop of `decode` over what is left from its position on. -/
def decodeFields : List UInt8 → Decoded → Option Decoded
  | [], d => some d
  | tag :: rest, d =>
    if tag = 4 then
      if rest.length < 8 then none else decodeFields (rest.drop 8) d
    else match rest with
      | low :: high :: rest =>
        let length := low.toNat + 256 * high.toNat
        if rest.length < length then none
        else match Utf8.decode (rest.take length) with
          | none => none
          | some value => decodeFields (rest.drop length) (d.set tag value)
      | _ => none
termination_by bytes => bytes.length
decreasing_by
  · simp only [List.length_drop, List.length_cons]
    omega
  · simp only [List.length_drop, List.length_cons]
    omega

def stripPrefix (start token : List Char) : List Char :=
  if start.isPrefixOf token then token.drop start.length else token

def decode (z : Zlib) (token : List Char) : Option Decoded := do
  let packed ← unbase62 (stripPrefix "torrs://".toList token)
  let plain ← z.decompress packed
  if h : (plain.take 20).length = 20 then
    decodeFields (plain.drop 20) ⟨⟨plain.take 20, h⟩, [], [], [], []⟩
  else none

end Rustorr.TorrsHash
