import Rustorr.Lib.BigEndian
import Rustorr.Lib.Fallible
import Rustorr.Lib.Utf8

/-! `mp4box.rs`: MP4 boxes in a buffer, and how their headers are written. Positions in
a buffer are what is left of it. -/

namespace Rustorr.Mp4

open BigEndian

def fourCc (a b c d : Char) : UInt32 :=
  be32 ([a, b, c, d].map fun ch => UInt8.ofNat ch.toNat)

namespace Kind

def styp : UInt32 := fourCc 's' 't' 'y' 'p'
def sidx : UInt32 := fourCc 's' 'i' 'd' 'x'
def emsg : UInt32 := fourCc 'e' 'm' 's' 'g'
def free : UInt32 := fourCc 'f' 'r' 'e' 'e'
def prft : UInt32 := fourCc 'p' 'r' 'f' 't'
def moov : UInt32 := fourCc 'm' 'o' 'o' 'v'
def moof : UInt32 := fourCc 'm' 'o' 'o' 'f'
def mdat : UInt32 := fourCc 'm' 'd' 'a' 't'
def mfhd : UInt32 := fourCc 'm' 'f' 'h' 'd'
def traf : UInt32 := fourCc 't' 'r' 'a' 'f'
def tfhd : UInt32 := fourCc 't' 'f' 'h' 'd'
def tfdt : UInt32 := fourCc 't' 'f' 'd' 't'
def trun : UInt32 := fourCc 't' 'r' 'u' 'n'
def trak : UInt32 := fourCc 't' 'r' 'a' 'k'
def tkhd : UInt32 := fourCc 't' 'k' 'h' 'd'
def mdia : UInt32 := fourCc 'm' 'd' 'i' 'a'
def mdhd : UInt32 := fourCc 'm' 'd' 'h' 'd'
def hdlr : UInt32 := fourCc 'h' 'd' 'l' 'r'
def mvex : UInt32 := fourCc 'm' 'v' 'e' 'x'
def trex : UInt32 := fourCc 't' 'r' 'e' 'x'
def mfra : UInt32 := fourCc 'm' 'f' 'r' 'a'

end Kind

def handlerVideo : UInt32 := fourCc 'v' 'i' 'd' 'e'

def handlerAudio : UInt32 := fourCc 's' 'o' 'u' 'n'

def i32Max : ℕ := 2 ^ 31 - 1

def u32Max : ℕ := 2 ^ 32 - 1

def u64Max : ℕ := 2 ^ 64 - 1

/-- The error texts of the reader, `Error::Other` where no other kind is named. -/
inductive ReaderError where
  | other (text : String)
  | truncatedMp4Fragment (detail : String)
  | undecodableEosRemainder (text : String)
  deriving DecidableEq, Repr

def other (message : String) : ReaderError := .other message

def fourCcText (kind : UInt32) : String := String.ofList (Utf8.decodeLossy 4 (toBe32 kind))

/-- A box as it lies in a buffer: its type, how long its header is, and all its bytes. -/
structure Box where
  kind : UInt32
  header : ℕ
  bytes : List UInt8
  deriving DecidableEq, Repr

/-- What comes after the header. -/
def Box.body (b : Box) : List UInt8 := b.bytes.drop b.header

/-- `tryReadBox`: the box at the front, and what follows it. -/
def tryReadBox (data : List UInt8) : Option (Box × List UInt8) :=
  if data.length < 8 then none
  else
    let size32 := be32 data
    let kind := be32 (data.drop 4)
    let found : Option (ℕ × ℕ) :=
      if size32 = 1 then
        if data.length < 16 then none else some (be64 (data.drop 8), 16)
      else if size32 = 0 then some (data.length, 8)
      else some (size32.toNat, 8)
    match found with
    | none => none
    | some (size, header) =>
      if size < header ∨ size > i32Max ∨ size > data.length then none
      else some (⟨kind, header, data.take size⟩, data.drop size)

/-- The boxes from the front of a buffer on, up to where none can be read. -/
def boxesUpTo : ℕ → List UInt8 → List Box
  | 0, _ => []
  | fuel + 1, data =>
    match tryReadBox data with
    | none => []
    | some (b, rest) => b :: boxesUpTo fuel rest

/-- `while let Some(..) = try_read_box(..)`: every box takes at least its header. -/
def boxes (data : List UInt8) : List Box := boxesUpTo data.length data

/-- `find_box`: the first box of a type. -/
def findBox (data : List UInt8) (wanted : UInt32) : Option Box :=
  (boxes data).find? fun b => b.kind = wanted

def readU32 (data : List UInt8) : Option (UInt32 × List UInt8) :=
  if data.length < 4 then none else some (be32 data, data.drop 4)

def writeHeader (size kind : UInt32) : List UInt8 := toBe32 size ++ toBe32 kind

def writeMfhd (sequence : UInt32) : List UInt8 :=
  toBe32 16 ++ toBe32 Kind.mfhd ++ toBe32 0 ++ toBe32 sequence

def writeTfdt (decodeTime : ℕ) : List UInt8 :=
  toBe32 20 ++ toBe32 Kind.tfdt ++ toBe32 0x01000000 ++ toBe64 decodeTime

def writeMdatHeader (payloadLength headerSize : ℕ) : List UInt8 :=
  if headerSize = 8 then writeHeader (UInt32.ofNat (payloadLength + 8)) Kind.mdat
  else writeHeader 1 Kind.mdat ++ toBe64 (payloadLength + 16)

theorem tryReadBox_length {data rest : List UInt8} {b : Box} (h : tryReadBox data = some (b, rest)) :
    b.bytes ++ rest = data ∧ 8 ≤ b.header ∧ b.header ≤ b.bytes.length ∧ b.bytes.length ≤ i32Max := by
  unfold tryReadBox at h
  split at h
  · exact nomatch h
  · dsimp only at h
    split at h
    · exact nomatch h
    · rename_i size header hfound
      split at h
      · exact nomatch h
      · rename_i hfits
        simp only [not_or, not_lt] at hfits
        obtain ⟨rfl, rfl⟩ := Prod.mk.inj (Option.some.inj h)
        have hheader : 8 ≤ header := by
          split at hfound
          · split at hfound
            · exact nomatch hfound
            · simp only [Option.some.injEq, Prod.mk.injEq] at hfound
              omega
          · split at hfound <;>
            · simp only [Option.some.injEq, Prod.mk.injEq] at hfound
              omega
        have hlength : (data.take size).length = size := by
          rw [List.length_take]
          omega
        refine ⟨List.take_append_drop size data, hheader, ?_, ?_⟩
        · show header ≤ (data.take size).length
          omega
        · show (data.take size).length ≤ i32Max
          omega

theorem boxesUpTo_eq {fuel : ℕ} {data : List UInt8} (h : data.length ≤ fuel) :
    boxesUpTo fuel data = boxes data := by
  induction fuel using Nat.strong_induction_on generalizing data with
  | _ fuel ih =>
    unfold boxes
    cases fuel with
    | zero => rw [Nat.le_zero.mp h]
    | succ fuel =>
      cases hlength : data.length with
      | zero =>
        rw [boxesUpTo, boxesUpTo, tryReadBox, if_pos (by omega)]
      | succ n =>
        rw [boxesUpTo, boxesUpTo]
        cases hread : tryReadBox data with
        | none => rfl
        | some found =>
          obtain ⟨b, rest⟩ := found
          have hparts := tryReadBox_length hread
          have hrest : rest.length + 8 ≤ data.length := by
            rw [← hparts.1, List.length_append]
            omega
          dsimp only
          rw [ih fuel (by omega) (by omega), ih n (by omega) (by omega)]

theorem boxes_eq (data : List UInt8) :
    boxes data =
      match tryReadBox data with
      | none => []
      | some (b, rest) => b :: boxes rest := by
  rw [← boxesUpTo_eq (Nat.le_succ data.length), boxesUpTo]
  cases hread : tryReadBox data with
  | none => rfl
  | some found =>
    obtain ⟨b, rest⟩ := found
    have hparts := tryReadBox_length hread
    have hrest : rest.length ≤ data.length := by
      rw [← hparts.1, List.length_append]
      omega
    dsimp only
    rw [boxesUpTo_eq hrest]

end Rustorr.Mp4
