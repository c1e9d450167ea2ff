import Rustorr.Lib.Machine
import Mathlib.Order.Interval.Finset.Nat
import Mathlib.Tactic.IntervalCases

/-! Domain values shared by every part of the model: byte ranges, file and
piece positions, and info hashes with their text form. -/

namespace Rustorr

namespace Domain

inductive Error
  | infoHashLength (expected actual : ℕ)
  | infoHashCharacter (position : ℕ) (character : Char)
  | fileIndexZero
  | rangeReversed (start end_ : ℕ)
  | rangeOverflow (start len : ℕ)
  deriving DecidableEq

end Domain

open Domain (Error)

/-- Half-open range of byte offsets that may be empty. -/
structure ByteRange where
  start : ℕ
  end_ : ℕ
  ordered : start ≤ end_
  bounded : end_ < 2 ^ 64
  deriving DecidableEq

namespace ByteRange

def new (start end_ : U64) : Except Error ByteRange :=
  if h : start > end_ then .error (.rangeReversed start end_)
  else .ok ⟨start, end_, not_lt.mp h, end_.isLt⟩

def fromStartLen (start len : ℕ) : Except Error ByteRange :=
  if h : start + len < 2 ^ 64 then .ok ⟨start, start + len, by omega, h⟩
  else .error (.rangeOverflow start len)

def len (r : ByteRange) : ℕ := r.end_ - r.start

def isEmpty (r : ByteRange) : Bool := r.start == r.end_

def fitsWithin (r : ByteRange) (length : ℕ) : Bool := decide (r.end_ ≤ length)

/-- The bytes of the range. -/
def bytes (r : ByteRange) : Finset ℕ := Finset.Ico r.start r.end_

theorem isEmpty_eq_false {r : ByteRange} : r.isEmpty = false ↔ r.start < r.end_ := by
  have := r.ordered
  simp only [isEmpty, beq_eq_false_iff_ne]
  omega

theorem isEmpty_eq_true {r : ByteRange} : r.isEmpty = true ↔ r.start = r.end_ := by
  simp [isEmpty]

theorem new_eq_ok {start end_ : U64} {r : ByteRange} (h : new start end_ = .ok r) :
    r.start = start ∧ r.end_ = end_ := by
  unfold new at h
  split at h
  · cases h
  · cases h
    exact ⟨rfl, rfl⟩

theorem fromStartLen_eq_ok {start len : ℕ} {r : ByteRange} (h : fromStartLen start len = .ok r) :
    r.start = start ∧ r.end_ = start + len := by
  unfold fromStartLen at h
  split at h
  · cases h
    exact ⟨rfl, rfl⟩
  · cases h

end ByteRange

/-- Position of a file within a torrent, counted from zero. -/
structure FileIndex where
  zeroBased : U32
  deriving DecidableEq

namespace FileIndex

def fromZeroBased (index : U32) : FileIndex := ⟨index⟩

def fromOneBased (index : U32) : Except Error FileIndex :=
  if index = 0 then .error .fileIndexZero else .ok ⟨index - 1⟩

def oneBased (f : FileIndex) : ℕ := f.zeroBased + 1

/-- `index as u32` of a list position. -/
def ofPosition (index : ℕ) : FileIndex := fromZeroBased (Fin.ofNat (2 ^ 32) index)

theorem ofPosition_val (index : ℕ) : ((ofPosition index).zeroBased : ℕ) = index % 2 ^ 32 := rfl

theorem ofPosition_of_lt {index : ℕ} (h : index < 2 ^ 32) :
    ((ofPosition index).zeroBased : ℕ) = index := Nat.mod_eq_of_lt h

@[simp] theorem ofPosition_zeroBased (f : FileIndex) : ofPosition f.zeroBased = f := by
  cases f
  simp [ofPosition, fromZeroBased]

end FileIndex

/-- Zero-based position of a piece within a torrent. -/
structure PieceIndex where
  get : U32
  deriving DecidableEq

namespace PieceIndex

def new (index : U32) : PieceIndex := ⟨index⟩

/-- `index as u32` of a list position. -/
def ofPosition (index : ℕ) : PieceIndex := new (Fin.ofNat (2 ^ 32) index)

theorem ofPosition_of_lt {index : ℕ} (h : index < 2 ^ 32) : ((ofPosition index).get : ℕ) = index :=
  Nat.mod_eq_of_lt h

end PieceIndex

structure InfoHash where
  bytes : List UInt8
  length_bytes : bytes.length = 20
  deriving DecidableEq

namespace InfoHash

theorem length_ones : (List.replicate 20 (1 : UInt8)).length = 20 := rfl

def hexLen : ℕ := 40

/-- `char::to_digit(16)`. -/
def toDigit (c : Char) : Option ℕ :=
  if '0' ≤ c ∧ c ≤ '9' then some (c.toNat - '0'.toNat)
  else if 'a' ≤ c ∧ c ≤ 'f' then some (c.toNat - 'a'.toNat + 10)
  else if 'A' ≤ c ∧ c ≤ 'F' then some (c.toNat - 'A'.toNat + 10)
  else none

/-- The digits of a text from `position` on, or its first non-hex character. -/
def digits (position : ℕ) : List Char → Except Error (List ℕ)
  | [] => .ok []
  | c :: text => match toDigit c with
    | none => .error (.infoHashCharacter position c)
    | some digit => (digits (position + 1) text).map (digit :: ·)

def pairs : List ℕ → List UInt8
  | high :: low :: rest => UInt8.ofNat (high <<< 4 ||| low) :: pairs rest
  | _ => []

theorem length_digits {position : ℕ} {text : List Char} {ds : List ℕ}
    (h : digits position text = .ok ds) : ds.length = text.length := by
  induction text generalizing position ds with
  | nil => cases h; rfl
  | cons c text ih =>
    unfold digits at h
    cases hc : toDigit c with
    | none => simp [hc] at h
    | some d =>
      cases ht : digits (position + 1) text with
      | error e => simp [hc, ht, Except.map] at h
      | ok es =>
        simp only [hc, ht, Except.map, Except.ok.injEq] at h
        subst h
        simp [ih ht]

theorem length_pairs (n : ℕ) (ds : List ℕ) (h : ds.length = 2 * n) : (pairs ds).length = n := by
  induction n generalizing ds with
  | zero => simp [List.length_eq_zero_iff.mp h, pairs]
  | succ n ih =>
    match ds, h with
    | a :: b :: ds, h => simp [pairs, ih ds (by simp at h; omega)]

def fromStr (text : List Char) : Except Error InfoHash :=
  if hlen : text.length ≠ hexLen then .error (.infoHashLength hexLen text.length)
  else match h : digits 0 text with
    | .error e => .error e
    | .ok ds => .ok ⟨pairs ds, length_pairs 20 ds (by
        rw [length_digits h, not_not.mp hlen]; rfl)⟩

def hexByte (b : UInt8) : List Char := [Nat.digitChar (b.toNat / 16), Nat.digitChar (b.toNat % 16)]

def toText (h : InfoHash) : List Char := h.bytes.flatMap hexByte

theorem toDigit_digitChar {n : ℕ} (h : n < 16) : toDigit (Nat.digitChar n) = some n := by
  interval_cases n <;> rfl

theorem shiftLeft_or (n : ℕ) (h : n < 256) : (n / 16) <<< 4 ||| n % 16 = n := by
  interval_cases n <;> rfl

theorem digits_flatMap (position : ℕ) (bs : List UInt8) :
    ∃ ds, digits position (bs.flatMap hexByte) = .ok ds ∧ pairs ds = bs := by
  induction bs generalizing position with
  | nil => exact ⟨[], rfl, rfl⟩
  | cons b bs ih =>
    obtain ⟨ds, h1, h2⟩ := ih (position + 2)
    have hb : b.toNat < 256 := b.toNat_lt
    have hhigh := toDigit_digitChar (show b.toNat / 16 < 16 by omega)
    have hlow := toDigit_digitChar (show b.toNat % 16 < 16 by omega)
    refine ⟨b.toNat / 16 :: b.toNat % 16 :: ds, ?_, ?_⟩
    · simp [List.flatMap_cons, hexByte, digits, hhigh, hlow, h1, Except.map]
    · simp [pairs, h2, shiftLeft_or _ hb]

theorem length_toText (h : InfoHash) : h.toText.length = hexLen := by
  simp [toText, hexByte, List.length_flatMap, h.length_bytes, hexLen]

/-- What holds of the sixteen digits holds of every character. -/
theorem forall_mem_toText {P : Char → Prop} (hdigit : ∀ n : Fin 16, P (Nat.digitChar n)) {h : InfoHash}
    {c : Char} (hc : c ∈ h.toText) : P c := by
  obtain ⟨b, -, hb⟩ := List.mem_flatMap.mp hc
  have hlt : b.toNat < 256 := b.toNat_lt
  unfold hexByte at hb
  simp only [List.mem_cons, List.not_mem_nil, or_false] at hb
  rcases hb with rfl | rfl
  · exact hdigit ⟨b.toNat / 16, by omega⟩
  · exact hdigit ⟨b.toNat % 16, by omega⟩

/-- The printed form is accepted again, as the same hash. -/
theorem fromStr_toText (h : InfoHash) : fromStr h.toText = .ok h := by
  obtain ⟨ds, h1, h2⟩ := digits_flatMap 0 h.bytes
  have h1' : digits 0 h.toText = .ok ds := h1
  unfold fromStr
  rw [dif_neg (by simp [length_toText])]
  split
  · rename_i e he
    rw [h1'] at he
    cases he
  · rename_i ds' he
    rw [h1'] at he
    cases he
    cases h
    simpa using h2

theorem toText_injective : Function.Injective toText := by
  intro a b h
  have ha := fromStr_toText a
  rw [h, fromStr_toText b] at ha
  cases ha
  rfl

end InfoHash

end Rustorr
