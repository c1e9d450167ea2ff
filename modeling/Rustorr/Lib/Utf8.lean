import Mathlib.Data.List.DropRight
import Mathlib.Tactic.SplitIfs

/-! Texts as UTF-8 bytes, and texts without the white space around them. -/

namespace Utf8

/-- The bytes of a text (`as_bytes`). -/
def encode (s : List Char) : List UInt8 := s.flatMap String.utf8EncodeChar

/-- The text of valid bytes (`from_utf8`). -/
def decode (bytes : List UInt8) : Option (List Char) :=
  bytes.toByteArray.utf8Decode?.map Array.toList

theorem encode_toByteArray (s : List Char) : (encode s).toByteArray = s.utf8Encode := rfl

theorem decode_encode (s : List Char) : decode (encode s) = some s := by
  unfold decode
  rw [encode_toByteArray, List.utf8Decode?_utf8Encode]
  rfl

theorem encode_eq_of_decode {bytes : List UInt8} {s : List Char} (h : decode bytes = some s) :
    encode s = bytes := by
  unfold decode at h
  obtain ⟨chars, hchars, rfl⟩ := Option.map_eq_some_iff.mp h
  have hsome : bytes.toByteArray.utf8Decode?.isSome := by
    rw [hchars]
    rfl
  have hget : bytes.toByteArray.utf8Decode?.get hsome = chars :=
    Option.get_of_eq_some hsome hchars
  have hencode := ByteArray.utf8Encode_get_utf8Decode? (h := hsome)
  rw [hget, ← encode_toByteArray] at hencode
  exact List.toByteArray_inj.mp hencode

theorem encode_ne_nil {s : List Char} (h : s ≠ []) : encode s ≠ [] := by
  obtain ⟨c, s, rfl⟩ := List.exists_cons_of_ne_nil h
  unfold encode
  rw [List.flatMap_cons]
  exact List.append_ne_nil_of_left_ne_nil String.utf8EncodeChar_ne_nil _

theorem encode_append (s t : List Char) : encode (s ++ t) = encode s ++ encode t :=
  List.flatMap_append

theorem encode_injective : Function.Injective encode := by
  intro s t h
  have hdecode := decode_encode s
  rw [h, decode_encode] at hdecode
  exact (Option.some.inj hdecode).symm

theorem le_ofNat {n : ℕ} (hlow : 0x80 ≤ n) (hhigh : n < 0x100) : 0x80 ≤ UInt8.ofNat n := by
  rw [UInt8.le_iff_toNat_le, UInt8.toNat_ofNat', Nat.mod_eq_of_lt hhigh]
  exact hlow

/-- A character is one ASCII byte, or none of its bytes is ASCII. -/
theorem utf8EncodeChar_cases (c : Char) :
    (c.val.toNat ≤ 0x7f ∧ String.utf8EncodeChar c = [UInt8.ofNat c.val.toNat]) ∨
      (0x7f < c.val.toNat ∧ ∀ b ∈ String.utf8EncodeChar c, 0x80 ≤ b) := by
  unfold String.utf8EncodeChar
  simp only
  split
  · next h => exact Or.inl ⟨h, rfl⟩
  · next h =>
    right
    refine ⟨not_le.mp h, fun b hb => ?_⟩
    -- Every byte of the longer forms has its high bit set.
    split_ifs at hb
    all_goals
      simp only [List.mem_cons, List.not_mem_nil, or_false] at hb
      rcases hb with rfl | rfl | rfl | rfl <;> exact le_ofNat (by omega) (by omega)

/-- An ASCII byte of a text is one of its characters. -/
theorem mem_encode_of_ascii {s : List Char} {b : UInt8} (hascii : b < 0x80) (h : b ∈ encode s) :
    Char.ofNat b.toNat ∈ s := by
  obtain ⟨c, hc, hbyte⟩ := List.mem_flatMap.mp h
  rcases utf8EncodeChar_cases c with ⟨hle, heq⟩ | ⟨-, hall⟩
  · rw [heq, List.mem_singleton] at hbyte
    have hval : b.toNat = c.val.toNat := by
      rw [hbyte, UInt8.toNat_ofNat']
      exact Nat.mod_eq_of_lt (by omega)
    rw [hval]
    exact (Char.ofNat_toNat c).symm ▸ hc
  · exact absurd (hall b hbyte) (UInt8.not_le.mpr hascii)

/-- The characters with the property `White_Space`. -/
def isWhitespace (c : Char) : Bool :=
  let n := c.toNat
  (9 ≤ n && n ≤ 13) || n == 0x20 || n == 0x85 || n == 0xa0 || n == 0x1680 ||
    (0x2000 ≤ n && n ≤ 0x200a) || n == 0x2028 || n == 0x2029 || n == 0x202f || n == 0x205f ||
    n == 0x3000

def trim (s : List Char) : List Char := (s.dropWhile isWhitespace).rdropWhile isWhitespace

theorem isWhitespace_of_isDigit {c : Char} (h : c.isDigit = true) : isWhitespace c = false := by
  have hbounds : 48 ≤ c.toNat ∧ c.toNat ≤ 57 := by
    simpa [Char.isDigit, UInt32.le_iff_toNat_le] using h
  simp only [isWhitespace, Bool.or_eq_false_iff, Bool.and_eq_false_imp, decide_eq_true_eq,
    decide_eq_false_iff_not, beq_eq_false_iff_ne, ne_eq]
  omega

theorem trim_of_forall {s : List Char} (h : ∀ c ∈ s, isWhitespace c = false) : trim s = s := by
  have hfront : s.dropWhile isWhitespace = s := by
    cases s with
    | nil => rfl
    | cons c s =>
      rw [List.dropWhile_cons_of_neg]
      rw [h c List.mem_cons_self]
      exact Bool.false_ne_true
  unfold trim
  rw [hfront, List.rdropWhile_eq_self_iff]
  intro hne
  rw [h _ (List.getLast_mem hne)]
  exact Bool.false_ne_true

def isContinuation (b : UInt8) : Bool := 0x80 ≤ b && b ≤ 0xbf

/-- The bytes that may follow a first byte. -/
def following (b : UInt8) : List (UInt8 → Bool) :=
  if 0xc2 ≤ b && b ≤ 0xdf then [isContinuation]
  else if b == 0xe0 then [fun c => 0xa0 ≤ c && c ≤ 0xbf, isContinuation]
  else if b == 0xed then [fun c => 0x80 ≤ c && c ≤ 0x9f, isContinuation]
  else if 0xe1 ≤ b && b ≤ 0xef then [isContinuation, isContinuation]
  else if b == 0xf0 then [fun c => 0x90 ≤ c && c ≤ 0xbf, isContinuation, isContinuation]
  else if 0xf1 ≤ b && b ≤ 0xf3 then [isContinuation, isContinuation, isContinuation]
  else if b == 0xf4 then [fun c => 0x80 ≤ c && c ≤ 0x8f, isContinuation, isContinuation]
  else []

/-- How many bytes go as they should. -/
def followed : List (UInt8 → Bool) → List UInt8 → ℕ
  | ok :: oks, b :: bytes => if ok b then followed oks bytes + 1 else 0
  | _, _ => 0

/-- `from_utf8_lossy`: what begins no character is replaced. -/
def decodeLossy : ℕ → List UInt8 → List Char
  | 0, _ => []
  | _, [] => []
  | fuel + 1, b :: bytes =>
    let count := followed (following b) bytes
    match decode ((b :: bytes).take (count + 1)) with
    | some chars => chars ++ decodeLossy fuel (bytes.drop count)
    | none => '\uFFFD' :: decodeLossy fuel (bytes.drop count)

end Utf8
