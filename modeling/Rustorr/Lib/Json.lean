import Rustorr.Lib.Scanner

/-! The grammar of JSON texts over bytes, and what the beginning of a text asks of
the rest of it. A string may hold any byte from 0x20 on but quote and backslash. -/

namespace Json

open Scan (Seq seq_nil seq_cons seq_congr seq_empty)

abbrev Bytes := List UInt8

/-- The byte of an ASCII character. -/
abbrev ascii (c : Char) : UInt8 := UInt8.ofNat c.toNat

def isSpace (b : UInt8) : Bool := b == ascii ' ' || b == ascii '\t' || b == ascii '\r' || b == ascii '\n'

def isDigit (b : UInt8) : Bool := ascii '0' ≤ b && b ≤ ascii '9'

def isHex (b : UInt8) : Bool :=
  isDigit b || (ascii 'a' ≤ b && b ≤ ascii 'f') || (ascii 'A' ≤ b && b ≤ ascii 'F')

def isEscaped (b : UInt8) : Bool :=
  b ∈ ['b', 'f', 'n', 'r', 't', '\\', '/', '"'].map ascii

/-- A byte that stands for itself in a string. -/
def isPlain (b : UInt8) : Bool := ascii ' ' ≤ b && b ≠ ascii '"' && b ≠ ascii '\\'

def Space (u : Bytes) : Prop := ∀ b ∈ u, isSpace b

/-! ### Numbers -/

def Digits (u : Bytes) : Prop := ∀ b ∈ u, isDigit b

inductive SomeDigits : Bytes → Prop
  | intro {b : UInt8} {u : Bytes} : isDigit b → Digits u → SomeDigits (b :: u)

inductive Fraction : Bytes → Prop
  | none : Fraction []
  | some {u : Bytes} : SomeDigits u → Fraction (ascii '.' :: u)

inductive SignedDigits : Bytes → Prop
  | unsigned {u : Bytes} : SomeDigits u → SignedDigits u
  | signed {b : UInt8} {u : Bytes} : b = ascii '+' ∨ b = ascii '-' → SomeDigits u →
    SignedDigits (b :: u)

inductive Exponent : Bytes → Prop
  | none : Exponent []
  | some {b : UInt8} {u : Bytes} : b = ascii 'e' ∨ b = ascii 'E' → SignedDigits u →
    Exponent (b :: u)

inductive Whole : Bytes → Prop
  | zero : Whole [ascii '0']
  | digits {b : UInt8} {u : Bytes} : isDigit b → b ≠ ascii '0' → Digits u → Whole (b :: u)

def Unsigned : Bytes → Prop := Seq Whole (Seq Fraction Exponent)

inductive Number : Bytes → Prop
  | positive {u : Bytes} : Unsigned u → Number u
  | negative {u : Bytes} : Unsigned u → Number (ascii '-' :: u)

/-! ### Strings -/

/-- The rest of a string after its opening quote. -/
inductive Chars : Bytes → Prop
  | close : Chars [ascii '"']
  | plain {b : UInt8} {u : Bytes} : isPlain b → Chars u → Chars (b :: u)
  | escaped {b : UInt8} {u : Bytes} : isEscaped b → Chars u → Chars (ascii '\\' :: b :: u)
  | hex {h u : Bytes} : h.length = 4 → (∀ b ∈ h, isHex b) → Chars u →
    Chars (ascii '\\' :: ascii 'u' :: (h ++ u))

inductive Str : Bytes → Prop
  | intro {u : Bytes} : Chars u → Str (ascii '"' :: u)

/-! ### Values -/

def word (s : String) : Bytes := s.toList.map ascii

/-- Values between commas, each between spaces. -/
inductive Elements (V : Bytes → Prop) : Bytes → Prop
  | one {w v w' : Bytes} : Space w → V v → Space w' → Elements V (w ++ (v ++ w'))
  | cons {w v w' u : Bytes} : Space w → V v → Space w' → Elements V u →
    Elements V (w ++ (v ++ (w' ++ ascii ',' :: u)))

/-- Pairs of a string and a value between commas. -/
inductive Members (V : Bytes → Prop) : Bytes → Prop
  | one {w k w₁ w₂ v w' : Bytes} : Space w → Str k → Space w₁ → Space w₂ → V v → Space w' →
    Members V (w ++ (k ++ (w₁ ++ ascii ':' :: (w₂ ++ (v ++ w')))))
  | cons {w k w₁ w₂ v w' u : Bytes} : Space w → Str k → Space w₁ → Space w₂ → V v →
    Space w' → Members V u →
    Members V (w ++ (k ++ (w₁ ++ ascii ':' :: (w₂ ++ (v ++ (w' ++ ascii ',' :: u))))))

inductive Value : Bytes → Prop
  | literal {u : Bytes} : u ∈ [word "true", word "false", word "null"] → Value u
  | number {u : Bytes} : Number u → Value u
  | string {u : Bytes} : Str u → Value u
  | emptyArray {w : Bytes} : Space w → Value (ascii '[' :: (w ++ [ascii ']']))
  | array {u : Bytes} : Elements Value u → Value (ascii '[' :: (u ++ [ascii ']']))
  | emptyObject {w : Bytes} : Space w → Value (ascii '\x7b' :: (w ++ [ascii '\x7d']))
  | object {u : Bytes} : Members Value u → Value (ascii '\x7b' :: (u ++ [ascii '\x7d']))

/-- A value after optional spaces, and the key of a member. -/
def Text : Bytes → Prop := Seq Space Value

def Key : Bytes → Prop := Seq Space Str

/-! ### The first byte -/

section first

variable {b : UInt8} {u : Bytes}

theorem digits_nil : Digits [] := nofun

theorem digits_cons : Digits (b :: u) ↔ isDigit b ∧ Digits u := List.forall_mem_cons

theorem space_nil : Space [] := nofun

theorem space_cons : Space (b :: u) ↔ isSpace b ∧ Space u := List.forall_mem_cons

theorem not_someDigits_nil : ¬SomeDigits [] := nofun

theorem someDigits_cons : SomeDigits (b :: u) ↔ isDigit b ∧ Digits u :=
  ⟨fun | .intro hb hu => ⟨hb, hu⟩, fun ⟨hb, hu⟩ => .intro hb hu⟩

theorem fraction_cons : Fraction (b :: u) ↔ b = ascii '.' ∧ SomeDigits u :=
  ⟨fun | .some hu => ⟨rfl, hu⟩, fun ⟨hb, hu⟩ => hb ▸ .some hu⟩

theorem exponent_cons :
    Exponent (b :: u) ↔ (b = ascii 'e' ∨ b = ascii 'E') ∧ SignedDigits u :=
  ⟨fun | .some hb hu => ⟨hb, hu⟩, fun ⟨hb, hu⟩ => .some hb hu⟩

theorem not_signedDigits_nil : ¬SignedDigits [] := by
  rintro (h | _)
  exact not_someDigits_nil h

theorem signedDigits_cons : SignedDigits (b :: u) ↔
    (isDigit b ∧ Digits u) ∨ ((b = ascii '+' ∨ b = ascii '-') ∧ SomeDigits u) := by
  constructor
  · rintro (h | ⟨hb, hu⟩)
    · exact .inl (someDigits_cons.mp h)
    · exact .inr ⟨hb, hu⟩
  · rintro (h | ⟨hb, hu⟩)
    · exact .unsigned (someDigits_cons.mpr h)
    · exact .signed hb hu

theorem whole_cons :
    Whole (b :: u) ↔ (b = ascii '0' ∧ u = []) ∨ (isDigit b ∧ b ≠ ascii '0' ∧ Digits u) := by
  constructor
  · rintro (_ | ⟨hb, h0, hu⟩)
    · exact .inl ⟨rfl, rfl⟩
    · exact .inr ⟨hb, h0, hu⟩
  · rintro (⟨rfl, rfl⟩ | ⟨hb, h0, hu⟩)
    · exact .zero
    · exact .digits hb h0 hu

theorem not_unsigned_nil : ¬Unsigned [] := fun h => nomatch (seq_nil.mp h).1

theorem unsigned_cons : Unsigned (b :: u) ↔ (b = ascii '0' ∧ Seq Fraction Exponent u) ∨
    (isDigit b ∧ b ≠ ascii '0' ∧ Seq Digits (Seq Fraction Exponent) u) := by
  have hnil : ¬Whole [] := nofun
  unfold Unsigned
  rw [seq_cons]
  simp only [hnil, false_and, false_or]
  constructor
  · rintro ⟨w, r, hw, hr, rfl⟩
    rcases whole_cons.mp hw with ⟨hb, rfl⟩ | ⟨hb, h0, hw⟩
    · exact .inl ⟨hb, hr⟩
    · exact .inr ⟨hb, h0, w, r, hw, hr, rfl⟩
  · rintro (⟨hb, hu⟩ | ⟨hb, h0, w, r, hw, hr, rfl⟩)
    · exact ⟨[], u, whole_cons.mpr (.inl ⟨hb, rfl⟩), hu, rfl⟩
    · exact ⟨w, r, whole_cons.mpr (.inr ⟨hb, h0, hw⟩), hr, rfl⟩

theorem number_cons : Number (b :: u) ↔ Unsigned (b :: u) ∨ (b = ascii '-' ∧ Unsigned u) := by
  constructor
  · rintro (h | h)
    · exact .inl h
    · exact .inr ⟨rfl, h⟩
  · rintro (h | ⟨rfl, h⟩)
    · exact .positive h
    · exact .negative h

/-- What an escape sequence asks after its backslash. -/
def Escape (u : Bytes) : Prop := Chars (ascii '\\' :: u)

/-- The rest of a string in which `n` hexadecimal digits come first. -/
def HexChars (n : ℕ) (u : Bytes) : Prop :=
  ∃ h v, h.length = n ∧ (∀ b ∈ h, isHex b) ∧ Chars v ∧ u = h ++ v

theorem chars_cons : Chars (b :: u) ↔
    (b = ascii '"' ∧ u = []) ∨ (isPlain b ∧ Chars u) ∨ (b = ascii '\\' ∧ Escape u) := by
  constructor
  · intro h
    cases h with
    | close => exact .inl ⟨rfl, rfl⟩
    | plain hb hu => exact .inr (.inl ⟨hb, hu⟩)
    | escaped hb hu => exact .inr (.inr ⟨rfl, .escaped hb hu⟩)
    | hex hlen hh hu => exact .inr (.inr ⟨rfl, .hex hlen hh hu⟩)
  · rintro (⟨rfl, rfl⟩ | ⟨hb, hu⟩ | ⟨rfl, hu⟩)
    · exact .close
    · exact .plain hb hu
    · exact hu

theorem not_isPlain_backslash : ¬isPlain (ascii '\\') := by decide

theorem escape_cons :
    Escape (b :: u) ↔ (isEscaped b ∧ Chars u) ∨ (b = ascii 'u' ∧ HexChars 4 u) := by
  constructor
  · intro h
    cases h with
    | plain hb hu => exact absurd hb not_isPlain_backslash
    | escaped hb hu => exact .inl ⟨hb, hu⟩
    | hex hlen hh hu => exact .inr ⟨rfl, _, _, hlen, hh, hu, rfl⟩
  · rintro (⟨hb, hu⟩ | ⟨rfl, h, v, hlen, hh, hv, rfl⟩)
    · exact .escaped hb hu
    · exact .hex hlen hh hv

theorem not_escape_nil : ¬Escape [] := by
  rintro (_ | ⟨hb, _⟩)
  exact not_isPlain_backslash hb

theorem hexChars_zero : HexChars 0 u ↔ Chars u := by
  constructor
  · rintro ⟨h, v, hlen, -, hv, rfl⟩
    rwa [List.length_eq_zero_iff.mp hlen]
  · exact fun h => ⟨[], u, rfl, nofun, h, rfl⟩

theorem hexChars_cons {n : ℕ} : HexChars (n + 1) (b :: u) ↔ isHex b ∧ HexChars n u := by
  constructor
  · rintro ⟨h, v, hlen, hh, hv, heq⟩
    cases h with
    | nil => cases hlen
    | cons b' h =>
      obtain ⟨rfl, rfl⟩ := List.cons.inj heq
      obtain ⟨hb, hh⟩ := List.forall_mem_cons.mp hh
      exact ⟨hb, h, v, Nat.succ.inj hlen, hh, hv, rfl⟩
  · rintro ⟨hb, h, v, hlen, hh, hv, rfl⟩
    exact ⟨b :: h, v, congrArg Nat.succ hlen, List.forall_mem_cons.mpr ⟨hb, hh⟩, hv, rfl⟩

theorem not_hexChars_nil {n : ℕ} : ¬HexChars (n + 1) [] := by
  rintro ⟨h, v, hlen, -, -, heq⟩
  rw [(List.append_eq_nil_iff.mp heq.symm).1] at hlen
  cases hlen

theorem not_chars_nil : ¬Chars [] := nofun

theorem not_str_nil : ¬Str [] := nofun

theorem str_cons : Str (b :: u) ↔ b = ascii '"' ∧ Chars u :=
  ⟨fun | .intro hu => ⟨rfl, hu⟩, fun ⟨hb, hu⟩ => hb ▸ .intro hu⟩

/-- The rest of an array after its bracket, and of an object. -/
def ArrayRest (u : Bytes) : Prop :=
  (∃ w, Space w ∧ u = w ++ [ascii ']']) ∨ ∃ e, Elements Value e ∧ u = e ++ [ascii ']']

def ObjectRest (u : Bytes) : Prop :=
  (∃ w, Space w ∧ u = w ++ [ascii '\x7d']) ∨ ∃ m, Members Value m ∧ u = m ++ [ascii '\x7d']

theorem value_cons : Value (b :: u) ↔
    b :: u ∈ [word "true", word "false", word "null"] ∨ Number (b :: u) ∨
      (b = ascii '"' ∧ Chars u) ∨ (b = ascii '[' ∧ ArrayRest u) ∨
      (b = ascii '\x7b' ∧ ObjectRest u) := by
  constructor
  · intro h
    cases h with
    | literal h => exact .inl h
    | number h => exact .inr (.inl h)
    | string h => exact .inr (.inr (.inl (str_cons.mp h)))
    | emptyArray hw => exact .inr (.inr (.inr (.inl ⟨rfl, .inl ⟨_, hw, rfl⟩⟩)))
    | array hu => exact .inr (.inr (.inr (.inl ⟨rfl, .inr ⟨_, hu, rfl⟩⟩)))
    | emptyObject hw => exact .inr (.inr (.inr (.inr ⟨rfl, .inl ⟨_, hw, rfl⟩⟩)))
    | object hu => exact .inr (.inr (.inr (.inr ⟨rfl, .inr ⟨_, hu, rfl⟩⟩)))
  · rintro (h | h | h | ⟨rfl, ⟨w, hw, rfl⟩ | ⟨e, he, rfl⟩⟩ | ⟨rfl, ⟨w, hw, rfl⟩ | ⟨m, hm, rfl⟩⟩)
    · exact .literal h
    · exact .number h
    · exact .string (str_cons.mpr h)
    · exact .emptyArray hw
    · exact .array he
    · exact .emptyObject hw
    · exact .object hm

theorem literal_cons : b :: u ∈ [word "true", word "false", word "null"] ↔
    (b = ascii 't' ∧ u = (word "true").drop 1) ∨ (b = ascii 'f' ∧ u = (word "false").drop 1) ∨
      (b = ascii 'n' ∧ u = (word "null").drop 1) := by
  simp [word]

/-- Which value a byte begins. -/
theorem value_first : Value (b :: u) ↔
    (b = ascii 't' ∧ u = (word "true").drop 1) ∨ (b = ascii 'f' ∧ u = (word "false").drop 1) ∨
      (b = ascii 'n' ∧ u = (word "null").drop 1) ∨ (b = ascii '0' ∧ Seq Fraction Exponent u) ∨
      (isDigit b ∧ b ≠ ascii '0' ∧ Seq Digits (Seq Fraction Exponent) u) ∨
      (b = ascii '-' ∧ Unsigned u) ∨ (b = ascii '"' ∧ Chars u) ∨ (b = ascii '[' ∧ ArrayRest u) ∨
      (b = ascii '\x7b' ∧ ObjectRest u) := by
  rw [value_cons, literal_cons, number_cons, unsigned_cons]
  simp only [or_assoc]

theorem ne_of_class {f : UInt8 → Bool} {c : UInt8} (hb : f b = true) (hc : f c = false) : b ≠ c := by
  rintro rfl
  rw [hb] at hc
  cases hc

theorem not_value_of_space (hb : isSpace b = true) : ¬Value (b :: u) := by
  have hne : ∀ c, isSpace c = false → b ≠ c := fun c => ne_of_class hb
  have hdigit : ¬isDigit b = true := by
    unfold isSpace at hb
    simp only [Bool.or_eq_true, beq_iff_eq, or_assoc] at hb
    rcases hb with rfl | rfl | rfl | rfl <;> decide
  rw [value_first]
  simp only [hne (ascii 't') (by decide), hne (ascii 'f') (by decide), hne (ascii 'n') (by decide),
    hne (ascii '0') (by decide), hne (ascii '-') (by decide), hne (ascii '"') (by decide),
    hne (ascii '[') (by decide), hne (ascii '\x7b') (by decide), hdigit, Bool.false_eq_true,
    false_and, or_self, not_false_eq_true]

theorem text_cons : Text (b :: u) ↔ Value (b :: u) ∨ (isSpace b ∧ Text u) := by
  unfold Text
  rw [seq_cons]
  simp only [space_nil, true_and]
  refine or_congr Iff.rfl ⟨?_, ?_⟩
  · rintro ⟨w, v, hw, hv, rfl⟩
    obtain ⟨hb, hw⟩ := space_cons.mp hw
    exact ⟨hb, w, v, hw, hv, rfl⟩
  · rintro ⟨hb, w, v, hw, hv, rfl⟩
    exact ⟨w, v, space_cons.mpr ⟨hb, hw⟩, hv, rfl⟩

theorem key_cons : Key (b :: u) ↔ (b = ascii '"' ∧ Chars u) ∨ (isSpace b ∧ Key u) := by
  unfold Key
  rw [seq_cons, str_cons]
  simp only [space_nil, true_and]
  refine or_congr Iff.rfl ⟨?_, ?_⟩
  · rintro ⟨w, v, hw, hv, rfl⟩
    obtain ⟨hb, hw⟩ := space_cons.mp hw
    exact ⟨hb, w, v, hw, hv, rfl⟩
  · rintro ⟨hb, w, v, hw, hv, rfl⟩
    exact ⟨w, v, space_cons.mpr ⟨hb, hw⟩, hv, rfl⟩

theorem not_value_nil : ¬Value [] := by
  intro h
  cases h with
  | literal h => revert h; decide
  | number h =>
    cases h with
    | positive h => exact not_unsigned_nil h
  | string h => exact not_str_nil h

theorem not_text_nil : ¬Text [] := fun h => not_value_nil (seq_nil.mp h).2

theorem not_key_nil : ¬Key [] := fun h => not_str_nil (seq_nil.mp h).2

end first

end Json
