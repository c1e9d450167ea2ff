import Rustorr.Http.AccessLog
import Rustorr.Lib.UrlQuery

/-! Answers in JSON as Go writes them (`error.rs`): five characters are escaped in the text that the
serialiser wrote. A text is read back here by the grammar of RFC 8259, its numbers by a parameter. -/

namespace Rustorr.GoJson

open AccessLog (Value)

variable {ν : Type}

/-- What `go_json` pushes for a character. -/
def escaped (c : Char) : List Char :=
  if c = '<' then "\\u003c".toList
  else if c = '>' then "\\u003e".toList
  else if c = '&' then "\\u0026".toList
  else if c = '\u2028' then "\\u2028".toList
  else if c = '\u2029' then "\\u2029".toList
  else [c]

/-- `none` is an error of the serialiser. -/
def goJson (toText : Value ν → Option (List Char)) (value : Value ν) : Option (List UInt8) :=
  (toText value).map fun text => Utf8.encode (text.flatMap escaped)

/-! ### Reading a text -/

def isSpace (c : Char) : Bool := c = ' ' || c = '\t' || c = '\r' || c = '\n'

def skip (text : List Char) : List Char := text.dropWhile isSpace

/-- Four hexadecimal digits. -/
def readUnit : List Char → Option (ℕ × List Char)
  | a :: b :: c :: d :: rest => do
    let a ← UrlQuery.hexValue a
    let b ← UrlQuery.hexValue b
    let c ← UrlQuery.hexValue c
    let d ← UrlQuery.hexValue d
    some (((a * 16 + b) * 16 + c) * 16 + d, rest)
  | _ => none

def letters : List (Char × Char) :=
  [('"', '"'), ('\\', '\\'), ('/', '/'), ('b', '\x08'), ('f', '\x0c'), ('n', '\n'), ('r', '\r'),
    ('t', '\t')]

/-- The second half of a surrogate pair. -/
def readLow (high : ℕ) (text : List Char) : Option (Char × List Char) :=
  match text with
  | '\\' :: 'u' :: rest => do
    let low ← readUnit rest
    if 0xdc00 ≤ low.1 ∧ low.1 < 0xe000 then
      some (Char.ofNat (0x10000 + (high - 0xd800) * 0x400 + (low.1 - 0xdc00)), low.2)
    else none
  | _ => none

/-- What is behind a backslash. -/
def readEscape (text : List Char) : Option (Char × List Char) :=
  match text with
  | 'u' :: rest => do
    let unit ← readUnit rest
    if unit.1 < 0xd800 ∨ 0xe000 ≤ unit.1 then some (Char.ofNat unit.1, unit.2)
    else if unit.1 < 0xdc00 then readLow unit.1 unit.2
    else none
  | c :: rest => (letters.lookup c).map fun meant => (meant, rest)
  | [] => none

/-- A string behind its opening quote. -/
def readChars : ℕ → List Char → Option (List Char × List Char)
  | 0, _ => none
  | _ + 1, [] => none
  | fuel + 1, c :: rest =>
    if c = '"' then some ([], rest)
    else if c = '\\' then do
      let first ← readEscape rest
      let text ← readChars fuel first.2
      some (first.1 :: text.1, text.2)
    else if c < ' ' then none
    else do
      let text ← readChars fuel rest
      some (c :: text.1, text.2)

def readString (text : List Char) : Option (List Char × List Char) :=
  match text with
  | '"' :: rest => readChars (rest.length + 1) rest
  | _ => none

def isNumberChar (c : Char) : Bool := c.isDigit || "+-.eE".toList.contains c

/-- What is behind a whole number: a fraction and an exponent, if there are any. -/
def isTail (text : List Char) : Bool :=
  let exponent := match text with
    | '.' :: rest => if rest.takeWhile Char.isDigit = [] then ['x'] else rest.dropWhile Char.isDigit
    | _ => text
  match exponent with
  | [] => true
  | e :: rest =>
    let digits := if rest.head? = some '+' ∨ rest.head? = some '-' then rest.tail else rest
    (e = 'e' || e = 'E') && digits ≠ [] && digits.all Char.isDigit

def isNumber (text : List Char) : Bool :=
  let unsigned := if text.head? = some '-' then text.tail else text
  let whole := unsigned.takeWhile Char.isDigit
  whole ≠ [] && (whole.head? ≠ some '0' || whole.length = 1) && isTail (unsigned.dropWhile Char.isDigit)

/-- A word or a number. -/
def readScalar (readNumber : List Char → Option ν) (text : List Char) : Option (Value ν × List Char) :=
  if "null".toList <+: text then some (.null, text.drop 4)
  else if "true".toList <+: text then some (.bool true, text.drop 4)
  else if "false".toList <+: text then some (.bool false, text.drop 5)
  else
    let lexeme := text.takeWhile isNumberChar
    if isNumber lexeme then (readNumber lexeme).map fun n => (.number n, text.dropWhile isNumberChar)
    else none

mutual

def readValue (readNumber : List Char → Option ν) : ℕ → List Char → Option (Value ν × List Char)
  | 0, _ => none
  | fuel + 1, text =>
    if text.head? = some '"' then (readString text).map fun p => (.string p.1, p.2)
    else if text.head? = some '[' then
      let rest := skip text.tail
      if rest.head? = some ']' then some (.array [], rest.tail)
      else (readItems readNumber fuel rest).map fun p => (.array p.1, p.2)
    else if text.head? = some '\x7b' then
      let rest := skip text.tail
      if rest.head? = some '\x7d' then some (.object [], rest.tail)
      else (readFields readNumber fuel rest).map fun p => (.object p.1, p.2)
    else readScalar readNumber text

def readItems (readNumber : List Char → Option ν) : ℕ → List Char → Option (List (Value ν) × List Char)
  | 0, _ => none
  | fuel + 1, text => do
    let item ← readValue readNumber fuel text
    let rest := skip item.2
    if rest.head? = some ',' then do
      let items ← readItems readNumber fuel (skip rest.tail)
      some (item.1 :: items.1, items.2)
    else if rest.head? = some ']' then some ([item.1], rest.tail)
    else none

def readFields (readNumber : List Char → Option ν) :
    ℕ → List Char → Option (List (List Char × Value ν) × List Char)
  | 0, _ => none
  | fuel + 1, text => do
    let key ← readString text
    let rest := skip key.2
    if rest.head? = some ':' then do
      let value ← readValue readNumber fuel (skip rest.tail)
      let rest := skip value.2
      if rest.head? = some ',' then do
        let fields ← readFields readNumber fuel (skip rest.tail)
        some ((key.1, value.1) :: fields.1, fields.2)
      else if rest.head? = some '\x7d' then some ([(key.1, value.1)], rest.tail)
      else none
    else none

end

/-- The value of a text. -/
def decode (readNumber : List Char → Option ν) (text : List Char) : Option (Value ν) := do
  let value ← readValue readNumber (2 * text.length + 2) (skip text)
  if skip value.2 = [] then some value.1 else none

example : readString "\"a\\u003c\\ud83d\\ude00\", 1".toList = some ("a<😀".toList, ", 1".toList) := by decide

/-! ### Escaping keeps what is read -/

def escape (text : List Char) : List Char := text.flatMap escaped

/-- The characters that are escaped. -/
def special : List Char := ['<', '>', '&', '\u2028', '\u2029']

variable {c d : Char} {text rest word : List Char} {readNumber : List Char → Option ν}

theorem forall_special {P : Char → Prop} (hless : P '<') (hgreater : P '>') (hand : P '&')
    (hline : P '\u2028') (hparagraph : P '\u2029') : ∀ c ∈ special, P c := by
  intro c hc
  unfold special at hc
  simp only [List.mem_cons, List.not_mem_nil, or_false] at hc
  rcases hc with rfl | rfl | rfl | rfl | rfl <;> assumption

/-- Neither escaped nor a backslash. -/
def isKept (c : Char) : Bool := !special.contains c && c != '\\'

theorem of_isKept (h : isKept c = true) : c ∉ special ∧ c ≠ '\\' := by
  unfold isKept at h
  rw [Bool.and_eq_true, Bool.not_eq_true', bne_iff_ne] at h
  refine ⟨?_, h.2⟩
  intro hc
  rw [List.contains_iff_mem.mpr hc] at h
  exact Bool.noConfusion h.1

theorem escape_cons (c : Char) (text : List Char) : escape (c :: text) = escaped c ++ escape text :=
  List.flatMap_cons

theorem escaped_of_notMem (h : c ∉ special) : escaped c = [c] := by
  unfold special at h
  simp only [List.mem_cons, List.not_mem_nil, or_false, not_or] at h
  obtain ⟨hless, hgreater, hand, hline, hparagraph⟩ := h
  unfold escaped
  rw [if_neg hless, if_neg hgreater, if_neg hand, if_neg hline, if_neg hparagraph]

theorem escape_cons_of_notMem (h : c ∉ special) (text : List Char) :
    escape (c :: text) = c :: escape text := by
  rw [escape_cons, escaped_of_notMem h, List.singleton_append]

/-- An escaped character is a backslash and what is read back as the character. -/
theorem escaped_of_mem (h : c ∈ special) :
    ∃ tail, escaped c = '\\' :: tail ∧ ∀ rest, readEscape (tail ++ rest) = some (c, rest) := by
  apply forall_special _ _ _ _ _ c h
  · exact ⟨"u003c".toList, rfl, fun rest => rfl⟩
  · exact ⟨"u003e".toList, rfl, fun rest => rfl⟩
  · exact ⟨"u0026".toList, rfl, fun rest => rfl⟩
  · exact ⟨"u2028".toList, rfl, fun rest => rfl⟩
  · exact ⟨"u2029".toList, rfl, fun rest => rfl⟩

theorem backslash_notMem : '\\' ∉ special := by decide

/-- A character that is neither escaped nor a backslash begins a text as before. -/
theorem head?_escape (hd : d ∉ special) (hback : d ≠ '\\') :
    (escape text).head? = some d ↔ text.head? = some d := by
  cases text with
  | nil => exact Iff.rfl
  | cons c text =>
    by_cases hc : c ∈ special
    · obtain ⟨tail, htail, -⟩ := escaped_of_mem hc
      rw [escape_cons, htail, List.cons_append, List.head?_cons, List.head?_cons, Option.some_inj,
        Option.some_inj]
      constructor
      · exact fun h => absurd h.symm hback
      · rintro rfl
        exact absurd hc hd
    · rw [escape_cons_of_notMem hc]
      exact Iff.rfl

theorem tail_escape (hd : d ∉ special) (h : text.head? = some d) :
    (escape text).tail = escape text.tail := by
  obtain ⟨rest, rfl⟩ := List.head?_eq_some_iff.mp h
  rw [escape_cons_of_notMem hd]
  rfl

/-- Characters of a kind that has none of the escaped ones and no backslash. -/
theorem takeWhile_escape {p : Char → Bool} (hp : ∀ c ∈ special, p c = false) (hback : p '\\' = false)
    (text : List Char) : (escape text).takeWhile p = text.takeWhile p ∧
      (escape text).dropWhile p = escape (text.dropWhile p) := by
  induction text with
  | nil => exact ⟨rfl, rfl⟩
  | cons c text ih =>
    by_cases hc : c ∈ special
    · obtain ⟨tail, htail, -⟩ := escaped_of_mem hc
      have hpc := hp c hc
      have hescape : escape (c :: text) = '\\' :: (tail ++ escape text) := by
        rw [escape_cons, htail, List.cons_append]
      rw [hescape, List.takeWhile_cons_of_neg (by simp [hback]),
        List.dropWhile_cons_of_neg (by simp [hback]), List.takeWhile_cons_of_neg (by simp [hpc]),
        List.dropWhile_cons_of_neg (by simp [hpc]), hescape]
      exact ⟨rfl, rfl⟩
    · rw [escape_cons_of_notMem hc]
      by_cases hpc : p c = true
      · rw [List.takeWhile_cons_of_pos hpc, List.dropWhile_cons_of_pos hpc,
          List.takeWhile_cons_of_pos hpc, List.dropWhile_cons_of_pos hpc, ih.1]
        exact ⟨rfl, ih.2⟩
      · rw [List.takeWhile_cons_of_neg hpc, List.dropWhile_cons_of_neg hpc,
          List.takeWhile_cons_of_neg hpc, List.dropWhile_cons_of_neg hpc, escape_cons_of_notMem hc]
        exact ⟨rfl, rfl⟩

theorem skip_escape (text : List Char) : skip (escape text) = escape (skip text) :=
  (takeWhile_escape (forall_special rfl rfl rfl rfl rfl) rfl text).2

/-- A plain word begins a text as before. -/
theorem prefix_escape (hword : word.all isKept = true) (text : List Char) :
    (word <+: escape text ↔ word <+: text) ∧
      (word <+: text → (escape text).drop word.length = escape (text.drop word.length)) := by
  induction word generalizing text with
  | nil => exact ⟨by simp, fun _ => rfl⟩
  | cons d word ih =>
    rw [List.all_cons, Bool.and_eq_true] at hword
    obtain ⟨hd, hback⟩ := of_isKept hword.1
    cases text with
    | nil => exact ⟨Iff.rfl, fun _ => rfl⟩
    | cons c text =>
      by_cases hc : c ∈ special
      · obtain ⟨tail, htail, -⟩ := escaped_of_mem hc
        have hne : d ≠ c := by
          rintro rfl
          exact hd hc
        rw [escape_cons, htail, List.cons_append, List.cons_prefix_cons, List.cons_prefix_cons]
        exact ⟨⟨fun h => absurd h.1 hback, fun h => absurd h.1 hne⟩, fun h => absurd h.1 hne⟩
      · rw [escape_cons_of_notMem hc, List.cons_prefix_cons, List.cons_prefix_cons, (ih hword.2 text).1]
        exact ⟨Iff.rfl, fun h => (ih hword.2 text).2 h.2⟩

theorem length_le_escape (text : List Char) : text.length ≤ (escape text).length := by
  induction text with
  | nil => exact le_rfl
  | cons c text ih =>
    have hpos : 1 ≤ (escaped c).length := by
      by_cases hc : c ∈ special
      · obtain ⟨tail, htail, -⟩ := escaped_of_mem hc
        rw [htail, List.length_cons]
        omega
      · rw [escaped_of_notMem hc]
        exact le_rfl
    rw [escape_cons, List.length_append, List.length_cons]
    omega

/-! ### Strings -/

theorem hex_notMem {n : ℕ} (h : UrlQuery.hexValue c = some n) : c ∉ special := by
  intro hc
  have hnone := @forall_special (fun c => UrlQuery.hexValue c = none) rfl rfl rfl rfl rfl
  rw [hnone c hc] at h
  cases h

theorem readUnit_escape {unit : ℕ × List Char} (h : readUnit text = some unit) :
    readUnit (escape text) = some (unit.1, escape unit.2) := by
  unfold readUnit at h
  split at h
  · next a b c d rest =>
    obtain ⟨na, ha, h⟩ := Option.bind_eq_some_iff.mp h
    obtain ⟨nb, hb, h⟩ := Option.bind_eq_some_iff.mp h
    obtain ⟨nc, hc, h⟩ := Option.bind_eq_some_iff.mp h
    obtain ⟨nd, hd, h⟩ := Option.bind_eq_some_iff.mp h
    rw [← Option.some.inj h, escape_cons_of_notMem (hex_notMem ha), escape_cons_of_notMem (hex_notMem hb),
      escape_cons_of_notMem (hex_notMem hc), escape_cons_of_notMem (hex_notMem hd)]
    simp [readUnit, ha, hb, hc, hd]
  · cases h

theorem readLow_escape {high : ℕ} {low : Char × List Char} (h : readLow high text = some low) :
    readLow high (escape text) = some (low.1, escape low.2) := by
  unfold readLow at h
  split at h
  · next rest =>
    obtain ⟨unit, hunit, h⟩ := Option.bind_eq_some_iff.mp h
    rw [escape_cons_of_notMem backslash_notMem, escape_cons_of_notMem (of_isKept rfl).1]
    split at h
    · next hlow =>
      rw [← Option.some.inj h]
      simp [readLow, readUnit_escape hunit, hlow]
    · cases h
  · cases h

theorem letter_notMem {meant : Char} (h : letters.lookup c = some meant) : c ∉ special := by
  intro hc
  have hnone := @forall_special (fun c => letters.lookup c = none) rfl rfl rfl rfl rfl
  rw [hnone c hc] at h
  cases h

theorem readEscape_escape {first : Char × List Char} (h : readEscape text = some first) :
    readEscape (escape text) = some (first.1, escape first.2) := by
  unfold readEscape at h
  split at h
  · next rest =>
    obtain ⟨unit, hunit, h⟩ := Option.bind_eq_some_iff.mp h
    rw [escape_cons_of_notMem (of_isKept rfl).1]
    split at h
    · next hplain =>
      rw [← Option.some.inj h]
      simp [readEscape, readUnit_escape hunit, hplain]
    · next hplain =>
      split at h
      · next hhigh =>
        simp [readEscape, readUnit_escape hunit, hplain, hhigh, readLow_escape h]
      · cases h
  · next c rest hne =>
    obtain ⟨meant, hmeant, rfl⟩ := Option.map_eq_some_iff.mp h
    rw [escape_cons_of_notMem (letter_notMem hmeant)]
    unfold readEscape
    split
    · next heq => exact absurd (List.cons.inj heq).1 hne
    · next heq =>
      obtain ⟨rfl, rfl⟩ := List.cons.inj heq
      rw [hmeant, Option.map_some]
    · next heq => cases heq
  · cases h

theorem readChars_escape {fuel fuel' : ℕ} {chars : List Char × List Char} (hle : fuel ≤ fuel')
    (h : readChars fuel text = some chars) :
    readChars fuel' (escape text) = some (chars.1, escape chars.2) := by
  induction fuel generalizing fuel' text chars with
  | zero => cases h
  | succ fuel ih =>
    obtain ⟨fuel', rfl⟩ : ∃ n, fuel' = n + 1 := ⟨fuel' - 1, by omega⟩
    have hle' : fuel ≤ fuel' := Nat.le_of_succ_le_succ hle
    cases text with
    | nil => cases h
    | cons c rest =>
      unfold readChars at h
      split_ifs at h with hquote hback hlow
      · rw [← Option.some.inj h, hquote, escape_cons_of_notMem (of_isKept rfl).1]
        rfl
      · obtain ⟨first, hfirst, h⟩ := Option.bind_eq_some_iff.mp h
        obtain ⟨text, htext, h⟩ := Option.bind_eq_some_iff.mp h
        rw [← Option.some.inj h, hback, escape_cons_of_notMem backslash_notMem]
        simp [readChars, readEscape_escape hfirst, ih hle' htext]
      · obtain ⟨text, htext, h⟩ := Option.bind_eq_some_iff.mp h
        rw [← Option.some.inj h]
        by_cases hc : c ∈ special
        · obtain ⟨tail, htail, hread⟩ := escaped_of_mem hc
          rw [escape_cons, htail, List.cons_append]
          simp [readChars, hread, ih hle' htext]
        · rw [escape_cons_of_notMem hc]
          simp [readChars, hquote, hback, hlow, ih hle' htext]

theorem quote_notMem : '"' ∉ special ∧ '"' ≠ '\\' := of_isKept rfl

theorem readString_eq (text : List Char) : readString text =
    if text.head? = some '"' then readChars (text.tail.length + 1) text.tail else none := by
  unfold readString
  split
  · rfl
  · next hne =>
    apply (if_neg ?_).symm
    intro h
    obtain ⟨rest, rfl⟩ := List.head?_eq_some_iff.mp h
    exact hne rest rfl

theorem readString_escape {chars : List Char × List Char} (h : readString text = some chars) :
    readString (escape text) = some (chars.1, escape chars.2) := by
  rw [readString_eq] at h ⊢
  split at h
  · next hquote =>
    rw [if_pos ((head?_escape quote_notMem.1 quote_notMem.2).mpr hquote), tail_escape quote_notMem.1 hquote]
    exact readChars_escape (Nat.succ_le_succ (length_le_escape _)) h
  · cases h

/-! ### Values -/

theorem readScalar_escape {value : Value ν × List Char} (h : readScalar readNumber text = some value) :
    readScalar readNumber (escape text) = some (value.1, escape value.2) := by
  obtain ⟨hnull, hafterNull⟩ := @prefix_escape "null".toList rfl text
  obtain ⟨htrue, hafterTrue⟩ := @prefix_escape "true".toList rfl text
  obtain ⟨hfalse, hafterFalse⟩ := @prefix_escape "false".toList rfl text
  obtain ⟨hlexeme, hrest⟩ := @takeWhile_escape isNumberChar (forall_special rfl rfl rfl rfl rfl) rfl text
  unfold readScalar at h ⊢
  simp only [hnull, htrue, hfalse, hlexeme, hrest] at h ⊢
  split_ifs at h ⊢ with hisNull hisTrue hisFalse hnumber
  · rw [← Option.some.inj h]
    exact congrArg (fun rest => some (Value.null, rest)) (hafterNull hisNull)
  · rw [← Option.some.inj h]
    exact congrArg (fun rest => some (Value.bool true, rest)) (hafterTrue hisTrue)
  · rw [← Option.some.inj h]
    exact congrArg (fun rest => some (Value.bool false, rest)) (hafterFalse hisFalse)
  · obtain ⟨n, hn, rfl⟩ := Option.map_eq_some_iff.mp h
    rw [hn, Option.map_some]

/-- Spaces go as before, and so does a mark behind them. -/
theorem mark_escape (hd : d ∉ special ∧ d ≠ '\\') (text : List Char) :
    ((skip (escape text)).head? = some d ↔ (skip text).head? = some d) ∧
      ((skip text).head? = some d → (skip (escape text)).tail = escape (skip text).tail) := by
  rw [skip_escape]
  exact ⟨head?_escape hd.1 hd.2, tail_escape hd.1⟩

/-- Escaping keeps what the readers of this fuel read, with any more fuel. -/
structure Kept (readNumber : List Char → Option ν) (fuel fuel' : ℕ) : Prop where
  value : ∀ text value, readValue readNumber fuel text = some value →
    readValue readNumber fuel' (escape text) = some (value.1, escape value.2)
  items : ∀ text items, readItems readNumber fuel text = some items →
    readItems readNumber fuel' (escape text) = some (items.1, escape items.2)
  fields : ∀ text fields, readFields readNumber fuel text = some fields →
    readFields readNumber fuel' (escape text) = some (fields.1, escape fields.2)

theorem comma_mark : ',' ∉ special ∧ ',' ≠ '\\' := of_isKept rfl

theorem colon_mark : ':' ∉ special ∧ ':' ≠ '\\' := of_isKept rfl

theorem bracket_mark : ']' ∉ special ∧ ']' ≠ '\\' := of_isKept rfl

theorem brace_mark : '\x7d' ∉ special ∧ '\x7d' ≠ '\\' := of_isKept rfl

theorem Kept.value_succ {fuel fuel' : ℕ} (h : Kept readNumber fuel fuel') {value : Value ν × List Char}
    (hread : readValue readNumber (fuel + 1) text = some value) :
    readValue readNumber (fuel' + 1) (escape text) = some (value.1, escape value.2) := by
  have hquote := @head?_escape '"' text (of_isKept rfl).1 (of_isKept rfl).2
  have hopen := @head?_escape '[' text (of_isKept rfl).1 (of_isKept rfl).2
  have hbrace := @head?_escape '\x7b' text (of_isKept rfl).1 (of_isKept rfl).2
  rw [readValue] at hread ⊢
  by_cases hisString : text.head? = some '"'
  · rw [if_pos hisString] at hread
    rw [if_pos (hquote.mpr hisString)]
    obtain ⟨chars, hchars, rfl⟩ := Option.map_eq_some_iff.mp hread
    rw [readString_escape hchars, Option.map_some]
  · rw [if_neg hisString] at hread
    rw [if_neg (mt hquote.mp hisString)]
    by_cases hisArray : text.head? = some '['
    · rw [if_pos hisArray] at hread
      rw [if_pos (hopen.mpr hisArray), tail_escape (of_isKept rfl).1 hisArray]
      obtain ⟨hclose, hbehind⟩ := mark_escape bracket_mark text.tail
      dsimp only at hread ⊢
      by_cases hempty : (skip text.tail).head? = some ']'
      · rw [if_pos hempty] at hread
        rw [if_pos (hclose.mpr hempty), hbehind hempty, ← Option.some.inj hread]
      · rw [if_neg hempty] at hread
        obtain ⟨items, hitems, rfl⟩ := Option.map_eq_some_iff.mp hread
        rw [if_neg (mt hclose.mp hempty), skip_escape, h.items _ _ hitems, Option.map_some]
    · rw [if_neg hisArray] at hread
      rw [if_neg (mt hopen.mp hisArray)]
      by_cases hisObject : text.head? = some '\x7b'
      · rw [if_pos hisObject] at hread
        rw [if_pos (hbrace.mpr hisObject), tail_escape (of_isKept rfl).1 hisObject]
        obtain ⟨hclose, hbehind⟩ := mark_escape brace_mark text.tail
        dsimp only at hread ⊢
        by_cases hempty : (skip text.tail).head? = some '\x7d'
        · rw [if_pos hempty] at hread
          rw [if_pos (hclose.mpr hempty), hbehind hempty, ← Option.some.inj hread]
        · rw [if_neg hempty] at hread
          obtain ⟨fields, hfields, rfl⟩ := Option.map_eq_some_iff.mp hread
          rw [if_neg (mt hclose.mp hempty), skip_escape, h.fields _ _ hfields, Option.map_some]
      · rw [if_neg hisObject] at hread
        rw [if_neg (mt hbrace.mp hisObject)]
        exact readScalar_escape hread

theorem Kept.items_succ {fuel fuel' : ℕ} (h : Kept readNumber fuel fuel')
    {items : List (Value ν) × List Char} (hread : readItems readNumber (fuel + 1) text = some items) :
    readItems readNumber (fuel' + 1) (escape text) = some (items.1, escape items.2) := by
  rw [readItems] at hread ⊢
  obtain ⟨item, hitem, hread⟩ := Option.bind_eq_some_iff.mp hread
  obtain ⟨hcomma, hmore⟩ := mark_escape comma_mark item.2
  obtain ⟨hclose, hbehind⟩ := mark_escape bracket_mark item.2
  rw [h.value _ _ hitem, Option.bind_eq_bind, Option.bind_some]
  dsimp only at hread ⊢
  by_cases hisComma : (skip item.2).head? = some ','
  · rw [if_pos hisComma] at hread
    obtain ⟨rest, hrest, hread⟩ := Option.bind_eq_some_iff.mp hread
    rw [if_pos (hcomma.mpr hisComma), hmore hisComma, skip_escape, h.items _ _ hrest,
      Option.bind_eq_bind, Option.bind_some, ← Option.some.inj hread]
  · rw [if_neg hisComma] at hread
    rw [if_neg (mt hcomma.mp hisComma)]
    by_cases hisClose : (skip item.2).head? = some ']'
    · rw [if_pos hisClose] at hread
      rw [if_pos (hclose.mpr hisClose), hbehind hisClose, ← Option.some.inj hread]
    · rw [if_neg hisClose] at hread
      cases hread

theorem Kept.fields_succ {fuel fuel' : ℕ} (h : Kept readNumber fuel fuel')
    {fields : List (List Char × Value ν) × List Char}
    (hread : readFields readNumber (fuel + 1) text = some fields) :
    readFields readNumber (fuel' + 1) (escape text) = some (fields.1, escape fields.2) := by
  rw [readFields] at hread ⊢
  obtain ⟨key, hkey, hread⟩ := Option.bind_eq_some_iff.mp hread
  obtain ⟨hcolon, hvalue⟩ := mark_escape colon_mark key.2
  rw [readString_escape hkey, Option.bind_eq_bind, Option.bind_some]
  dsimp only at hread ⊢
  by_cases hisColon : (skip key.2).head? = some ':'
  · rw [if_pos hisColon] at hread
    obtain ⟨value, hread', hread⟩ := Option.bind_eq_some_iff.mp hread
    obtain ⟨hcomma, hmore⟩ := mark_escape comma_mark value.2
    obtain ⟨hclose, hbehind⟩ := mark_escape brace_mark value.2
    rw [if_pos (hcolon.mpr hisColon), hvalue hisColon, skip_escape, h.value _ _ hread',
      Option.bind_eq_bind, Option.bind_some]
    dsimp only at hread ⊢
    by_cases hisComma : (skip value.2).head? = some ','
    · rw [if_pos hisComma] at hread
      obtain ⟨rest, hrest, hread⟩ := Option.bind_eq_some_iff.mp hread
      rw [if_pos (hcomma.mpr hisComma), hmore hisComma, skip_escape, h.fields _ _ hrest,
        Option.bind_eq_bind, Option.bind_some, ← Option.some.inj hread]
    · rw [if_neg hisComma] at hread
      rw [if_neg (mt hcomma.mp hisComma)]
      by_cases hisClose : (skip value.2).head? = some '\x7d'
      · rw [if_pos hisClose] at hread
        rw [if_pos (hclose.mpr hisClose), hbehind hisClose, ← Option.some.inj hread]
      · rw [if_neg hisClose] at hread
        cases hread
  · rw [if_neg hisColon] at hread
    cases hread

theorem kept (fuel : ℕ) : ∀ fuel', fuel ≤ fuel' → Kept readNumber fuel fuel' := by
  induction fuel with
  | zero =>
    intro fuel' _
    refine ⟨?_, ?_, ?_⟩
    · intro text value h
      rw [readValue] at h
      cases h
    · intro text items h
      rw [readItems] at h
      cases h
    · intro text fields h
      rw [readFields] at h
      cases h
  | succ fuel ih =>
    intro fuel' hle
    obtain ⟨fuel', rfl⟩ : ∃ n, fuel' = n + 1 := ⟨fuel' - 1, by omega⟩
    have h := ih fuel' (Nat.le_of_succ_le_succ hle)
    exact ⟨fun text value => h.value_succ, fun text items => h.items_succ, fun text fields => h.fields_succ⟩

theorem decode_escape {value : Value ν} (h : decode readNumber text = some value) :
    decode readNumber (escape text) = some value := by
  unfold decode at h ⊢
  obtain ⟨result, hresult, h⟩ := Option.bind_eq_some_iff.mp h
  have hlength := length_le_escape text
  have hread := (@kept _ readNumber (2 * text.length + 2) (2 * (escape text).length + 2)
    (by omega)).value _ _ hresult
  split at h
  · next hend =>
    rw [← Option.some.inj h, skip_escape, hread, Option.bind_eq_bind, Option.bind_some, skip_escape, hend]
    rfl
  · cases h

theorem notMem_escape (text : List Char) : ∀ c ∈ escape text, c ∉ special := by
  have hletters : ∀ c ∈ special, ((escaped c).all fun d => !special.contains d) = true :=
    forall_special rfl rfl rfl rfl rfl
  intro d hd
  obtain ⟨c, -, hd⟩ := List.mem_flatMap.mp hd
  by_cases hc : c ∈ special
  · have hd' := List.all_eq_true.mp (hletters c hc) d hd
    rw [Bool.not_eq_true'] at hd'
    intro hmem
    rw [List.contains_iff_mem.mpr hmem] at hd'
    cases hd'
  · rw [escaped_of_notMem hc, List.mem_singleton] at hd
    rwa [hd]

/-- Where the serialiser's text is the value's, so is the answer, and it has none of the characters
that are escaped. -/
theorem goJson_decodes {toText : Value ν → Option (List Char)} {value : Value ν} {written : List Char}
    (htext : toText value = some written) (hwritten : decode readNumber written = some value) :
    ∃ answer, goJson toText value = some (Utf8.encode answer) ∧ decode readNumber answer = some value ∧
      ∀ c ∈ answer, c ∉ special := by
  refine ⟨escape written, ?_, decode_escape hwritten, notMem_escape written⟩
  unfold goJson
  rw [htext, Option.map_some]
  rfl

theorem goJson_decodes_backslash :
    let toText : Value ℕ → Option (List Char) := fun _ => some "\"\\\\<\"".toList
    ∃ answer, goJson toText (.string ['\\', '<']) = some (Utf8.encode answer) ∧
      decode (fun _ => none) answer = some (.string ['\\', '<'] : Value ℕ) ∧
        ∀ c ∈ answer, c ∉ special :=
  goJson_decodes rfl rfl

end Rustorr.GoJson
