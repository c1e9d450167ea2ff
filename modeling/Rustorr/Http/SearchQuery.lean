import Rustorr.Http.Dlna
import Rustorr.Lib.Fallible
import Rustorr.Lib.Utf8Slice

/-! The query of a search (`search_api.rs`), which is decoded a second time, beside the decoding of the
media server's ids (`dlna/content.rs`). -/

namespace Rustorr.SearchQuery

open UrlQuery (hexValue byteOf blank percentDecode lossy)
open Dlna (isHexDigit checkEscapes)

/-- `u8::from_str_radix(text, 16)`, which reads a sign. -/
def fromStrRadix (text : List Char) : Option UInt8 :=
  let digits := if text.head? = some '+' then text.tail else text
  if digits = [] then none
  else (digits.mapM hexValue).bind fun values =>
    let n := values.foldl (fun n digit => n * 16 + digit) 0
    if n < 256 then some (UInt8.ofNat n) else none

theorem length_drop_lt (hex rest : List Char) : (rest.drop hex.length).length < rest.length + 1 := by
  rw [List.length_drop]
  omega

/-- The loop of `query_unescape`, with the bytes it pushes. -/
def decoded : List Char → Option (List UInt8)
  | [] => some []
  | c :: rest =>
    if c = '%' then do
      let hex ← Utf8Slice.slice rest 0 2
      let byte ← fromStrRadix hex
      (decoded (rest.drop hex.length)).map (byte :: ·)
    else if c = '+' then (decoded rest).map (0x20 :: ·)
    else (decoded rest).map (String.utf8EncodeChar c ++ ·)
termination_by text => text.length
decreasing_by
  · exact length_drop_lt _ _
  · exact Nat.lt_succ_self _
  · exact Nat.lt_succ_self _

def queryUnescape (text : List Char) : Option (List Char) := (decoded text).map lossy

/-- `search_query`: nothing where the second decoding fails. -/
def searchQuery (once : Option (List Char)) : List Char := (queryUnescape (once.getD [])).getD []

/-! ### What the two are meant to read -/

/-- Two characters follow every percent sign, and `ok` holds of them. -/
def Followed (ok : Char → Char → Prop) (text : List Char) : Prop :=
  ∀ front rest, text = front ++ '%' :: rest → ∃ a b tail, rest = a :: b :: tail ∧ ok a b

/-- Two hexadecimal digits follow every percent sign. -/
def Complete : List Char → Prop := Followed fun a b => isHexDigit a = true ∧ isHexDigit b = true

/-- A plus sign may stand for the first digit. -/
def Loose : List Char → Prop :=
  Followed fun a b => (isHexDigit a = true ∨ a = '+') ∧ isHexDigit b = true

/-- The bytes of a text: each escape is its byte, each plus sign outside of them a space. -/
inductive Reads : List Char → List UInt8 → Prop
  | nil : Reads [] []
  | escape {a b : Char} {byte : UInt8} {text : List Char} {bytes : List UInt8}
    (hbyte : byteOf a b = some byte) (h : Reads text bytes) : Reads ('%' :: a :: b :: text) (byte :: bytes)
  | plus {text : List Char} {bytes : List UInt8} (h : Reads text bytes) :
    Reads ('+' :: text) (0x20 :: bytes)
  | other {c : Char} {text : List Char} {bytes : List UInt8} (hpercent : c ≠ '%') (hplus : c ≠ '+')
    (h : Reads text bytes) : Reads (c :: text) (String.utf8EncodeChar c ++ bytes)

variable {ok : Char → Char → Prop} {a b c : Char} {text : List Char} {bytes : List UInt8}

theorem followed_nil : Followed ok [] := by
  intro front rest h
  exact absurd (congrArg List.length h) (by simp)

theorem followed_cons (hc : c ≠ '%') : Followed ok (c :: text) ↔ Followed ok text := by
  constructor
  · intro h front rest htext
    exact h (c :: front) rest (by rw [htext, List.cons_append])
  · intro h front rest htext
    cases front with
    | nil => exact absurd (List.cons.inj htext).1 hc
    | cons d front => exact h front rest (List.cons.inj htext).2

theorem followed_escape (hpercent : ∀ a b, ok a b → a ≠ '%' ∧ b ≠ '%') (hab : ok a b) :
    Followed ok ('%' :: a :: b :: text) ↔ Followed ok text := by
  obtain ⟨ha, hb⟩ := hpercent a b hab
  have hskip : Followed ok (a :: b :: text) ↔ Followed ok text :=
    (followed_cons ha).trans (followed_cons hb)
  rw [← hskip]
  constructor
  · intro h front rest htext
    exact h ('%' :: front) rest (by rw [htext, List.cons_append])
  · intro h front rest htext
    cases front with
    | nil => exact ⟨a, b, text, (List.cons.inj htext).2.symm, hab⟩
    | cons d front => exact h front rest (List.cons.inj htext).2

theorem not_followed (h : ∀ a b tail, text = a :: b :: tail → ¬ok a b) : ¬Followed ok ('%' :: text) := by
  intro hfollowed
  obtain ⟨a, b, tail, htext, hab⟩ := hfollowed [] text rfl
  exact h a b tail htext hab

theorem percent_not_hex : isHexDigit '%' = false := rfl

theorem complete_ne (a b : Char) (h : isHexDigit a = true ∧ isHexDigit b = true) : a ≠ '%' ∧ b ≠ '%' := by
  constructor
  · rintro rfl
    exact Bool.false_ne_true h.1
  · rintro rfl
    exact Bool.false_ne_true h.2

theorem loose_ne (a b : Char) (h : (isHexDigit a = true ∨ a = '+') ∧ isHexDigit b = true) :
    a ≠ '%' ∧ b ≠ '%' := by
  constructor
  · rintro rfl
    rcases h.1 with h | h
    · exact Bool.false_ne_true h
    · exact absurd h (by decide)
  · rintro rfl
    exact Bool.false_ne_true h.2

theorem byteOf_isSome : (∃ byte, byteOf a b = some byte) ↔ isHexDigit a = true ∧ isHexDigit b = true := by
  unfold byteOf isHexDigit
  cases hexValue a with
  | none => simp
  | some high =>
    cases hexValue b with
    | none => simp
    | some low => simp

theorem complete_of_reads (h : Reads text bytes) : Complete text := by
  induction h with
  | nil => exact followed_nil
  | escape hbyte h ih => exact (followed_escape complete_ne (byteOf_isSome.mp ⟨_, hbyte⟩)).mpr ih
  | plus h ih => exact (followed_cons (by decide)).mpr ih
  | other hpercent hplus h ih => exact (followed_cons hpercent).mpr ih

/-- The second decoder checks that a text is complete before it looks at the bytes. -/
theorem checkEscapes_spec (text : List Char) :
    (checkEscapes text = .ok () ∧ Complete text ∧ ∃ bytes, Reads text bytes) ∨
      ((∃ message, checkEscapes text = .error message) ∧ ¬Complete text) := by
  induction text using Dlna.checkEscapes.induct with
  | case1 a b rest hdigits ih =>
    rw [Bool.and_eq_true] at hdigits
    rw [checkEscapes, hdigits.1, hdigits.2]
    obtain ⟨byte, hbyte⟩ := byteOf_isSome.mpr hdigits
    rcases ih with ⟨hok, hcomplete, bytes, hreads⟩ | ⟨herror, hnot⟩
    · exact Or.inl ⟨hok, (followed_escape complete_ne hdigits).mpr hcomplete, _, .escape hbyte hreads⟩
    · exact Or.inr ⟨herror, fun h => hnot ((followed_escape complete_ne hdigits).mp h)⟩
  | case2 a b rest hdigits =>
    rw [checkEscapes, if_neg hdigits]
    refine Or.inr ⟨⟨_, rfl⟩, not_followed ?_⟩
    intro a' b' tail heq hab
    cases heq
    exact hdigits (Bool.and_eq_true _ _ ▸ hab)
  | case3 rest hshort =>
    have herror : ∃ message, checkEscapes ('%' :: rest) = .error message := by
      rw [checkEscapes]
      · exact ⟨_, rfl⟩
      · exact hshort
    exact Or.inr ⟨herror, not_followed fun a b tail heq _ => hshort a b tail heq⟩
  | case4 c rest hshort hc ih =>
    rw [checkEscapes]
    · have hfollowed := @followed_cons (fun a b => isHexDigit a = true ∧ isHexDigit b = true) c rest hc
      rcases ih with ⟨hok, hcomplete, bytes, hreads⟩ | ⟨herror, hnot⟩
      · refine Or.inl ⟨hok, hfollowed.mpr hcomplete, ?_⟩
        by_cases hplus : c = '+'
        · rw [hplus]
          exact ⟨_, .plus hreads⟩
        · exact ⟨_, .other hc hplus hreads⟩
      · exact Or.inr ⟨herror, fun h => hnot (hfollowed.mp h)⟩
    · exact hshort
    · exact hc
  | case5 => exact Or.inl ⟨rfl, followed_nil, [], .nil⟩

theorem blank_of_hex (h : isHexDigit c = true) : blank c = c := by
  apply if_neg
  rintro rfl
  exact Bool.false_ne_true h

theorem percentDecode_of_reads (h : Reads text bytes) : percentDecode (text.map blank) = bytes := by
  induction h with
  | nil => rfl
  | @escape a b byte text bytes hbyte h ih =>
    obtain ⟨ha, hb⟩ := byteOf_isSome.mp ⟨byte, hbyte⟩
    rw [List.map_cons, List.map_cons, List.map_cons, blank_of_hex ha, blank_of_hex hb]
    have hpercent : blank '%' = '%' := rfl
    rw [hpercent, percentDecode, hbyte]
    simp only [ih]
  | plus h ih =>
    have hplus : blank '+' = ' ' := rfl
    rw [List.map_cons, hplus, UrlQuery.percentDecode_cons_of_ne (by decide), ih]
    rfl
  | other hpercent hplus h ih =>
    rw [List.map_cons, blank, if_neg hplus, UrlQuery.percentDecode_cons_of_ne hpercent, ih]

/-- The media server's decoder is right on every text. -/
theorem dlna_queryUnescape_spec (text : List Char) :
    ((∃ unescaped, Dlna.queryUnescape text = .ok unescaped) ↔ Complete text) ∧
      ∀ bytes, Reads text bytes → Dlna.queryUnescape text = .ok (lossy bytes) := by
  unfold Dlna.queryUnescape UrlQuery.component
  rcases checkEscapes_spec text with ⟨hok, hcomplete, -⟩ | ⟨⟨message, herror⟩, hnot⟩
  · rw [hok]
    refine ⟨⟨fun _ => hcomplete, fun _ => ⟨_, rfl⟩⟩, ?_⟩
    intro bytes hreads
    rw [percentDecode_of_reads hreads]
    rfl
  · rw [herror]
    refine ⟨⟨?_, fun h => absurd h hnot⟩, fun bytes hreads => absurd (complete_of_reads hreads) hnot⟩
    rintro ⟨unescaped, h⟩
    cases h

/-! ### The search's decoder -/

theorem hexValue_lt {n : ℕ} (h : hexValue c = some n) : n < 16 := by
  have hle : ∀ {d : Char}, c ≤ d → c.toNat ≤ d.toNat := fun hc => UInt32.le_iff_toNat_le.mp hc
  unfold hexValue at h
  split_ifs at h with hdigit hlower hupper
  · have hnat := hle hdigit.2
    have hnine : '9'.toNat = 57 := rfl
    rw [Option.some_inj] at h
    omega
  · have hnat := hle hlower.2
    have hf : 'f'.toNat = 102 := rfl
    rw [Option.some_inj] at h
    omega
  · have hnat := hle hupper.2
    have hf : 'F'.toNat = 70 := rfl
    rw [Option.some_inj] at h
    omega

theorem utf8Size_of_first (h : isHexDigit c = true ∨ c = '+') : c.utf8Size = 1 := by
  rcases h with h | rfl
  · exact Utf8Slice.utf8Size_of_ascii (UrlQuery.isAscii_of_hexValue h)
  · rfl

theorem ne_plus_of_hex (h : isHexDigit c = true) : c ≠ '+' := by
  rintro rfl
  exact Bool.false_ne_true h

theorem fromStrRadix_of_byteOf {byte : UInt8} (h : byteOf a b = some byte) :
    fromStrRadix [a, b] = some byte := by
  have ha : a ≠ '+' := ne_plus_of_hex (byteOf_isSome.mp ⟨byte, h⟩).1
  unfold byteOf at h
  obtain ⟨high, hhigh, h⟩ := Option.bind_eq_some_iff.mp h
  obtain ⟨low, hlow, h⟩ := Option.map_eq_some_iff.mp h
  have hhighLt := hexValue_lt hhigh
  have hlowLt := hexValue_lt hlow
  have hsum : (0 * 16 + high) * 16 + low = 16 * high + low := by omega
  unfold fromStrRadix
  simp only [List.head?_cons, Option.some_inj, if_neg ha, List.mapM_cons, List.mapM_nil, hhigh, hlow]
  rw [if_neg (List.cons_ne_nil _ _)]
  simp only [Option.pure_def, Option.bind_eq_bind, Option.bind_some, List.foldl_cons, List.foldl_nil,
    hsum, h]
  exact if_pos (by omega)

theorem fromStrRadix_plus {n : ℕ} (h : hexValue b = some n) :
    fromStrRadix ['+', b] = some (UInt8.ofNat n) := by
  have hlt := hexValue_lt h
  have hsum : 0 * 16 + n = n := by omega
  unfold fromStrRadix
  simp only [List.head?_cons, ↓reduceIte, List.tail_cons, List.mapM_cons, List.mapM_nil, h]
  rw [if_neg (List.cons_ne_nil _ _)]
  simp only [Option.pure_def, Option.bind_eq_bind, Option.bind_some, List.foldl_cons, List.foldl_nil,
    hsum]
  exact if_pos (by omega)

/-- What is read as a number is digits behind the sign there may be. -/
theorem hex_of_fromStrRadix {hex : List Char} {byte : UInt8} (h : fromStrRadix hex = some byte) :
    (if hex.head? = some '+' then hex.tail else hex) ≠ [] ∧
      ∀ c ∈ if hex.head? = some '+' then hex.tail else hex, isHexDigit c = true := by
  unfold fromStrRadix at h
  simp only at h
  generalize (if hex.head? = some '+' then hex.tail else hex) = digits at *
  by_cases hnil : digits = []
  · rw [if_pos hnil] at h
    cases h
  · rw [if_neg hnil] at h
    obtain ⟨values, hvalues, -⟩ := Option.bind_eq_some_iff.mp h
    exact ⟨hnil, Option.isSome_of_mapM hvalues⟩

/-- A number of two bytes is two digits, or one behind a sign. -/
theorem fromStrRadix_spec {hex : List Char} (hsize : Utf8Slice.size hex = 2) :
    (∃ byte, fromStrRadix hex = some byte) ↔
      ∃ a b, hex = [a, b] ∧ (isHexDigit a = true ∨ a = '+') ∧ isHexDigit b = true := by
  constructor
  · rintro ⟨byte, h⟩
    obtain ⟨hne, hdigits⟩ := hex_of_fromStrRadix h
    have hall : ∀ c ∈ hex, isHexDigit c = true ∨ c = '+' := by
      intro c hc
      by_cases hplus : hex.head? = some '+'
      · rw [if_pos hplus] at hdigits
        obtain ⟨rest, rfl⟩ : ∃ rest, hex = '+' :: rest := List.head?_eq_some_iff.mp hplus
        rcases List.mem_cons.mp hc with rfl | hc
        · exact Or.inr rfl
        · exact Or.inl (hdigits c hc)
      · rw [if_neg hplus] at hdigits
        exact Or.inl (hdigits c hc)
    -- all of them take one byte, so there are two
    have hlength : hex.length = 2 := by
      rw [← hsize]
      exact (Utf8Slice.size_eq_length fun c hc => utf8Size_of_first (hall c hc)).symm
    obtain ⟨a, b, rfl⟩ := List.length_eq_two.mp hlength
    refine ⟨a, b, rfl, hall a List.mem_cons_self, ?_⟩
    by_cases hplus : a = '+'
    · rw [hplus] at hdigits
      exact hdigits b List.mem_cons_self
    · rw [List.head?_cons, if_neg fun h => hplus (Option.some.inj h)] at hdigits
      exact hdigits b (List.mem_cons_of_mem a List.mem_cons_self)
  · rintro ⟨a, b, rfl, ha | rfl, hb⟩
    · obtain ⟨byte, hbyte⟩ := byteOf_isSome.mpr ⟨ha, hb⟩
      exact ⟨byte, fromStrRadix_of_byteOf hbyte⟩
    · obtain ⟨n, hn⟩ := Option.isSome_iff_exists.mp hb
      exact ⟨_, fromStrRadix_plus hn⟩

theorem decoded_of_reads (h : Reads text bytes) : decoded text = some bytes := by
  induction h with
  | nil => rw [decoded]
  | @escape a b byte text bytes hbyte h ih =>
    obtain ⟨ha, hb⟩ := byteOf_isSome.mp ⟨byte, hbyte⟩
    have hslice : Utf8Slice.slice (a :: b :: text) 0 2 = some [a, b] := by
      have h := Utf8Slice.slice_append [] [a, b] text
      rwa [List.nil_append, Utf8Slice.size_cons, Utf8Slice.size_cons, utf8Size_of_first (Or.inl ha),
        utf8Size_of_first (Or.inl hb)] at h
    have hdrop : (a :: b :: text).drop [a, b].length = text := rfl
    rw [decoded, if_pos rfl, hslice, Option.bind_eq_bind, Option.bind_some, fromStrRadix_of_byteOf hbyte,
      Option.bind_eq_bind, Option.bind_some, hdrop, ih, Option.map_some]
  | plus h ih =>
    rw [decoded, if_neg (by decide), if_pos rfl, ih, Option.map_some]
  | other hpercent hplus h ih =>
    rw [decoded, if_neg hpercent, if_neg hplus, ih, Option.map_some]

theorem slice_two (ha : isHexDigit a = true ∨ a = '+') (hb : isHexDigit b = true) :
    Utf8Slice.slice (a :: b :: text) 0 2 = some [a, b] := by
  have h := Utf8Slice.slice_append [] [a, b] text
  rwa [List.nil_append, Utf8Slice.size_cons, Utf8Slice.size_cons, utf8Size_of_first ha,
    utf8Size_of_first (Or.inl hb)] at h

theorem exists_decoded (text : List Char) : (∃ bytes, decoded text = some bytes) ↔ Loose text := by
  induction hlength : text.length using Nat.strong_induction_on generalizing text with
  | _ n ih =>
    subst hlength
    cases text with
    | nil => exact ⟨fun _ => followed_nil, fun _ => ⟨[], by rw [decoded]⟩⟩
    | cons c rest =>
      rw [decoded]
      by_cases hc : c = '%'
      · rw [if_pos hc, hc]
        constructor
        · rintro ⟨bytes, h⟩
          obtain ⟨hex, hhex, h⟩ := Option.bind_eq_some_iff.mp h
          obtain ⟨byte, hbyte, h⟩ := Option.bind_eq_some_iff.mp h
          obtain ⟨bytes', hbytes, -⟩ := Option.map_eq_some_iff.mp h
          obtain ⟨a, b, rfl, hab⟩ := (fromStrRadix_spec (Utf8Slice.size_of_slice hhex)).mp ⟨byte, hbyte⟩
          obtain ⟨tail, rfl⟩ := Utf8Slice.append_of_slice hhex
          have htail := (ih tail.length (by simp; omega) tail rfl).mp ⟨bytes', hbytes⟩
          exact (followed_escape loose_ne hab).mpr htail
        · intro h
          obtain ⟨a, b, tail, rfl, hab⟩ := h [] rest rfl
          obtain ⟨byte, hbyte⟩ := (fromStrRadix_spec (by
            rw [Utf8Slice.size_cons, Utf8Slice.size_cons, utf8Size_of_first hab.1,
              utf8Size_of_first (Or.inl hab.2), Utf8Slice.size_nil])).mpr ⟨a, b, rfl, hab⟩
          obtain ⟨bytes, hbytes⟩ := (ih tail.length (by simp; omega) tail rfl).mpr
            ((followed_escape loose_ne hab).mp h)
          refine ⟨byte :: bytes, ?_⟩
          have hdrop : (a :: b :: tail).drop [a, b].length = tail := rfl
          rw [slice_two hab.1 hab.2, Option.bind_eq_bind, Option.bind_some, hbyte, Option.bind_eq_bind,
            Option.bind_some, hdrop, hbytes, Option.map_some]
      · have hrest := ih rest.length (by simp) rest rfl
        have hfollowed : Loose (c :: rest) ↔ Loose rest := followed_cons hc
        rw [if_neg hc, hfollowed, ← hrest]
        split <;> simp [Option.map_eq_some_iff]

/-! ### Where the two agree -/

/-- Both decoders take the complete texts and no others, and read them as they are meant. -/
def Meets (text : List Char) : Prop :=
  ((∃ unescaped, queryUnescape text = some unescaped) ↔ Complete text) ∧
  ((∃ unescaped, Dlna.queryUnescape text = .ok unescaped) ↔ Complete text) ∧
  (Complete text → ∃ bytes, Reads text bytes ∧ queryUnescape text = some (lossy bytes) ∧
    Dlna.queryUnescape text = .ok (lossy bytes))

theorem exists_queryUnescape (text : List Char) :
    (∃ unescaped, queryUnescape text = some unescaped) ↔ Loose text := by
  unfold queryUnescape
  rw [← exists_decoded]
  simp [Option.map_eq_some_iff]

theorem loose_of_complete (h : Complete text) : Loose text := by
  intro front rest htext
  obtain ⟨a, b, tail, hrest, ha, hb⟩ := h front rest htext
  exact ⟨a, b, tail, hrest, Or.inl ha, hb⟩

/-- The decoders agree but where a sign stands for a digit. -/
theorem decoders_meet_iff (text : List Char) : Meets text ↔ Complete text ∨ ¬Loose text := by
  obtain ⟨haccepts, hreads⟩ := dlna_queryUnescape_spec text
  unfold Meets
  rw [exists_queryUnescape]
  constructor
  · rintro ⟨hloose, -, -⟩
    by_cases h : Complete text
    · exact Or.inl h
    · exact Or.inr (mt hloose.mp h)
  · intro h
    refine ⟨⟨fun hloose => h.resolve_right fun hnot => hnot hloose, loose_of_complete⟩, haccepts, ?_⟩
    intro hcomplete
    rcases checkEscapes_spec text with ⟨-, -, bytes, hbytes⟩ | ⟨-, hnot⟩
    · refine ⟨bytes, hbytes, ?_, hreads bytes hbytes⟩
      unfold queryUnescape
      rw [decoded_of_reads hbytes, Option.map_some]
    · exact absurd hcomplete hnot

theorem decoded_sign : decoded ['%', '+', '5'] = some [5] := by
  have hnil : decoded [] = some [] := by rw [decoded]
  rw [decoded, if_pos rfl, slice_two (Or.inr rfl) rfl, Option.bind_eq_bind, Option.bind_some,
    fromStrRadix_plus (n := 5) rfl, Option.bind_eq_bind, Option.bind_some]
  exact congrArg (Option.map _) hnil

/-- A sign for the first digit is taken by the search alone. -/
theorem sign_for_digit : queryUnescape "%+5".toList = some [Char.ofNat 5] ∧
    Dlna.queryUnescape "%+5".toList = .error "invalid URL escape \"%+5\"".toList ∧
      ¬Meets "%+5".toList := by
  have htext : "%+5".toList = ['%', '+', '5'] := rfl
  have hsearch : queryUnescape "%+5".toList = some [Char.ofNat 5] := by
    unfold queryUnescape
    rw [htext, decoded_sign]
    decide
  refine ⟨hsearch, by decide, ?_⟩
  rintro ⟨haccepts, -, -⟩
  obtain ⟨a, b, tail, hrest, hdigit, -⟩ := haccepts.mp ⟨_, hsearch⟩ [] ['+', '5'] rfl
  cases hrest
  exact Bool.false_ne_true hdigit

end Rustorr.SearchQuery
