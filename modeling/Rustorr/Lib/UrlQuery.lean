import Rustorr.Lib.Text
import Rustorr.Lib.Trim
import Rustorr.Lib.Utf8
import Mathlib.Tactic.SplitIfs

/-! The query of a URL and its pairs, as the standard reads them: what stands between `?` and `#`,
cut at `&` and at the first `=`, with `+` for a blank and triplets for bytes. -/

namespace UrlQuery

/-- Of an ASCII text each character is a byte. -/
def asciiCount (s : List Char) : ℕ := s.countP (· < '\x80')

/-- How many of its ASCII characters `p` holds of. -/
def markCount (p : Char → Bool) (s : List Char) : ℕ := s.countP fun c => c < '\x80' && p c

def markBytes (p : Char → Bool) (bytes : List UInt8) : ℕ :=
  bytes.countP fun b => b < 0x80 && p (Char.ofNat b.toNat)

def hexValue (c : Char) : Option ℕ :=
  if '0' ≤ c ∧ c ≤ '9' then some (c.toNat - 48)
  else if 'a' ≤ c ∧ c ≤ 'f' then some (c.toNat - 87)
  else if 'A' ≤ c ∧ c ≤ 'F' then some (c.toNat - 55)
  else none

/-- The byte that two digits name. -/
def byteOf (a b : Char) : Option UInt8 :=
  (hexValue a).bind fun high => (hexValue b).map fun low => UInt8.ofNat (16 * high + low)

def percentDecode : List Char → List UInt8
  | '%' :: a :: b :: rest =>
    match byteOf a b with
    | some byte => byte :: percentDecode rest
    | none => 0x25 :: percentDecode (a :: b :: rest)
  | c :: rest => String.utf8EncodeChar c ++ percentDecode rest
  | [] => []

/-- Somewhere two digits follow a `%`. -/
def hasTriplet : List Char → Bool
  | '%' :: a :: b :: rest => (byteOf a b).isSome || hasTriplet (a :: b :: rest)
  | _ :: rest => hasTriplet rest
  | [] => false

def blank (c : Char) : Char := if c = '+' then ' ' else c

/-- `String::from_utf8_lossy`. -/
def lossy (bytes : List UInt8) : List Char :=
  (Utf8.decode bytes).getD (Utf8.decodeLossy bytes.length bytes)

/-- A key or a value, decoded. -/
def component (part : List Char) : List Char := lossy (percentDecode (part.map blank))

def pairs (query : List Char) : List (List Char × List Char) :=
  ((query.splitOn '&').filter (· ≠ [])).map fun part =>
    let pair := (Text.splitOnce '=' part).getD (part, [])
    (component pair.1, component pair.2)

def isC0OrSpace (c : Char) : Bool := c ≤ ' '

def isTabOrNewline (c : Char) : Bool := c = '\t' || c = '\n' || c = '\r'

/-- What a parser of URLs takes off before it looks at a text. -/
def strip (text : List Char) : List Char :=
  ((text.dropWhile isC0OrSpace).rdropWhile isC0OrSpace).filter fun c => !isTabOrNewline c

/-- The query of a URL. -/
def ofUrl (url : List Char) : List Char :=
  ((((strip url).takeWhile (· ≠ '#')).dropWhile (· ≠ '?')).drop 1)

/-! ### Decoding -/

variable {p : Char → Bool}

theorem markBytes_append (a b : List UInt8) :
    markBytes p (a ++ b) = markBytes p a + markBytes p b := List.countP_append

theorem markCount_append (a b : List Char) :
    markCount p (a ++ b) = markCount p a + markCount p b := List.countP_append

theorem asciiCount_append (a b : List Char) :
    asciiCount (a ++ b) = asciiCount a + asciiCount b := List.countP_append

/-- Counting all of them. -/
theorem asciiCount_eq (s : List Char) : asciiCount s = markCount (fun _ => true) s := by
  unfold asciiCount markCount
  simp only [Bool.and_true]

theorem markBytes_of_forall {bytes : List UInt8} (h : ∀ b ∈ bytes, 0x80 ≤ b) :
    markBytes p bytes = 0 := by
  unfold markBytes
  rw [List.countP_eq_zero]
  intro b hb
  rw [Bool.and_eq_true, decide_eq_true_eq, not_and]
  exact fun hlt => absurd hlt (UInt8.not_lt.mpr (h b hb))

theorem lt_iff_val_le (c : Char) : (c < '\x80') ↔ c.val.toNat ≤ 0x7f := by
  rw [Char.lt_def, UInt32.lt_iff_toNat_lt]
  exact Nat.lt_succ_iff

/-- A character is one byte, or none of its bytes is ASCII. -/
theorem markBytes_utf8EncodeChar (c : Char) :
    markBytes p (String.utf8EncodeChar c) = markCount p [c] := by
  rcases Utf8.utf8EncodeChar_cases c with ⟨hle, heq⟩ | ⟨hlt, hall⟩
  · have hnat : (UInt8.ofNat c.val.toNat).toNat = c.val.toNat := by
      rw [UInt8.toNat_ofNat', Nat.mod_eq_of_lt (by omega)]
    have hbyte : UInt8.ofNat c.val.toNat < 0x80 := by
      rw [UInt8.lt_iff_toNat_lt, hnat]
      exact Nat.lt_succ_of_le hle
    have hchar : Char.ofNat (UInt8.ofNat c.val.toNat).toNat = c := by
      rw [hnat]
      exact Char.ofNat_toNat c
    unfold markBytes markCount
    rw [heq, List.countP_singleton, List.countP_singleton, hchar, decide_eq_true hbyte,
      decide_eq_true ((lt_iff_val_le c).mpr hle)]
  · rw [markBytes_of_forall hall]
    unfold markCount
    rw [List.countP_singleton, decide_eq_false (mt (lt_iff_val_le c).mp (not_le.mpr hlt)),
      Bool.false_and]
    rfl

theorem markBytes_encode (s : List Char) : markBytes p (Utf8.encode s) = markCount p s := by
  induction s with
  | nil => rfl
  | cons c s ih =>
    unfold Utf8.encode at ih ⊢
    rw [List.flatMap_cons, markBytes_append, markBytes_utf8EncodeChar, ih,
      ← markCount_append, List.singleton_append]

theorem percentDecode_cons_of_ne {c : Char} (h : c ≠ '%') (s : List Char) :
    percentDecode (c :: s) = String.utf8EncodeChar c ++ percentDecode s := by
  rw [percentDecode]
  exact fun a b rest hc => absurd hc h

/-- A `%` that no two digits follow is itself. -/
theorem percentDecode_percent {s : List Char} (h : ∀ a b rest, s = a :: b :: rest → byteOf a b = none) :
    percentDecode ('%' :: s) = 0x25 :: percentDecode s := by
  match s with
  | [] => rfl
  | [a] => rfl
  | a :: b :: rest =>
    rw [percentDecode, h a b rest rfl]

theorem percentDecode_of_not_hasTriplet {s : List Char} (h : hasTriplet s = false) :
    percentDecode s = Utf8.encode s := by
  induction s using percentDecode.induct with
  | case1 a b rest byte hbyte ih =>
    rw [hasTriplet, hbyte] at h
    cases h
  | case2 a b rest hbyte ih =>
    rw [hasTriplet, hbyte, Option.isSome_none, Bool.false_or] at h
    rw [percentDecode, hbyte]
    simp only
    rw [ih h]
    rfl
  | case3 c rest hne ih =>
    rw [hasTriplet] at h
    · rw [percentDecode, ih h]
      · rfl
      · exact hne
    · exact hne
  | case4 => rfl

theorem hasTriplet_of_notMem {s : List Char} (h : '%' ∉ s) : hasTriplet s = false := by
  induction s with
  | nil => rfl
  | cons c s ih =>
    rw [hasTriplet]
    · exact ih fun hs => h (List.mem_cons_of_mem c hs)
    · intro a b rest hc _
      exact h (hc ▸ List.mem_cons_self)

theorem isAscii_of_hexValue {c : Char} (h : (hexValue c).isSome = true) : c < '\x80' := by
  have hle : ∀ d : Char, d < '\x80' → c ≤ d → c < '\x80' := fun d hd hc =>
    UInt32.lt_of_le_of_lt hc hd
  unfold hexValue at h
  split_ifs at h with hdigit hlower hupper
  · exact hle '9' (by decide) hdigit.2
  · exact hle 'f' (by decide) hlower.2
  · exact hle 'F' (by decide) hupper.2
  · cases h

theorem isAscii_of_byteOf {a b : Char} {byte : UInt8} (h : byteOf a b = some byte) :
    a < '\x80' ∧ b < '\x80' := by
  unfold byteOf at h
  obtain ⟨high, hhigh, h⟩ := Option.bind_eq_some_iff.mp h
  obtain ⟨low, hlow, -⟩ := Option.map_eq_some_iff.mp h
  exact ⟨isAscii_of_hexValue (hhigh ▸ rfl), isAscii_of_hexValue (hlow ▸ rfl)⟩

theorem markBytes_cons_of_le {b : UInt8} {bytes : List UInt8} (h : 0x80 ≤ b) :
    markBytes p (b :: bytes) = markBytes p bytes := by
  apply List.countP_cons_of_neg
  rw [Bool.and_eq_true, decide_eq_true_eq, not_and]
  exact fun hlt => absurd hlt (UInt8.not_lt.mpr h)

theorem markCount_cons_of_lt {c : Char} {s : List Char} (h : c < '\x80') (hp : p c = true) :
    markCount p (c :: s) = markCount p s + 1 :=
  List.countP_cons_of_pos (by rw [decide_eq_true h, hp]; rfl)

theorem asciiCount_cons_of_lt {c : Char} {s : List Char} (h : c < '\x80') :
    asciiCount (c :: s) = asciiCount s + 1 := List.countP_cons_of_pos (decide_eq_true h)

/-- A triplet is three marked characters and becomes one byte. -/
theorem markBytes_percentDecode (hpercent : p '%' = true)
    (hdigit : ∀ c, (hexValue c).isSome = true → p c = true) (s : List Char) :
    markBytes p (percentDecode s) + 2 * (hasTriplet s).toNat ≤ markCount p s := by
  induction s using percentDecode.induct with
  | case1 a b rest byte hbyte ih =>
    obtain ⟨ha, hb⟩ := isAscii_of_byteOf hbyte
    obtain ⟨hpa, hpb⟩ : (hexValue a).isSome = true ∧ (hexValue b).isSome = true := by
      unfold byteOf at hbyte
      obtain ⟨high, hhigh, hbyte⟩ := Option.bind_eq_some_iff.mp hbyte
      obtain ⟨low, hlow, -⟩ := Option.map_eq_some_iff.mp hbyte
      exact ⟨hhigh ▸ rfl, hlow ▸ rfl⟩
    have hcount : markCount p ('%' :: a :: b :: rest) = markCount p rest + 3 := by
      rw [markCount_cons_of_lt (by decide) hpercent, markCount_cons_of_lt ha (hdigit a hpa),
        markCount_cons_of_lt hb (hdigit b hpb)]
    have hbytes : markBytes p (byte :: percentDecode rest) ≤ markBytes p (percentDecode rest) + 1 := by
      unfold markBytes
      rw [List.countP_cons]
      split <;> omega
    have hbool := Bool.toNat_le (hasTriplet ('%' :: a :: b :: rest))
    rw [percentDecode, hbyte, hcount]
    simp only
    omega
  | case2 a b rest hbyte ih =>
    rw [markCount_cons_of_lt (by decide) hpercent, percentDecode, hasTriplet, hbyte]
    simp only [Option.isSome_none, Bool.false_or]
    have hbytes : markBytes p (0x25 :: percentDecode (a :: b :: rest)) =
        markBytes p (percentDecode (a :: b :: rest)) + 1 :=
      List.countP_cons_of_pos (by rw [show Char.ofNat (0x25 : UInt8).toNat = '%' from rfl, hpercent]; rfl)
    omega
  | case3 c rest hne ih =>
    rw [percentDecode, hasTriplet]
    · have hcount : markCount p (c :: rest) = markCount p [c] + markCount p rest :=
        markCount_append [c] rest
      rw [markBytes_append, markBytes_utf8EncodeChar, hcount]
      omega
    · exact hne
    · exact hne
  | case4 => exact le_rfl

theorem le_of_following {b c : UInt8} {ok : UInt8 → Bool} (hok : ok ∈ Utf8.following b)
    (hc : ok c = true) : 0x80 ≤ c := by
  have hle : ∀ low high : UInt8, 0x80 ≤ low → (low ≤ c && c ≤ high) = true → 0x80 ≤ c := by
    intro low high hlow h
    simp only [Bool.and_eq_true, decide_eq_true_eq] at h
    exact UInt8.le_trans hlow h.1
  have hcontinuation : Utf8.isContinuation c = true → 0x80 ≤ c := hle _ _ (by decide)
  unfold Utf8.following at hok
  split_ifs at hok
  all_goals
    simp only [List.mem_cons, List.not_mem_nil, or_false] at hok
  all_goals
    rcases hok with rfl | rfl | rfl <;>
      first | exact hcontinuation hc | exact hle _ _ (by decide) hc

theorem markBytes_take_followed {oks : List (UInt8 → Bool)}
    (hoks : ∀ ok ∈ oks, ∀ c, ok c = true → 0x80 ≤ c) (bytes : List UInt8) :
    markBytes p (bytes.take (Utf8.followed oks bytes)) = 0 := by
  induction oks generalizing bytes with
  | nil => rfl
  | cons ok oks ih =>
    cases bytes with
    | nil => rfl
    | cons b bytes =>
      unfold Utf8.followed
      split
      · next hb =>
        rw [List.take_succ_cons, markBytes_cons_of_le (hoks ok List.mem_cons_self b hb)]
        exact ih (fun ok hok => hoks ok (List.mem_cons_of_mem _ hok)) bytes
      · rfl

theorem decode_singleton {b : UInt8} (h : b < 0x80) : (Utf8.decode [b]).isSome = true := by
  have hall : ∀ n : Fin 128, Utf8.encode [Char.ofNat n.val] = [UInt8.ofNat n.val] := by decide
  have hencode := hall ⟨b.toNat, UInt8.lt_iff_toNat_lt.mp h⟩
  rw [UInt8.ofNat_toNat] at hencode
  rw [← hencode, Utf8.decode_encode]
  rfl

theorem following_of_lt {b : UInt8} (h : b < 0x80) : Utf8.following b = [] := by
  have hlow : ∀ low : UInt8, 0x80 ≤ low → decide (low ≤ b) = false := fun low hlow =>
    decide_eq_false (UInt8.not_le.mpr (UInt8.lt_of_lt_of_le h hlow))
  have hne : ∀ low : UInt8, 0x80 ≤ low → (b == low) = false := by
    intro low hlow
    rw [beq_eq_false_iff_ne]
    rintro rfl
    exact absurd h (UInt8.not_lt.mpr hlow)
  unfold Utf8.following
  rw [hlow 0xc2 (by decide), hne 0xe0 (by decide), hne 0xed (by decide), hlow 0xe1 (by decide),
    hne 0xf0 (by decide), hlow 0xf1 (by decide), hne 0xf4 (by decide)]
  rfl

/-- What is replaced is not ASCII, and nothing ASCII is taken along with it. -/
theorem markCount_decodeLossy {fuel : ℕ} {bytes : List UInt8} (h : bytes.length ≤ fuel) :
    markCount p (Utf8.decodeLossy fuel bytes) = markBytes p bytes := by
  induction fuel generalizing bytes with
  | zero =>
    rw [List.length_eq_zero_iff.mp (Nat.le_zero.mp h)]
    rfl
  | succ fuel ih =>
    cases bytes with
    | nil => rfl
    | cons b bytes =>
      have hrest := @ih (bytes.drop (Utf8.followed (Utf8.following b) bytes)) (by
        rw [List.length_drop]
        exact (Nat.sub_le _ _).trans (Nat.le_of_succ_le_succ h))
      have hfollow := markBytes_take_followed (p := p) (fun ok hok c => le_of_following (b := b) hok) bytes
      have hsplit : markBytes p (b :: bytes) =
          markBytes p ((b :: bytes).take (Utf8.followed (Utf8.following b) bytes + 1)) +
            markBytes p (bytes.drop (Utf8.followed (Utf8.following b) bytes)) := by
        rw [← markBytes_append, List.take_succ_cons, List.cons_append, List.take_append_drop]
      unfold Utf8.decodeLossy
      simp only
      split
      · next chars hchars =>
        rw [markCount_append, hrest, hsplit, ← Utf8.encode_eq_of_decode hchars, markBytes_encode]
      · next hnone =>
        have hb : ¬b < 0x80 := by
          intro hb
          have halone : Utf8.following b = [] := following_of_lt hb
          rw [halone] at hnone
          exact absurd (decode_singleton hb) (by
            rw [show [b] = (b :: bytes).take (Utf8.followed [] bytes + 1) from rfl, hnone]
            exact Bool.false_ne_true)
        have hzero : markBytes p ((b :: bytes).take (Utf8.followed (Utf8.following b) bytes + 1)) = 0 := by
          rw [List.take_succ_cons, markBytes_cons_of_le (UInt8.not_lt.mp hb)]
          exact hfollow
        rw [hsplit, hzero, Nat.zero_add, ← hrest]
        apply List.countP_cons_of_neg
        rw [show decide (Char.ofNat 0xfffd < '\x80') = false from by decide, Bool.false_and]
        exact Bool.false_ne_true

theorem markCount_lossy (bytes : List UInt8) : markCount p (lossy bytes) = markBytes p bytes := by
  unfold lossy
  cases hdecode : Utf8.decode bytes with
  | none => exact markCount_decodeLossy le_rfl
  | some s => rw [Option.getD_some, ← Utf8.encode_eq_of_decode hdecode, markBytes_encode]

theorem asciiCount_map_blank (s : List Char) : asciiCount (s.map blank) = asciiCount s := by
  unfold asciiCount
  rw [List.countP_map]
  apply List.countP_congr
  intro c _
  unfold blank
  simp only [Function.comp_apply]
  split
  · next h =>
    rw [h]
    decide
  · exact Iff.rfl

theorem map_blank_eq_self_iff {s : List Char} : s.map blank = s ↔ '+' ∉ s := by
  constructor
  · intro h hplus
    rw [← h] at hplus
    obtain ⟨c, -, hc⟩ := List.mem_map.mp hplus
    unfold blank at hc
    split at hc
    · cases hc
    · exact absurd hc ‹_›
  · intro h
    have hsame : ∀ c ∈ s, blank c = c := fun c hc => if_neg (ne_of_mem_of_not_mem hc h)
    exact (List.map_congr_left hsame).trans (List.map_id s)

/-- A text whose ASCII characters all come back is not decoded at all, blanks apart. -/
theorem of_component_eq {s t : List Char} (h : component s = t) (hle : asciiCount s ≤ asciiCount t) :
    hasTriplet (s.map blank) = false ∧ t = s.map blank := by
  have hcount := markBytes_percentDecode (p := fun _ => true) rfl (fun _ _ => rfl) (s.map blank)
  unfold component at h
  rw [← h, asciiCount_eq (lossy _), markCount_lossy] at hle
  rw [← asciiCount_eq, asciiCount_map_blank] at hcount
  have hnone : hasTriplet (s.map blank) = false := by
    cases htriplet : hasTriplet (s.map blank) with
    | false => rfl
    | true =>
      rw [htriplet, Bool.toNat_true] at hcount
      omega
  rw [percentDecode_of_not_hasTriplet hnone] at h
  unfold lossy at h
  rw [Utf8.decode_encode, Option.getD_some] at h
  exact ⟨hnone, h.symm⟩

theorem component_eq_self_iff {s : List Char} :
    component s = s ↔ '+' ∉ s ∧ hasTriplet s = false := by
  constructor
  · intro h
    obtain ⟨htriplet, hsame⟩ := of_component_eq h le_rfl
    rw [← hsame] at htriplet
    exact ⟨map_blank_eq_self_iff.mp hsame.symm, htriplet⟩
  · rintro ⟨hplus, htriplet⟩
    unfold component lossy
    rw [map_blank_eq_self_iff.mpr hplus, percentDecode_of_not_hasTriplet htriplet,
      Utf8.decode_encode, Option.getD_some]

/-! ### What a text loses -/

/-- Nothing was taken from a text, or something ASCII was. -/
def Shortens (s t : List Char) : Prop := s = t ∨ asciiCount s < asciiCount t

theorem Shortens.trans {s t u : List Char} (h : Shortens s t) (h' : Shortens t u) : Shortens s u := by
  rcases h with rfl | h
  · exact h'
  · rcases h' with rfl | h'
    · exact Or.inr h
    · exact Or.inr (h.trans h')

theorem shortens_takeWhile {p : Char → Bool} (hp : ∀ c, p c = false → c < '\x80') (s : List Char) :
    Shortens (s.takeWhile p) s := by
  cases hrest : s.dropWhile p with
  | nil =>
    apply Or.inl
    have happend := List.takeWhile_append_dropWhile (p := p) (l := s)
    rwa [hrest, List.append_nil] at happend
  | cons c rest =>
    apply Or.inr
    have hc : p c = false := by
      have hhead := List.head_dropWhile_not p (l := s) (by rw [hrest]; exact List.cons_ne_nil c rest)
      simpa only [hrest, List.head_cons] using hhead
    have happend := List.takeWhile_append_dropWhile (p := p) (l := s)
    rw [hrest] at happend
    rw [← congrArg asciiCount happend, asciiCount_append, asciiCount_cons_of_lt (hp c hc)]
    omega

theorem shortens_filter {p : Char → Bool} (hp : ∀ c, p c = false → c < '\x80') (s : List Char) :
    Shortens (s.filter p) s := by
  induction s with
  | nil => exact Or.inl rfl
  | cons c s ih =>
    cases hc : p c with
    | true =>
      rw [List.filter_cons_of_pos hc]
      rcases ih with ih | ih
      · rw [ih]
        exact Or.inl rfl
      · have hcount : ∀ l, asciiCount (c :: l) = asciiCount [c] + asciiCount l :=
          asciiCount_append [c]
        apply Or.inr
        rw [hcount, hcount s]
        omega
    | false =>
      rw [List.filter_cons_of_neg (by rw [hc]; exact Bool.false_ne_true)]
      apply Or.inr
      rw [asciiCount_cons_of_lt (hp c hc)]
      rcases ih with ih | ih
      · rw [ih]
        exact Nat.lt_succ_self _
      · omega

theorem asciiCount_reverse (s : List Char) : asciiCount s.reverse = asciiCount s :=
  List.countP_reverse

theorem shortens_rdropWhile {p : Char → Bool} (hp : ∀ c, p c = true → c < '\x80') (s : List Char) :
    Shortens (s.rdropWhile p) s := by
  cases htaken : s.reverse.takeWhile p with
  | nil =>
    apply Or.inl
    have happend := List.takeWhile_append_dropWhile (p := p) (l := s.reverse)
    rw [htaken, List.nil_append] at happend
    unfold List.rdropWhile
    rw [happend, List.reverse_reverse]
  | cons c rest =>
    apply Or.inr
    have hc : p c = true := List.mem_takeWhile_imp (by rw [htaken]; exact List.mem_cons_self)
    have happend := List.takeWhile_append_dropWhile (p := p) (l := s.reverse)
    unfold List.rdropWhile
    rw [asciiCount_reverse, ← asciiCount_reverse s, ← congrArg asciiCount happend,
      asciiCount_append, htaken, asciiCount_cons_of_lt (hp c hc)]
    omega

/-! ### The parts of a query -/

@[simp] theorem pairs_nil : pairs [] = [] := rfl

theorem pairs_append (a b : List Char) : pairs (a ++ '&' :: b) = pairs a ++ pairs b := by
  unfold pairs
  rw [List.splitOn_append_cons_self, List.filter_append, List.map_append]

theorem pairs_cons (b : List Char) : pairs ('&' :: b) = pairs b := pairs_append [] b

/-- A field, and what comes after the next `&`. -/
theorem pairs_field (key : List Char) {value rest : List Char} (hkey : '&' ∉ key ∧ '=' ∉ key)
    (hvalue : '&' ∉ value) (hrest : ∀ c ∈ rest.head?, c = '&') :
    pairs (key ++ '=' :: value ++ rest) = (component key, component value) :: pairs rest := by
  have hfield : '&' ∉ key ++ '=' :: value := by
    rw [List.mem_append, List.mem_cons, not_or, not_or]
    exact ⟨hkey.1, by decide, hvalue⟩
  have halone : pairs (key ++ '=' :: value) = [(component key, component value)] := by
    unfold pairs
    rw [List.splitOn_eq_singleton hfield, List.filter_cons_of_pos (by
      rw [decide_eq_true_eq]
      exact List.append_ne_nil_of_right_ne_nil key (List.cons_ne_nil '=' value))]
    rw [List.filter_nil, List.map_singleton, Text.splitOnce_append hkey.2]
    rfl
  cases rest with
  | nil => rw [List.append_nil, halone, pairs_nil]
  | cons c rest =>
    obtain rfl := hrest c rfl
    rw [pairs_append, halone, pairs_cons, List.singleton_append]

/-- What is left of a text that ends a URL's query. -/
def cut (text : List Char) : List Char :=
  ((text.rdropWhile isC0OrSpace).filter fun c => !isTabOrNewline c).takeWhile (· ≠ '#')

theorem isC0OrSpace_of_isTabOrNewline {c : Char} (h : isTabOrNewline c = true) :
    isC0OrSpace c = true := by
  unfold isTabOrNewline at h
  simp only [Bool.or_eq_true, decide_eq_true_eq] at h
  rcases h with (rfl | rfl) | rfl <;> decide

theorem rdropWhile_append {p : Char → Bool} {a b : List Char}
    (h : a.rdropWhile p = a ∨ b.rdropWhile p ≠ []) :
    (a ++ b).rdropWhile p = a ++ b.rdropWhile p := by
  unfold List.rdropWhile at h ⊢
  rw [List.reverse_append, List.dropWhile_append]
  split
  · next hempty =>
    rw [List.isEmpty_iff] at hempty
    rw [hempty, List.reverse_nil] at h ⊢
    rw [h.resolve_right (fun h => h rfl), List.append_nil]
  · rw [List.reverse_append, List.reverse_reverse]

/-- A text from which nothing is taken stays in front. -/
theorem cut_append {a b : List Char} (ha : ∀ c ∈ a, isTabOrNewline c = false ∧ c ≠ '#')
    (hend : a.rdropWhile isC0OrSpace = a ∨ b.rdropWhile isC0OrSpace ≠ []) :
    cut (a ++ b) = a ++ cut b := by
  have hfilter : (a.filter fun c => !isTabOrNewline c) = a := by
    rw [List.filter_eq_self]
    intro c hc
    rw [(ha c hc).1]
    rfl
  unfold cut
  rw [rdropWhile_append hend, List.filter_append, hfilter,
    List.takeWhile_append_of_pos fun c hc => decide_eq_true (ha c hc).2]

/-- The query of a URL whose scheme and path are plain. -/
theorem ofUrl_append {first : Char} {scheme b : List Char}
    (h : ∀ c ∈ first :: scheme, isC0OrSpace c = false ∧ c ≠ '#' ∧ c ≠ '?') :
    ofUrl (first :: scheme ++ '?' :: b) = cut b := by
  have hfront : (first :: scheme ++ '?' :: b).dropWhile isC0OrSpace = first :: scheme ++ '?' :: b :=
    List.dropWhile_cons_of_neg (by
      rw [(h first List.mem_cons_self).1]
      exact Bool.false_ne_true)
  have hplain : ∀ c ∈ first :: scheme ++ ['?'], isC0OrSpace c = false ∧ c ≠ '#' := by
    intro c hc
    rcases List.mem_append.mp hc with hc | hc
    · exact ⟨(h c hc).1, (h c hc).2.1⟩
    · rw [List.mem_singleton.mp hc]
      decide
  have hkeep : (first :: scheme ++ ['?']).rdropWhile isC0OrSpace = first :: scheme ++ ['?'] := by
    rw [List.rdropWhile_concat_neg _ _ _ (by decide)]
  have hcut : cut (first :: scheme ++ '?' :: b) = first :: scheme ++ '?' :: cut b := by
    have happend := cut_append (b := b) (fun c hc => ⟨?_, (hplain c hc).2⟩) (Or.inl hkeep)
    · simpa only [List.append_assoc, List.singleton_append] using happend
    · rw [Bool.eq_false_iff]
      intro htab
      have hspace := isC0OrSpace_of_isTabOrNewline htab
      rw [(hplain c hc).1] at hspace
      cases hspace
  unfold ofUrl strip
  rw [hfront]
  show ((cut (first :: scheme ++ '?' :: b)).dropWhile _).drop 1 = cut b
  rw [hcut, List.dropWhile_append_of_pos fun c hc => decide_eq_true (h c hc).2.2]
  rfl

end UrlQuery
