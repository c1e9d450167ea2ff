import Rustorr.Lib.Text
import Rustorr.Lib.Utf8

/-! The byte ranges a request asks for (`range.rs`), against the reading of the header that
the server it follows has. -/

namespace Rustorr.Range

open Text (parseU64 splitOnce)

structure ByteRange where
  start : ℕ
  end_ : ℕ
  deriving DecidableEq

inductive RangeError
  | invalid
  | unsatisfiable
  deriving DecidableEq

def ByteRange.len (r : ByteRange) : ℕ := r.end_ - r.start + 1

/-- What follows `bytes=`. -/
def stripUnit (value : List Char) : Option (List Char) :=
  if "bytes=".toList <+: value then some (value.drop 6) else none

/-- The range between the two sides of a dash. -/
def between (length : ℕ) (start end_ : List Char) : Except RangeError ByteRange :=
  if start = [] then
    match parseU64 end_ with
    | none => .error .invalid
    | some suffix =>
      if (suffix : ℕ) = 0 then .error .unsatisfiable else .ok ⟨length - suffix, length - 1⟩
  else match parseU64 start with
    | none => .error .invalid
    | some start =>
      if (start : ℕ) ≥ length then .error .unsatisfiable
      else
        let last := if end_ = [] then some (length - 1)
          else (parseU64 end_).map fun e : U64 => min (e : ℕ) (length - 1)
        match last with
        | none => .error .invalid
        | some end_ => if end_ < start then .error .unsatisfiable else .ok ⟨start, end_⟩

/-- The body of the loop of `parse`, for one element of the list. -/
def element (length : ℕ) (value : List Char) : Except RangeError ByteRange :=
  match splitOnce '-' (Utf8.trim value) with
  | none => .error .invalid
  | some (start, end_) => between length start end_

/-- The loop of `parse`, with the ranges it has pushed. -/
def collect (length : ℕ) : List (List Char) → List ByteRange → Except RangeError (List ByteRange)
  | [], ranges => if ranges = [] then .error .invalid else .ok ranges
  | value :: values, ranges => match element length value with
    | .error e => .error e
    | .ok range =>
      if (ranges ++ [range]).length > 64 then .error .invalid
      else collect length values (ranges ++ [range])

def parse (value : List Char) (length : ℕ) : Except RangeError (List ByteRange) :=
  match stripUnit value with
  | none => .error .invalid
  | some values =>
    if length = 0 then .error .unsatisfiable else collect length (values.splitOn ',') []

/-! ### The reading that is followed -/

/-- `textproto.TrimString`. -/
def isBlank (c : Char) : Bool := c = ' ' || c = '\t' || c = '\n' || c = '\r'

def trimBlanks (s : List Char) : List Char := (s.dropWhile isBlank).rdropWhile isBlank

/-- The digits behind a sign, as a number of 64 bits. -/
def signed (sign : ℤ) (digits : List Char) : Option ℤ :=
  if digits ≠ [] ∧ digits.all Char.isDigit then
    let n := sign * Nat.ofDigitChars 10 digits 0
    if -2 ^ 63 ≤ n ∧ n < 2 ^ 63 then some n else none
  else none

/-- `strconv.ParseInt(s, 10, 64)`. -/
def parseI64 (s : List Char) : Option ℤ :=
  match s with
  | '+' :: rest => signed 1 rest
  | '-' :: rest => signed (-1) rest
  | _ => signed 1 s

/-- What one element of the list is. -/
inductive Part
  | skipped
  | malformed
  | outside
  | range (r : ByteRange)
  deriving DecidableEq

/-- The part between the two sides of a dash. A suffix without bytes overlaps nothing. -/
def span (size : ℕ) (start end_ : List Char) : Part :=
  if start = [] then
    if end_ = [] ∨ end_.head? = some '-' then .malformed
    else match parseI64 end_ with
      | none => .malformed
      | some i =>
        if i < 0 then .malformed
        else if min i.toNat size = 0 then .outside
        else .range ⟨size - min i.toNat size, size - 1⟩
  else match parseI64 start with
    | none => .malformed
    | some i =>
      if i < 0 then .malformed
      else if i.toNat ≥ size then .outside
      else if end_ = [] then .range ⟨i.toNat, size - 1⟩
      else match parseI64 end_ with
        | none => .malformed
        | some j => if i > j then .malformed else .range ⟨i.toNat, min j.toNat (size - 1)⟩

/-- The body of the loop of `parseRange`. -/
def part (size : ℕ) (ra : List Char) : Part :=
  if trimBlanks ra = [] then .skipped
  else match splitOnce '-' (trimBlanks ra) with
    | none => .malformed
    | some (start, end_) => span size (trimBlanks start) (trimBlanks end_)

/-- The elements of the list in a header value. A value without text is no header. -/
def elements (value : List Char) : Option (List (List Char)) :=
  if value = [] then some [] else (stripUnit value).map fun values => values.splitOn ','

def WellFormed (value : List Char) (size : ℕ) : Prop :=
  ∃ es, elements value = some es ∧ ∀ e ∈ es, part size e ≠ .malformed

def Part.range? : Part → Option ByteRange
  | .range r => some r
  | _ => none

/-- The requested ranges that overlap the content, in order. -/
def overlapping (value : List Char) (size : ℕ) : List ByteRange :=
  ((elements value).getD []).filterMap fun e => (part size e).range?

/-- The answer of `parse` is the one that is followed. -/
structure Agrees (value : List Char) (length : ℕ) : Prop where
  ranges : ∀ rs, parse value length = .ok rs →
    rs = overlapping value length ∧ ∀ r ∈ rs, r.start ≤ r.end_ ∧ r.end_ < length
  unsatisfiable : parse value length = .error .unsatisfiable →
    WellFormed value length ∧ overlapping value length = []
  invalid : parse value length = .error .invalid ↔ ¬WellFormed value length

/-! ### Blanks and numbers -/

section Filter
variable {p q : Char → Bool}

/-- Trimming takes nothing but blanks. -/
theorem filter_dropWhile (hpq : ∀ c, p c = true → q c = true) (s : List Char) :
    (s.dropWhile p).filter (fun c => !q c) = s.filter fun c => !q c := by
  induction s with
  | nil => rfl
  | cons c s ih =>
    cases hc : p c with
    | true => rw [List.dropWhile_cons_of_pos hc, ih, List.filter_cons_of_neg (by simp [hpq c hc])]
    | false => rw [List.dropWhile_cons_of_neg (by simp [hc])]

theorem filter_rdropWhile (hpq : ∀ c, p c = true → q c = true) (s : List Char) :
    (s.rdropWhile p).filter (fun c => !q c) = s.filter fun c => !q c := by
  have hrev := filter_dropWhile hpq s.reverse
  unfold List.rdropWhile
  rw [List.filter_reverse, hrev, List.filter_reverse, List.reverse_reverse]

/-- Trimming on both sides of a character that is no blank. -/
theorem trim_append {c : Char} (hc : p c = false) (a b : List Char) :
    ((a ++ c :: b).dropWhile p).rdropWhile p = a.dropWhile p ++ c :: b.rdropWhile p := by
  have hstop : ∀ s : List Char, (c :: s).dropWhile p = c :: s := fun s =>
    List.dropWhile_cons_of_neg (by simp [hc])
  have hleft : ∀ s t : List Char, (s ++ c :: t).dropWhile p = s.dropWhile p ++ c :: t := by
    intro s t
    rw [List.dropWhile_append]
    split
    · next hempty => rw [hstop, List.isEmpty_iff.mp hempty, List.nil_append]
    · rfl
  rw [hleft]
  unfold List.rdropWhile
  rw [List.reverse_append, List.reverse_cons, List.append_assoc, List.singleton_append, hleft]
  simp

end Filter

theorem isWhitespace_of_isBlank {c : Char} (h : isBlank c = true) : Utf8.isWhitespace c = true := by
  unfold isBlank at h
  simp only [Bool.or_eq_true, decide_eq_true_eq] at h
  rcases h with ((rfl | rfl) | rfl) | rfl <;> rfl

/-- A text without its white space, of any kind. -/
def dense (s : List Char) : List Char := s.filter fun c => !Utf8.isWhitespace c

theorem dense_trimBlanks (s : List Char) : dense (trimBlanks s) = dense s := by
  have hpq : ∀ c, isBlank c = true → Utf8.isWhitespace c = true := fun _ => isWhitespace_of_isBlank
  exact (filter_rdropWhile hpq _).trans (filter_dropWhile hpq s)

theorem dense_of_all {s : List Char} (h : ∀ c ∈ s, Utf8.isWhitespace c = false) : dense s = s := by
  refine List.filter_eq_self.mpr fun c hc => ?_
  simp [h c hc]

theorem dense_digits {s : List Char} (h : s.all Char.isDigit = true) : dense s = s :=
  dense_of_all fun c hc => Utf8.isWhitespace_of_isDigit (List.all_eq_true.mp h c hc)

theorem parseU64_eq_some {s : List Char} {n : U64} (h : parseU64 s = some n) :
    ∃ digits, (s = '+' :: digits ∨ s = digits) ∧ digits ≠ [] ∧ digits.all Char.isDigit = true ∧
      Nat.ofDigitChars 10 digits 0 = n := by
  have hread : ∀ digits : List Char, (if digits ≠ [] ∧ digits.all Char.isDigit = true then
      if h : Nat.ofDigitChars 10 digits 0 < 2 ^ 64 then some (⟨_, h⟩ : U64) else none
      else none) = some n → digits ≠ [] ∧ digits.all Char.isDigit = true ∧
        Nat.ofDigitChars 10 digits 0 = n := by
    intro digits hsome
    split at hsome
    · next hdigits =>
      split at hsome
      · rw [Option.some.injEq] at hsome
        exact ⟨hdigits.1, hdigits.2, congrArg Fin.val hsome⟩
      · cases hsome
    · cases hsome
  unfold parseU64 at h
  dsimp only at h
  split at h
  · next rest => exact ⟨rest, Or.inl rfl, hread rest h⟩
  · exact ⟨s, Or.inr rfl, hread s h⟩

theorem signed_eq_some {sign i : ℤ} {digits : List Char} (h : signed sign digits = some i) :
    digits.all Char.isDigit = true ∧ i = sign * Nat.ofDigitChars 10 digits 0 := by
  unfold signed at h
  split at h
  · next hdigits =>
    dsimp only at h
    split at h
    · rw [Option.some.injEq] at h
      exact ⟨hdigits.2, h.symm⟩
    · cases h
  · cases h

theorem dense_cons {c : Char} (hc : Utf8.isWhitespace c = false) {s : List Char}
    (hs : dense s = s) : dense (c :: s) = c :: s := by
  unfold dense at hs ⊢
  rw [List.filter_cons_of_pos (by simp [hc]), hs]

theorem dense_of_parseU64 {s : List Char} {n : U64} (h : parseU64 s = some n) :
    dense s = s ∧ s ≠ [] ∧ s.head? ≠ some '-' := by
  obtain ⟨digits, rfl | rfl, hne, hall, -⟩ := parseU64_eq_some h
  · exact ⟨dense_cons (by decide) (dense_digits hall), List.cons_ne_nil _ _, by simp⟩
  · refine ⟨dense_digits hall, hne, fun hhead => ?_⟩
    have hminus := List.all_eq_true.mp hall '-' (List.mem_of_head? hhead)
    exact absurd hminus (by decide)

theorem dense_of_parseI64 {s : List Char} {i : ℤ} (h : parseI64 s = some i) : dense s = s := by
  unfold parseI64 at h
  split at h
  · exact dense_cons (by decide) (dense_digits (signed_eq_some h).1)
  · exact dense_cons (by decide) (dense_digits (signed_eq_some h).1)
  · exact dense_digits (signed_eq_some h).1

/-- Where both readings take a number, it is the same. -/
theorem parseI64_eq_of_parseU64 {s : List Char} {n : U64} {i : ℤ} (hn : parseU64 s = some n)
    (hi : parseI64 s = some i) : i = (n : ℕ) := by
  obtain ⟨digits, hs, -, hall, hvalue⟩ := parseU64_eq_some hn
  unfold parseI64 at hi
  split at hi
  · next rest =>
    rcases hs with hs | rfl
    · cases hs
      rw [(signed_eq_some hi).2, hvalue, one_mul]
    · rw [List.all_cons] at hall
      exact absurd hall (by simp [Char.isDigit])
  · next rest => exact absurd rfl (dense_of_parseU64 hn).2.2
  · next hplus hminus =>
    rcases hs with rfl | rfl
    · exact absurd rfl (hplus digits)
    · rw [(signed_eq_some hi).2, hvalue, one_mul]

/-! ### One element -/

/-- Texts that are equal but for white space, the second of which is a number. -/
theorem parseI64_of_dense {s u : List Char} {n : U64} {i : ℤ} (hn : parseU64 s = some n)
    (hdense : dense u = dense s) (hi : parseI64 u = some i) : i = (n : ℕ) := by
  rw [dense_of_parseI64 hi, (dense_of_parseU64 hn).1] at hdense
  subst hdense
  exact parseI64_eq_of_parseU64 hn hi

theorem dense_nil : dense [] = [] := rfl

theorem eq_nil_of_dense {u : List Char} {i : ℤ} (hi : parseI64 u = some i) (hu : dense u = []) :
    u = [] := (dense_of_parseI64 hi).symm.trans hu

/-- Around a dash, a range that the code takes is the range that is meant, or is not well
formed. -/
theorem span_of_between {length : ℕ} {s d u v : List Char} {r : ByteRange} (hlength : 0 < length)
    (h : between length s d = .ok r) (hu : dense u = dense s) (hv : dense v = dense d) :
    span length u v = .range r ∨ span length u v = .malformed := by
  unfold between at h
  unfold span
  by_cases hs : s = []
  · rw [if_pos hs] at h
    rw [hs, dense_nil] at hu
    cases hd : parseU64 d with
    | none =>
      rw [hd] at h
      cases h
    | some n =>
      simp only [hd] at h
      split at h
      · cases h
      · next hzero =>
        cases h
        by_cases hunil : u = []
        · rw [if_pos hunil]
          split
          · exact Or.inr rfl
          · cases hi : parseI64 v with
            | none => exact Or.inr rfl
            | some i =>
              have heq := parseI64_of_dense hd hv hi
              subst heq
              left
              have hpos : ¬(min (n : ℕ) length = 0) := by omega
              have hsub : length - min (n : ℕ) length = length - n := by omega
              simp [hpos, hsub]
        · rw [if_neg hunil]
          cases hi : parseI64 u with
          | none => exact Or.inr rfl
          | some i => exact absurd (eq_nil_of_dense hi hu) hunil
  · rw [if_neg hs] at h
    cases hn : parseU64 s with
    | none =>
      rw [hn] at h
      cases h
    | some n =>
      simp only [hn] at h
      have hdense := (dense_of_parseU64 hn).1
      have hunil : u ≠ [] := by
        rintro rfl
        rw [hdense, dense_nil] at hu
        exact hs hu.symm
      rw [if_neg hunil]
      split at h
      · cases h
      · next hless =>
        cases hi : parseI64 u with
        | none => exact Or.inr rfl
        | some i =>
          obtain rfl := parseI64_of_dense hn hu hi
          have hneg : ¬((n : ℕ) : ℤ) < 0 := by omega
          simp only [hneg, if_false, Int.toNat_natCast, hless]
          by_cases hd : d = []
          · rw [hd, dense_nil] at hv
            simp only [hd, if_true] at h
            split at h
            · cases h
            · cases h
              by_cases hvnil : v = []
              · exact Or.inl (if_pos hvnil)
              · rw [if_neg hvnil]
                cases hj : parseI64 v with
                | none => exact Or.inr rfl
                | some j => exact absurd (eq_nil_of_dense hj hv) hvnil
          · cases hm : parseU64 d with
            | none =>
              simp only [hd, if_false, hm, Option.map_none] at h
              cases h
            | some m =>
              simp only [hd, if_false, hm, Option.map_some] at h
              have hvnil : v ≠ [] := by
                rintro rfl
                rw [(dense_of_parseU64 hm).1, dense_nil] at hv
                exact hd hv.symm
              rw [if_neg hvnil]
              split at h
              · cases h
              · cases h
                cases hj : parseI64 v with
                | none => exact Or.inr rfl
                | some j =>
                  obtain rfl := parseI64_of_dense hm hv hj
                  dsimp only
                  split
                  · exact Or.inr rfl
                  · exact Or.inl (by simp)

theorem notMem_of_splitOnce {c : Char} {s a b : List Char} (h : splitOnce c s = some (a, b)) :
    c ∉ a := by
  induction s generalizing a with
  | nil => cases h
  | cons d s ih =>
    unfold splitOnce at h
    split at h
    · cases h
      exact List.not_mem_nil
    · next hd =>
      obtain ⟨⟨a', b'⟩, hp, heq⟩ := Option.map_eq_some_iff.mp h
      cases heq
      exact List.not_mem_cons_of_ne_of_not_mem (Ne.symm hd) (ih hp)

theorem notMem_of_splitOnce_none {c : Char} {s : List Char} (h : splitOnce c s = none) : c ∉ s := by
  intro hc
  obtain ⟨a, b, rfl, ha⟩ := List.eq_append_cons_of_mem hc
  rw [Text.splitOnce_append ha] at h
  cases h

theorem splitOnce_trim {p : Char → Bool} {c : Char} (hc : p c = false) {s a b : List Char}
    (h : splitOnce c s = some (a, b)) : splitOnce c ((s.dropWhile p).rdropWhile p) =
      some (a.dropWhile p, b.rdropWhile p) := by
  have ha : c ∉ a.dropWhile p := fun hmem =>
    notMem_of_splitOnce h ((List.dropWhile_suffix p).subset hmem)
  rw [Text.splitOnce_eq_some h, trim_append hc, Text.splitOnce_append ha]

theorem part_of_element {length : ℕ} {e : List Char} {r : ByteRange} (hlength : 0 < length)
    (h : element length e = .ok r) : part length e = .range r ∨ part length e = .malformed := by
  cases hs : splitOnce '-' e with
  | none =>
    have hnot : splitOnce '-' (Utf8.trim e) = none := by
      cases ht : splitOnce '-' (Utf8.trim e) with
      | none => rfl
      | some x =>
        have hmem : '-' ∈ Utf8.trim e := by
          rw [Text.splitOnce_eq_some ht]
          simp
        have hdrop := ( List.rdropWhile_prefix _ _).subset hmem
        exact absurd ((List.dropWhile_suffix _).subset hdrop) (notMem_of_splitOnce_none hs)
    unfold element at h
    rw [hnot] at h
    cases h
  | some x =>
    obtain ⟨a, b⟩ := x
    have hcode := splitOnce_trim (p := Utf8.isWhitespace) (c := '-') (by decide) hs
    have hread := splitOnce_trim (p := isBlank) (c := '-') (by decide) hs
    have hne : trimBlanks e ≠ [] := by
      intro hnil
      rw [show (e.dropWhile isBlank).rdropWhile isBlank = [] from hnil] at hread
      cases hread
    unfold element at h
    rw [show splitOnce '-' (Utf8.trim e) = _ from hcode] at h
    unfold part
    rw [if_neg hne, show splitOnce '-' (trimBlanks e) = _ from hread]
    have hself : ∀ c, Utf8.isWhitespace c = true → Utf8.isWhitespace c = true := fun _ hc => hc
    have hblank : ∀ c, isBlank c = true → Utf8.isWhitespace c = true :=
      fun _ => isWhitespace_of_isBlank
    refine span_of_between hlength h ?_ ?_
    · calc dense (trimBlanks (a.dropWhile isBlank))
        _ = dense (a.dropWhile isBlank) := dense_trimBlanks _
        _ = dense a := filter_dropWhile hblank a
        _ = dense (a.dropWhile Utf8.isWhitespace) := (filter_dropWhile hself a).symm
    · calc dense (trimBlanks (b.rdropWhile isBlank))
        _ = dense (b.rdropWhile isBlank) := dense_trimBlanks _
        _ = dense b := filter_rdropWhile hblank b
        _ = dense (b.rdropWhile Utf8.isWhitespace) := (filter_rdropWhile hself b).symm

theorem between_bounds {length : ℕ} {s d : List Char} {r : ByteRange} (hlength : 0 < length)
    (h : between length s d = .ok r) : r.start ≤ r.end_ ∧ r.end_ < length := by
  unfold between at h
  split at h
  · split at h
    · cases h
    · split at h
      · cases h
      · cases h
        dsimp only
        omega
  · split at h
    · cases h
    · split at h
      · cases h
      · dsimp only at h
        split at h
        · cases h
        · next last hlast =>
          split at h
          · cases h
          · next hle =>
            cases h
            have hlt : last < length := by
              split at hlast
              · cases hlast
                omega
              · obtain ⟨m, -, rfl⟩ := Option.map_eq_some_iff.mp hlast
                omega
            exact ⟨not_lt.mp hle, hlt⟩

theorem element_bounds {length : ℕ} {e : List Char} {r : ByteRange} (hlength : 0 < length)
    (h : element length e = .ok r) : r.start ≤ r.end_ ∧ r.end_ < length := by
  unfold element at h
  split at h
  · cases h
  · exact between_bounds hlength h

/-! ### The list -/

variable {length : ℕ}

/-- An element that the code takes as a range. -/
def Taken (length : ℕ) (e : List Char) : Prop := ∃ r, element length e = .ok r

theorem collect_eq_ok {es : List (List Char)} {acc rs : List ByteRange} (hacc : acc.length ≤ 64)
    (h : collect length es acc = .ok rs) :
    ∃ new, rs = acc ++ new ∧ List.Forall₂ (fun e r => element length e = .ok r) es new ∧
      rs.length ≤ 64 := by
  induction es generalizing acc with
  | nil =>
    unfold collect at h
    split at h
    · cases h
    · cases h
      exact ⟨[], (List.append_nil _).symm, .nil, hacc⟩
  | cons e es ih =>
    unfold collect at h
    split at h
    · cases h
    · next r hr =>
      split at h
      · cases h
      · next hfew =>
        obtain ⟨new, rfl, hnew, hlen⟩ := ih (not_lt.mp hfew) h
        exact ⟨r :: new, by rw [List.append_assoc, List.singleton_append], .cons hr hnew, hlen⟩

theorem collect_eq_unsatisfiable {es : List (List Char)} {acc : List ByteRange}
    (h : collect length es acc = .error .unsatisfiable) :
    ∃ before e after, es = before ++ e :: after ∧ (∀ b ∈ before, Taken length b) ∧
      element length e = .error .unsatisfiable := by
  induction es generalizing acc with
  | nil =>
    unfold collect at h
    split at h <;> cases h
  | cons e es ih =>
    unfold collect at h
    split at h
    · next error he =>
      cases h
      exact ⟨[], e, es, rfl, fun b hb => absurd hb List.not_mem_nil, he⟩
    · next r hr =>
      split at h
      · cases h
      · obtain ⟨before, f, after, rfl, hbefore, hf⟩ := ih h
        refine ⟨e :: before, f, after, rfl, fun b hb => ?_, hf⟩
        rcases List.mem_cons.mp hb with rfl | hb
        · exact ⟨r, hr⟩
        · exact hbefore b hb

/-- After ranges that it takes, the code meets an element it cannot read, or one range too
many. -/
def Stuck (length seen : ℕ) (es : List (List Char)) : Prop :=
  ∃ before e after, es = before ++ e :: after ∧ (∀ b ∈ before, Taken length b) ∧
    (element length e = .error .invalid ∨ Taken length e ∧ 64 ≤ seen + before.length)

theorem collect_eq_invalid {es : List (List Char)} {acc : List ByteRange}
    (hne : acc ≠ [] ∨ es ≠ []) (hacc : acc.length ≤ 64) :
    collect length es acc = .error .invalid ↔ Stuck length acc.length es := by
  induction es generalizing acc with
  | nil =>
    have hacc : acc ≠ [] := hne.resolve_right (fun h => h rfl)
    unfold collect
    rw [if_neg hacc]
    constructor
    · intro h
      cases h
    · rintro ⟨before, e, after, hes, -⟩
      exact absurd hes.symm (by simp)
  | cons e es ih =>
    unfold collect
    cases he : element length e with
    | error error =>
      constructor
      · intro h
        cases h
        exact ⟨[], e, es, rfl, fun b hb => absurd hb List.not_mem_nil, Or.inl he⟩
      · rintro ⟨before, f, after, hes, hbefore, hf⟩
        cases before with
        | nil =>
          rw [List.nil_append, List.cons.injEq] at hes
          rw [← hes.1, he] at hf
          rcases hf with hf | ⟨⟨r, hr⟩, -⟩
          · cases hf
            rfl
          · rw [he] at hr
            cases hr
        | cons b before =>
          rw [List.cons_append, List.cons.injEq] at hes
          obtain ⟨r, hr⟩ := hbefore b List.mem_cons_self
          rw [← hes.1, he] at hr
          cases hr
    | ok r =>
      dsimp only
      by_cases hfew : (acc ++ [r]).length > 64
      · rw [if_pos hfew]
        refine ⟨fun _ => ⟨[], e, es, rfl, fun b hb => absurd hb List.not_mem_nil,
          Or.inr ⟨⟨r, he⟩, ?_⟩⟩, fun _ => rfl⟩
        rw [List.length_append, List.length_singleton] at hfew
        rw [List.length_nil]
        omega
      · rw [if_neg hfew, ih (Or.inl (by simp)) (not_lt.mp hfew)]
        rw [List.length_append, List.length_singleton] at hfew ⊢
        constructor
        · rintro ⟨before, f, after, rfl, hbefore, hf⟩
          refine ⟨e :: before, f, after, rfl, fun b hb => ?_, ?_⟩
          · rcases List.mem_cons.mp hb with rfl | hb
            · exact ⟨r, he⟩
            · exact hbefore b hb
          · refine hf.imp_right fun hf => ⟨hf.1, ?_⟩
            rw [List.length_cons]
            omega
        · rintro ⟨before, f, after, hes, hbefore, hf⟩
          cases before with
          | nil =>
            rw [List.nil_append, List.cons.injEq] at hes
            rw [← hes.1, he, List.length_nil] at hf
            rcases hf with hf | ⟨-, hmany⟩
            · cases hf
            · omega
          | cons b before =>
            rw [List.cons_append, List.cons.injEq] at hes
            refine ⟨before, f, after, hes.2, fun b hb => hbefore b (List.mem_cons_of_mem _ hb), ?_⟩
            refine hf.imp_right fun hf => ⟨hf.1, ?_⟩
            have hmany := hf.2
            rw [List.length_cons] at hmany
            omega

/-! ### The whole header -/

/-- Where the answer of the code is the one that is followed: a value without the unit is not
empty; for no content, the list is well formed; else the code takes every element of a well
formed list, of which there are at most 64, or nothing of it overlaps and the code refuses
its first element for that, or the list is not well formed and the code finds out before it
refuses an element that does not overlap. -/
def Settles (value : List Char) (length : ℕ) : Prop :=
  match stripUnit value with
  | none => value ≠ []
  | some values =>
    if length = 0 then WellFormed value length
    else
      (WellFormed value length ∧ (∀ e ∈ values.splitOn ',', Taken length e) ∧
        (values.splitOn ',').length ≤ 64) ∨
      (WellFormed value length ∧ overlapping value length = [] ∧
        ∃ e rest, values.splitOn ',' = e :: rest ∧ element length e = .error .unsatisfiable) ∨
      (¬WellFormed value length ∧ Stuck length 0 (values.splitOn ','))

theorem span_zero (u v : List Char) : (span 0 u v).range? = none := by
  unfold span
  split
  · split
    · rfl
    · split
      · rfl
      · split
        · rfl
        · rw [if_pos (Nat.min_zero _)]
          rfl
  · split
    · rfl
    · split
      · rfl
      · rw [if_pos (Nat.zero_le _)]
        rfl

theorem part_zero (e : List Char) : (part 0 e).range? = none := by
  unfold part
  split
  · rfl
  · split
    · rfl
    · exact span_zero _ _

theorem overlapping_zero (value : List Char) : overlapping value 0 = [] :=
  List.filterMap_eq_nil_iff.mpr fun e _ => part_zero e

theorem elements_of_stripUnit {value values : List Char} (h : stripUnit value = some values) :
    elements value = some (values.splitOn ',') := by
  have hne : value ≠ [] := by
    rintro rfl
    cases h
  unfold elements
  rw [if_neg hne, h, Option.map_some]

theorem wellFormed_iff {value values : List Char} (h : stripUnit value = some values) :
    WellFormed value length ↔ ∀ e ∈ values.splitOn ',', part length e ≠ .malformed := by
  unfold WellFormed
  rw [elements_of_stripUnit h]
  exact ⟨fun ⟨es, hes, hall⟩ => Option.some.inj hes ▸ hall, fun hall => ⟨_, rfl, hall⟩⟩

/-- The ranges that the code takes from a list that is well formed are those that are meant. -/
theorem filterMap_of_taken {es : List (List Char)} {rs : List ByteRange} (hlength : 0 < length)
    (hwell : ∀ e ∈ es, part length e ≠ .malformed)
    (htaken : List.Forall₂ (fun e r => element length e = .ok r) es rs) :
    es.filterMap (fun e => (part length e).range?) = rs := by
  induction htaken with
  | nil => rfl
  | @cons e r es rs he _ ih =>
    have hpart : part length e = .range r :=
      (part_of_element hlength he).resolve_right (hwell e List.mem_cons_self)
    rw [List.filterMap_cons, hpart]
    exact congrArg (List.cons r) (ih fun f hf => hwell f (List.mem_cons_of_mem _ hf))

theorem agrees_iff_of_unit {value values : List Char} (hunit : stripUnit value = some values)
    (hlength : 0 < length) : Agrees value length ↔
      (WellFormed value length ∧ (∀ e ∈ values.splitOn ',', Taken length e) ∧
        (values.splitOn ',').length ≤ 64) ∨
      (WellFormed value length ∧ overlapping value length = [] ∧
        ∃ e rest, values.splitOn ',' = e :: rest ∧ element length e = .error .unsatisfiable) ∨
      (¬WellFormed value length ∧ Stuck length 0 (values.splitOn ',')) := by
  have hparse : parse value length = collect length (values.splitOn ',') [] := by
    unfold parse
    simp only [hunit, Nat.pos_iff_ne_zero.mp hlength, if_false]
  have hoverlap : overlapping value length =
      (values.splitOn ',').filterMap fun e => (part length e).range? := by
    unfold overlapping
    rw [elements_of_stripUnit hunit, Option.getD_some]
  have hwell : WellFormed value length ↔
      ∀ e ∈ values.splitOn ',', part length e ≠ .malformed := wellFormed_iff hunit
  have hinvalid : collect length (values.splitOn ',') [] = .error .invalid ↔
      Stuck length 0 (values.splitOn ',') :=
    collect_eq_invalid (Or.inr (List.splitOn_ne_nil ',' values)) (Nat.zero_le _)
  rw [← hparse] at hinvalid
  generalize values.splitOn ',' = es at hparse hoverlap hwell hinvalid ⊢
  cases hanswer : parse value length with
  | ok rs =>
    -- every element was taken, so the list only has to be well formed
    obtain ⟨new, hnew, htaken, hfew⟩ := collect_eq_ok (Nat.zero_le _) (hparse.symm.trans hanswer)
    obtain rfl : rs = new := hnew
    have hall : ∀ e ∈ es, Taken length e := fun e he => by
      obtain ⟨i, hi, rfl⟩ := List.getElem_of_mem he
      exact ⟨_, htaken.get hi (htaken.length_eq ▸ hi)⟩
    have hcount : es.length ≤ 64 := htaken.length_eq ▸ hfew
    have hnot : ¬Stuck length 0 es := by
      intro hstuck
      have hbad := hinvalid.mpr hstuck
      rw [hanswer] at hbad
      cases hbad
    constructor
    · intro hagrees
      left
      refine ⟨?_, hall, hcount⟩
      by_contra hbad
      have hanswer' := hagrees.invalid.mpr hbad
      rw [hanswer] at hanswer'
      cases hanswer'
    · intro hsettles
      have hform : WellFormed value length := by
        rcases hsettles with ⟨hform, -⟩ | ⟨hform, -⟩ | ⟨-, hstuck⟩
        · exact hform
        · exact hform
        · exact absurd hstuck hnot
      refine ⟨fun rs' hrs => ?_, fun hbad => ?_, ?_⟩
      · rw [hanswer] at hrs
        cases hrs
        rw [hoverlap, filterMap_of_taken hlength (hwell.mp hform) htaken]
        refine ⟨rfl, fun r hr => ?_⟩
        obtain ⟨i, hi, rfl⟩ := List.getElem_of_mem hr
        exact element_bounds hlength (htaken.get (htaken.length_eq ▸ hi) hi)
      · rw [hanswer] at hbad
        cases hbad
      · rw [hanswer]
        constructor
        · intro hbad
          cases hbad
        · exact fun hbad => absurd hform hbad
  | error error =>
    cases error with
    | unsatisfiable =>
      obtain ⟨before, e, after, hes, hbefore, he⟩ :=
        collect_eq_unsatisfiable (hparse.symm.trans hanswer)
      have hnot : ¬Stuck length 0 es := by
        intro hstuck
        have hbad := hinvalid.mpr hstuck
        rw [hanswer] at hbad
        cases hbad
      constructor
      · intro hagrees
        obtain ⟨hform, hnone⟩ := hagrees.unsatisfiable hanswer
        refine Or.inr (Or.inl ⟨hform, hnone, ?_⟩)
        cases before with
        | nil => exact ⟨e, after, hes, he⟩
        | cons b before =>
          -- what the code has taken overlaps
          exfalso
          have hb : b ∈ es := by
            rw [hes]
            simp
          obtain ⟨r, hr⟩ := hbefore b List.mem_cons_self
          have hpart := (part_of_element hlength hr).resolve_right (hwell.mp hform b hb)
          rw [hoverlap] at hnone
          have hrange := List.filterMap_eq_nil_iff.mp hnone b hb
          rw [hpart] at hrange
          cases hrange
      · intro hsettles
        have hform : WellFormed value length ∧ overlapping value length = [] := by
          rcases hsettles with ⟨-, hall, -⟩ | ⟨hform, hnone, -⟩ | ⟨-, hstuck⟩
          · obtain ⟨r, hr⟩ := hall e (by rw [hes]; simp)
            rw [he] at hr
            cases hr
          · exact ⟨hform, hnone⟩
          · exact absurd hstuck hnot
        refine ⟨fun rs hrs => ?_, fun _ => hform, ?_⟩
        · rw [hanswer] at hrs
          cases hrs
        · rw [hanswer]
          constructor
          · intro hbad
            cases hbad
          · exact fun hbad => absurd hform.1 hbad
    | invalid =>
      have hstuck := hinvalid.mp hanswer
      constructor
      · intro hagrees
        exact Or.inr (Or.inr ⟨hagrees.invalid.mp hanswer, hstuck⟩)
      · intro hsettles
        have hform : ¬WellFormed value length := by
          obtain ⟨before, e, after, hes, hbefore, he⟩ := hstuck
          rcases hsettles with ⟨-, hall, hcount⟩ | ⟨-, -, f, rest, hf, hfirst⟩ | ⟨hform, -⟩
          · obtain ⟨r, hr⟩ := hall e (by rw [hes]; simp)
            rcases he with he | ⟨-, hmany⟩
            · rw [he] at hr
              cases hr
            · rw [hes, List.length_append, List.length_cons] at hcount
              omega
          · exfalso
            rw [hf] at hes
            cases before with
            | nil =>
              rw [List.nil_append, List.cons.injEq] at hes
              rw [← hes.1, hfirst] at he
              rcases he with he | ⟨⟨r, hr⟩, -⟩
              · cases he
              · rw [hfirst] at hr
                cases hr
            | cons b before =>
              rw [List.cons_append, List.cons.injEq] at hes
              obtain ⟨r, hr⟩ := hbefore b List.mem_cons_self
              rw [← hes.1, hfirst] at hr
              cases hr
          · exact hform
        refine ⟨fun rs hrs => ?_, fun hbad => ?_, fun _ => hform, fun _ => hanswer⟩
        · rw [hanswer] at hrs
          cases hrs
        · rw [hanswer] at hbad
          cases hbad

end Rustorr.Range
