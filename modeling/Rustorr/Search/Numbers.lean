import Rustorr.Http.Range
import Rustorr.Lib.Signed
import Rustorr.Lib.Utf8Slice

/-! Numbers in the texts of dates: how a padded number is read, and how large a number of few bytes
can be. -/

namespace Rustorr

open Range (parseI64 signed)

variable {s digits : List Char} {n : ℤ} {width : ℕ}

theorem length_le_size (s : List Char) : s.length ≤ Utf8Slice.size s := by
  induction s with
  | nil => exact le_rfl
  | cons c s ih =>
    have hpos := c.utf8Size_pos
    rw [Utf8Slice.size_cons, List.length_cons]
    omega

theorem size_padded (hwidth : 0 < width) (h : 0 ≤ n ∧ n < 10 ^ width) :
    Utf8Slice.size (I64.padded width n) = width := by
  rw [Utf8Slice.size_of_isDigit fun c hc => I64.isDigit_of_mem_padded h.1 hc, I64.length_padded hwidth h]

/-- A text of digits is read as their number. -/
theorem parseI64_digits (hne : digits ≠ []) (h : ∀ c ∈ digits, c.isDigit = true)
    (hlt : Nat.ofDigitChars 10 digits 0 < 2 ^ 63) :
    parseI64 digits = some ((Nat.ofDigitChars 10 digits 0 : ℕ) : ℤ) := by
  obtain ⟨c, rest, rfl⟩ := List.exists_cons_of_ne_nil hne
  have hc : c.isDigit = true := h c List.mem_cons_self
  have hsigned : parseI64 (c :: rest) = signed 1 (c :: rest) := by
    unfold parseI64
    split
    · next heq =>
      rw [(List.cons.inj heq).1] at hc
      cases hc
    · next heq =>
      rw [(List.cons.inj heq).1] at hc
      cases hc
    · rfl
  rw [hsigned]
  unfold signed
  rw [if_pos ⟨hne, List.all_eq_true.mpr h⟩, one_mul]
  apply if_pos
  constructor
  · exact le_trans (by norm_num) (Int.natCast_nonneg _)
  · exact_mod_cast hlt

theorem parseI64_padded (width : ℕ) (h : 0 ≤ n ∧ n < 2 ^ 63) :
    parseI64 (I64.padded width n) = some n := by
  have hvalue := @I64.ofDigitChars_padded width n h.1
  have hread := parseI64_digits (I64.padded_ne_nil h.1)
    (fun c hc => I64.isDigit_of_mem_padded h.1 hc) (by rw [hvalue]; omega)
  rw [hread, hvalue, Option.some_inj]
  exact Int.natAbs_of_nonneg h.1

theorem natAbs_of_signed {sign : ℤ} (hsign : sign.natAbs = 1) (h : signed sign digits = some n) :
    n.natAbs < 10 ^ digits.length := by
  unfold signed at h
  split at h
  · next hdigits =>
    have hlt := I64.ofDigitChars_lt (fun c hc => List.all_eq_true.mp hdigits.2 c hc) 0
    simp only at h
    split at h
    · rw [← Option.some.inj h, Int.natAbs_mul, hsign, one_mul, Int.natAbs_natCast]
      rwa [Nat.zero_add, one_mul] at hlt
    · cases h
  · cases h

/-- A number is small when its text is. -/
theorem natAbs_of_parseI64 (h : parseI64 s = some n) : n.natAbs < 10 ^ Utf8Slice.size s := by
  have hlength : n.natAbs < 10 ^ s.length := by
    unfold parseI64 at h
    split at h
    · exact (natAbs_of_signed rfl h).trans_le (Nat.pow_le_pow_right (by decide) (Nat.le_succ _))
    · exact (natAbs_of_signed rfl h).trans_le (Nat.pow_le_pow_right (by decide) (Nat.le_succ _))
    · exact natAbs_of_signed rfl h
  exact hlength.trans_le (Nat.pow_le_pow_right (by decide) (length_le_size s))

/-- A sign takes the place of a digit. -/
theorem neg_lt_of_parseI64 (h : parseI64 s = some n) : -10 ^ (Utf8Slice.size s - 1) < n := by
  have hnonneg : ∀ {digits : List Char}, signed 1 digits = some n → -10 ^ (Utf8Slice.size s - 1) < n := by
    intro digits h
    have hpos : (0 : ℤ) < 10 ^ (Utf8Slice.size s - 1) := Int.pow_pos (by decide)
    have hn : 0 ≤ n := by
      unfold signed at h
      split at h
      · simp only [one_mul] at h
        split at h
        · rw [← Option.some.inj h]
          exact Int.natCast_nonneg _
        · cases h
      · cases h
    omega
  unfold parseI64 at h
  split at h
  · exact hnonneg h
  · next rest =>
    have hlt := natAbs_of_signed rfl h
    have hle : 10 ^ rest.length ≤ 10 ^ (Utf8Slice.size ('-' :: rest) - 1) := by
      apply Nat.pow_le_pow_right (by decide)
      have hlength := length_le_size ('-' :: rest)
      rw [List.length_cons] at hlength
      omega
    have hpow : ((10 ^ (Utf8Slice.size ('-' :: rest) - 1) : ℕ) : ℤ) =
        10 ^ (Utf8Slice.size ('-' :: rest) - 1) := Nat.cast_pow 10 _
    rw [← hpow]
    omega
  · exact hnonneg h

/-- What a number of at most `k` bytes can be. -/
theorem parseI64_bounds {k : ℕ} (h : parseI64 s = some n) (hsize : Utf8Slice.size s = k) :
    -10 ^ (k - 1) < n ∧ n < 10 ^ k := by
  rw [← hsize]
  refine ⟨neg_lt_of_parseI64 h, ?_⟩
  have hlt := natAbs_of_parseI64 h
  have hpow : ((10 ^ Utf8Slice.size s : ℕ) : ℤ) = 10 ^ Utf8Slice.size s := Nat.cast_pow 10 _
  rw [← hpow]
  omega

/-- The middle of a text, by its place in bytes. -/
theorem slice_middle {a b c : List Char} {start stop : ℕ} (hstart : Utf8Slice.size a = start)
    (hstop : start + Utf8Slice.size b = stop) : Utf8Slice.slice (a ++ (b ++ c)) start stop = some b := by
  have h := Utf8Slice.slice_append a b c
  rwa [Utf8Slice.size_append, List.append_assoc, hstart, hstop] at h

end Rustorr
