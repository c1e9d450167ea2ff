import Rustorr.Lib.Replace
import Rustorr.Lib.UrlQuery
import Mathlib.Tactic.IntervalCases

/-! Percent-encoding: bytes of a chosen set stand for themselves, every other byte is a triplet
of `%` and two digits. -/

namespace Percent

def hexDigit (n : ℕ) : Char := if n < 10 then Char.ofNat (48 + n) else Char.ofNat (55 + n)

def triplet (b : UInt8) : List Char := ['%', hexDigit (b.toNat / 16), hexDigit (b.toNat % 16)]

def encodeByte (keep : UInt8 → Bool) (b : UInt8) : List Char :=
  if keep b then [Char.ofNat b.toNat] else triplet b

def encode (keep : UInt8 → Bool) (bytes : List UInt8) : List Char := bytes.flatMap (encodeByte keep)

/-- Only ASCII stands for itself, and `%` does not. -/
def Plain (keep : UInt8 → Bool) : Prop := ∀ b, keep b = true → b < 0x80 ∧ b ≠ 0x25

theorem Plain.or {keep : UInt8 → Bool} (h : Plain keep) {kept : UInt8} (hlt : kept < 0x80)
    (hne : kept ≠ 0x25) : Plain fun b => keep b || b == kept := by
  intro b hb
  rcases Bool.or_eq_true_iff.mp hb with hb | hb
  · exact h b hb
  · rw [beq_iff_eq.mp hb]
    exact ⟨hlt, hne⟩

theorem encode_append (keep : UInt8 → Bool) (a b : List UInt8) :
    encode keep (a ++ b) = encode keep a ++ encode keep b := List.flatMap_append

theorem hexValue_hexDigit {n : ℕ} (h : n < 16) : UrlQuery.hexValue (hexDigit n) = some n := by
  interval_cases n <;> rfl

theorem byteOf_hexDigit (b : UInt8) :
    UrlQuery.byteOf (hexDigit (b.toNat / 16)) (hexDigit (b.toNat % 16)) = some b := by
  have hb : b.toNat < 256 := b.toNat_lt
  have hsum : 16 * (b.toNat / 16) + b.toNat % 16 = b.toNat := Nat.div_add_mod b.toNat 16
  unfold UrlQuery.byteOf
  rw [hexValue_hexDigit (by omega), hexValue_hexDigit (by omega), Option.bind_some,
    Option.map_some, hsum, UInt8.ofNat_toNat]

theorem percentDecode_triplet (b : UInt8) (rest : List Char) :
    UrlQuery.percentDecode (triplet b ++ rest) = b :: UrlQuery.percentDecode rest := by
  unfold triplet
  rw [List.cons_append, List.cons_append, List.singleton_append, UrlQuery.percentDecode,
    byteOf_hexDigit]

/-- An ASCII byte is the encoding of its character. -/
theorem utf8EncodeChar_ofNat {b : UInt8} (h : b < 0x80) :
    String.utf8EncodeChar (Char.ofNat b.toNat) = [b] := by
  have hall : ∀ n : Fin 128, String.utf8EncodeChar (Char.ofNat n.val) = [UInt8.ofNat n.val] := by
    decide
  have hb := hall ⟨b.toNat, UInt8.lt_iff_toNat_lt.mp h⟩
  rwa [UInt8.ofNat_toNat] at hb

theorem ofNat_ne_percent {b : UInt8} (h : b < 0x80) (hne : b ≠ 0x25) : Char.ofNat b.toNat ≠ '%' := by
  intro heq
  have hencode := utf8EncodeChar_ofNat h
  rw [heq] at hencode
  exact hne (List.head_eq_of_cons_eq hencode).symm

/-- What was encoded comes back. -/
theorem percentDecode_encode {keep : UInt8 → Bool} (h : Plain keep) (bytes : List UInt8)
    (rest : List Char) : UrlQuery.percentDecode (encode keep bytes ++ rest) =
      bytes ++ UrlQuery.percentDecode rest := by
  induction bytes with
  | nil => rfl
  | cons b bytes ih =>
    unfold encode encodeByte at ih ⊢
    rw [List.flatMap_cons, List.append_assoc]
    by_cases hb : keep b = true
    · obtain ⟨hlt, hne⟩ := h b hb
      rw [if_pos hb, List.singleton_append,
        UrlQuery.percentDecode_cons_of_ne (ofNat_ne_percent hlt hne), utf8EncodeChar_ofNat hlt, ih]
      rfl
    · rw [if_neg hb, percentDecode_triplet, ih]
      rfl

/-- What holds of the digits, of `%` and of what stands for itself holds of every character. -/
theorem forall_mem_encode {P : Char → Prop} {keep : UInt8 → Bool}
    (hkeep : ∀ b, keep b = true → P (Char.ofNat b.toNat)) (hpercent : P '%')
    (hdigit : ∀ n : Fin 16, P (hexDigit n)) {bytes : List UInt8} {c : Char}
    (hc : c ∈ encode keep bytes) : P c := by
  obtain ⟨b, -, hc⟩ := List.mem_flatMap.mp hc
  unfold encodeByte at hc
  have hb : b.toNat < 256 := b.toNat_lt
  split at hc
  · next hkept =>
    rw [List.mem_singleton.mp hc]
    exact hkeep b hkept
  · unfold triplet at hc
    simp only [List.mem_cons, List.not_mem_nil, or_false] at hc
    rcases hc with rfl | rfl | rfl
    · exact hpercent
    · exact hdigit ⟨b.toNat / 16, by omega⟩
    · exact hdigit ⟨b.toNat % 16, by omega⟩

/-! ### One triplet replaced -/

theorem triplet_injective : Function.Injective triplet := by
  intro a b h
  have ha := percentDecode_triplet a []
  rw [h, percentDecode_triplet b []] at ha
  exact (List.head_eq_of_cons_eq ha).symm

theorem percent_notMem_hexDigit (b : UInt8) :
    '%' ∉ [hexDigit (b.toNat / 16), hexDigit (b.toNat % 16)] := by
  have hdigit : ∀ n : Fin 16, '%' ≠ hexDigit n := by decide
  have hb : b.toNat < 256 := b.toNat_lt
  simp only [List.mem_cons, List.not_mem_nil, or_false, not_or]
  exact ⟨hdigit ⟨b.toNat / 16, by omega⟩, hdigit ⟨b.toNat % 16, by omega⟩⟩

/-- Replacing the triplet of a byte by its character keeps the byte, as if chosen before. -/
theorem replace_triplet {keep : UInt8 → Bool} (h : Plain keep) (kept : UInt8) (bytes : List UInt8) :
    Text.replace (triplet kept) [Char.ofNat kept.toNat] (encode keep bytes) =
      encode (fun b => keep b || b == kept) bytes := by
  unfold encode
  apply Text.replace_flatMap
  intro b rest
  unfold encodeByte
  by_cases hb : keep b = true
  · obtain ⟨hlt, hne⟩ := h b hb
    simp only [hb, Bool.true_or, ↓reduceIte]
    apply Text.replace_token
    rw [List.mem_singleton]
    exact (ofNat_ne_percent hlt hne).symm
  · rw [Bool.not_eq_true] at hb
    by_cases hsame : b = kept
    · subst hsame
      simp only [hb, beq_self_eq_true, Bool.or_true, Bool.false_eq_true, ↓reduceIte]
      exact Text.replace_occurrence (List.cons_ne_nil _ _) rest
    · simp only [hb, beq_eq_false_iff_ne.mpr hsame, Bool.or_false, Bool.false_eq_true, ↓reduceIte]
      -- the pattern starts at no digit, and no other triplet is the pattern
      have hother : ¬ triplet kept <+: triplet b ++ rest := by
        intro hprefix
        have hlen : (triplet kept).length = (triplet b).length := rfl
        have hshorter := List.prefix_of_prefix_length_le hprefix (List.prefix_append _ _) hlen.le
        exact hsame (triplet_injective (hshorter.eq_of_length hlen)).symm
      unfold triplet at hother ⊢
      rw [List.cons_append] at hother ⊢
      rw [Text.replace_cons hother, Text.replace_token (percent_notMem_hexDigit b)]
      rfl

end Percent
