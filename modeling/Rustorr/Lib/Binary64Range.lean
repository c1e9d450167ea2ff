import Mathlib.Algebra.Order.Field.Rat
import Mathlib.Tactic.Linarith
import Mathlib.Tactic.Positivity
import Mathlib.Tactic.NormNum
import Rustorr.Lib.Binary64

/-! Integers of 64 bits as binary64: none of them is too large. -/

namespace Binary64

theorem twoPow_pos (e : ℤ) : 0 < twoPow e := by
  unfold twoPow
  split <;> positivity

theorem roundHalfEven_le (q : ℚ) : (roundHalfEven q : ℚ) ≤ q + 1 := by
  have hfloor := Int.floor_le q
  have hle : roundHalfEven q ≤ ⌊q⌋ + 1 := by
    unfold roundHalfEven
    simp only
    split
    · omega
    · split
      · exact le_rfl
      · split <;> omega
  have hcast : (roundHalfEven q : ℚ) ≤ ((⌊q⌋ + 1 : ℤ) : ℚ) := Int.cast_le.mpr hle
  rw [Int.cast_add, Int.cast_one] at hcast
  linarith

theorem exponent_natCast_le {n : ℕ} (h : n < 2 ^ 64) : exponent (n : ℚ) ≤ 63 := by
  have hlog : (Nat.log2 n : ℤ) ≤ 63 := by
    by_cases hzero : n = 0
    · subst hzero
      decide
    · have hlt := (Nat.log2_lt hzero).mpr h
      omega
  have hone : Nat.log2 1 = 0 := by decide
  unfold exponent
  rw [Rat.num_natCast, Rat.den_natCast, Int.natAbs_natCast, hone]
  simp only
  split <;> omega

theorem twoPow_le {e : ℤ} (h : e ≤ 11) : twoPow e ≤ 2 ^ 11 := by
  unfold twoPow
  split
  · next hpos =>
    have hnat : 2 ^ e.toNat ≤ 2 ^ 11 := Nat.pow_le_pow_right (by decide) (by omega)
    exact_mod_cast hnat
  · have hpow : (1 : ℚ) ≤ ((2 ^ (-e).toNat : ℕ) : ℚ) := by exact_mod_cast Nat.one_le_two_pow
    have hinv : 1 / ((2 ^ (-e).toNat : ℕ) : ℚ) ≤ 1 := (div_le_one (by linarith)).mpr hpow
    linarith

/-- Integers of 64 bits are not too large. -/
theorem isFinite_ofInt {n : ℤ} (h : n.natAbs < 2 ^ 64) : isFinite (ofInt n) = true := by
  unfold ofInt ofRat
  split
  · rfl
  · have habs : |(n : ℚ)| = (n.natAbs : ℚ) := (Int.cast_abs.symm.trans (by rw [← Int.natCast_natAbs, Int.cast_natCast]))
    have hexponent : max (exponent |(n : ℚ)|) (-1022) - 52 ≤ 11 := by
      have hle := exponent_natCast_le h
      rw [← habs] at hle
      omega
    have hulp := twoPow_le hexponent
    have hpos := twoPow_pos (max (exponent |(n : ℚ)|) (-1022) - 52)
    simp only
    generalize twoPow (max (exponent |(n : ℚ)|) (-1022) - 52) = ulp at hulp hpos
    have hround := roundHalfEven_le (|(n : ℚ)| / ulp)
    have hvalue : (roundHalfEven (|(n : ℚ)| / ulp) : ℚ) * ulp ≤ |(n : ℚ)| + ulp := by
      have hmul := mul_le_mul_of_nonneg_right hround hpos.le
      rwa [add_mul, div_mul_cancel₀ _ hpos.ne', one_mul] at hmul
    have hsmall : (n.natAbs : ℚ) < 2 ^ 64 := by exact_mod_cast h
    have hcast : ∀ m : ℕ, 2 ^ 65 ≤ m → (2 : ℚ) ^ 65 ≤ (m : ℚ) := fun m hm => by exact_mod_cast hm
    have hlarge : twoPow 1024 = ((2 ^ (1024 : ℤ).toNat : ℕ) : ℚ) := if_pos (by decide)
    have hbound := hcast (2 ^ (1024 : ℤ).toNat) (Nat.pow_le_pow_right (by decide) (by decide))
    rw [← hlarge] at hbound
    have hfits : ¬twoPow 1024 ≤ (roundHalfEven (|(n : ℚ)| / ulp) : ℚ) * ulp := by
      rw [not_le]
      rw [habs] at hvalue ⊢
      generalize twoPow 1024 = large at hbound
      linarith
    rw [if_neg hfits]
    rfl

end Binary64
