import Rustorr.Lib.Text
import Mathlib.Tactic.Ring
import Mathlib.Tactic.Zify

/-! Signed 64-bit arithmetic. An operation answers `none` where the machine's would overflow. -/

namespace I64

def ofInt (n : ℤ) : Option ℤ := if -2 ^ 63 ≤ n ∧ n < 2 ^ 63 then some n else none

def add (a b : ℤ) : Option ℤ := ofInt (a + b)

def sub (a b : ℤ) : Option ℤ := ofInt (a - b)

def mul (a b : ℤ) : Option ℤ := ofInt (a * b)

/-- `{n:0width}`: zeros between the sign and the digits. -/
def padded (width : ℕ) (n : ℤ) : List Char :=
  let digits := Text.decimal n.natAbs
  if n < 0 then '-' :: (List.replicate (width - 1 - digits.length) '0' ++ digits)
  else List.replicate (width - digits.length) '0' ++ digits

theorem ofInt_eq_some {n m : ℤ} : ofInt n = some m ↔ (-2 ^ 63 ≤ n ∧ n < 2 ^ 63) ∧ n = m := by
  unfold ofInt
  split <;> simp_all

theorem add_of_mem {a b : ℤ} (h : -2 ^ 63 ≤ a + b ∧ a + b < 2 ^ 63) : add a b = some (a + b) := if_pos h

theorem sub_of_mem {a b : ℤ} (h : -2 ^ 63 ≤ a - b ∧ a - b < 2 ^ 63) : sub a b = some (a - b) := if_pos h

theorem mul_of_mem {a b : ℤ} (h : -2 ^ 63 ≤ a * b ∧ a * b < 2 ^ 63) : mul a b = some (a * b) := if_pos h

theorem add_eq_some {a b c : ℤ} :
    add a b = some c ↔ (-2 ^ 63 ≤ a + b ∧ a + b < 2 ^ 63) ∧ a + b = c := ofInt_eq_some

theorem sub_eq_some {a b c : ℤ} :
    sub a b = some c ↔ (-2 ^ 63 ≤ a - b ∧ a - b < 2 ^ 63) ∧ a - b = c := ofInt_eq_some

theorem mul_eq_some {a b c : ℤ} :
    mul a b = some c ↔ (-2 ^ 63 ≤ a * b ∧ a * b < 2 ^ 63) ∧ a * b = c := ofInt_eq_some

/-! ### Padded numbers -/

variable {width : ℕ} {n : ℤ}

theorem padded_of_nonneg (width : ℕ) (h : 0 ≤ n) : padded width n =
    List.replicate (width - (Text.decimal n.natAbs).length) '0' ++ Text.decimal n.natAbs :=
  if_neg (not_lt.mpr h)

theorem isDigit_of_mem_padded (h : 0 ≤ n) {c : Char} (hc : c ∈ padded width n) : c.isDigit = true := by
  rw [padded_of_nonneg width h, List.mem_append] at hc
  rcases hc with hc | hc
  · rw [List.eq_of_mem_replicate hc]
    rfl
  · exact Text.isDigit_of_mem_decimal hc

theorem padded_ne_nil (h : 0 ≤ n) : padded width n ≠ [] := by
  rw [padded_of_nonneg width h]
  exact List.append_ne_nil_of_right_ne_nil _ (Text.decimal_ne_nil _)

theorem ofDigitChars_padded (h : 0 ≤ n) : Nat.ofDigitChars 10 (padded width n) 0 = n.natAbs := by
  rw [padded_of_nonneg width h, Nat.ofDigitChars_append, Nat.ofDigitChars_replicate_zero, Nat.mul_zero]
  exact Nat.ofDigitChars_ten_toDigits

theorem parseU64_padded {k : ℕ} (h : k < 2 ^ 64) :
    Text.parseU64 (padded width (k : ℤ)) = some ⟨k, h⟩ := by
  have hk : (0 : ℤ) ≤ k := Int.natCast_nonneg k
  have hvalue : Nat.ofDigitChars 10 (padded width (k : ℤ)) 0 = k := ofDigitChars_padded hk
  have hlt : Nat.ofDigitChars 10 (padded width (k : ℤ)) 0 < 2 ^ 64 := hvalue.trans_lt h
  rw [Text.parseU64_of_digits (padded_ne_nil hk) (fun _ hc => isDigit_of_mem_padded hk hc) hlt,
    Option.some_inj]
  exact Fin.ext hvalue

theorem length_padded (hwidth : 0 < width) (h : 0 ≤ n ∧ n < 10 ^ width) :
    (padded width n).length = width := by
  have hlt : n.natAbs < 10 ^ width := by
    zify
    rw [abs_of_nonneg h.1]
    exact h.2
  have hle : (Text.decimal n.natAbs).length ≤ width :=
    (Nat.length_toDigits_le_iff (by decide) hwidth).mpr hlt
  rw [padded_of_nonneg width h.1, List.length_append, List.length_replicate]
  exact Nat.sub_add_cancel hle

/-- A number is less than the power of ten with as many zeros as it has digits. -/
theorem ofDigitChars_lt {digits : List Char} (h : ∀ c ∈ digits, c.isDigit = true) (init : ℕ) :
    Nat.ofDigitChars 10 digits init < (init + 1) * 10 ^ digits.length := by
  induction digits generalizing init with
  | nil => simp
  | cons c digits ih =>
    obtain ⟨hc, hdigits⟩ := List.forall_mem_cons.mp h
    have hten : c.toNat ≤ '9'.toNat := (Char.isDigit_iff_toNat.mp hc).2
    have hnine : '9'.toNat = '0'.toNat + 9 := rfl
    have hrest := ih hdigits (10 * init + (c.toNat - '0'.toNat))
    rw [Nat.ofDigitChars_cons, List.length_cons, Nat.pow_succ]
    calc _ < (10 * init + (c.toNat - '0'.toNat) + 1) * 10 ^ digits.length := hrest
      _ ≤ ((init + 1) * 10) * 10 ^ digits.length := Nat.mul_le_mul_right _ (by omega)
      _ = (init + 1) * (10 ^ digits.length * 10) := by ring

end I64
