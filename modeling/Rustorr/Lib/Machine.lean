import Mathlib.Order.Lattice
import Mathlib.Data.Nat.Basic
import Mathlib.Algebra.BigOperators.Group.List.Basic
import Mathlib.Algebra.GroupWithZero.Nat

/-! Fixed-width unsigned integers. Values are naturals; a checked operation
answers `none` where the machine operation would overflow. -/

abbrev U32 : Type := Fin (2 ^ 32)

abbrev U64 : Type := Fin (2 ^ 64)

abbrev I64 : Type := {x : ℤ // -2 ^ 63 ≤ x ∧ x < 2 ^ 63}

instance neZero_two_pow_32 : NeZero (2 ^ 32) := ⟨by decide⟩

instance neZero_two_pow_64 : NeZero (2 ^ 64) := ⟨by decide⟩

namespace U64

theorem val_lt (n : U64) : (n : ℕ) < 2 ^ 64 := n.isLt

def checkedAdd (a b : ℕ) : Option ℕ := if a + b < 2 ^ 64 then some (a + b) else none

def checkedMul (a b : ℕ) : Option ℕ := if a * b < 2 ^ 64 then some (a * b) else none

def checkedSub (a b : ℕ) : Option ℕ := if b ≤ a then some (a - b) else none

def saturatingAdd (a b : ℕ) : ℕ := min (a + b) (2 ^ 64 - 1)

theorem checkedAdd_of_lt {a b : ℕ} (h : a + b < 2 ^ 64) : checkedAdd a b = some (a + b) := if_pos h

theorem checkedMul_of_lt {a b : ℕ} (h : a * b < 2 ^ 64) : checkedMul a b = some (a * b) := if_pos h

theorem checkedSub_of_le {a b : ℕ} (h : b ≤ a) : checkedSub a b = some (a - b) := if_pos h

theorem checkedAdd_eq_some {a b c : ℕ} :
    checkedAdd a b = some c ↔ a + b < 2 ^ 64 ∧ a + b = c := by
  unfold checkedAdd
  split <;> simp_all

theorem checkedAdd_eq_none {a b : ℕ} : checkedAdd a b = none ↔ 2 ^ 64 ≤ a + b := by
  simp [checkedAdd]

/-- `iter().try_fold(0, checked_add)`. -/
def checkedSum (l : List ℕ) : Option ℕ := l.foldlM checkedAdd 0

theorem foldlM_checkedAdd {l : List ℕ} {a c : ℕ} (ha : a < 2 ^ 64) :
    l.foldlM checkedAdd a = some c ↔ a + l.sum < 2 ^ 64 ∧ a + l.sum = c := by
  induction l generalizing a with
  | nil =>
    simp only [List.foldlM_nil, List.sum_nil, Option.pure_def, Option.some.injEq]
    omega
  | cons x l ih =>
    rw [List.foldlM_cons, List.sum_cons]
    by_cases h : a + x < 2 ^ 64
    · rw [checkedAdd_of_lt h, Option.bind_eq_bind, Option.bind_some, ih h, Nat.add_assoc]
    · rw [checkedAdd_eq_none.mpr (not_lt.mp h), Option.bind_eq_bind, Option.bind_none]
      simp only [reduceCtorEq, false_iff, not_and]
      omega

theorem checkedSum_eq_some {l : List ℕ} {c : ℕ} :
    checkedSum l = some c ↔ l.sum < 2 ^ 64 ∧ l.sum = c := by
  simp [checkedSum, foldlM_checkedAdd (show 0 < 2 ^ 64 by decide)]

def divCeil (a b : ℕ) : ℕ := if a % b > 0 then a / b + 1 else a / b

end U64
