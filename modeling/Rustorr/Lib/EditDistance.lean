import Mathlib.Data.List.Basic
import Mathlib.Order.MinMax

/-! The edit distance of two sequences: the least number of insertions, deletions and substitutions
that turn one into the other. It is defined by recursion on the first elements; the scripts it is
the least cost of can be read from either end. -/

namespace EditDistance

universe u

variable {α : Type u} [DecidableEq α]

/-- The cost of writing `b` in the place of `a`. -/
def cost (a b : α) : ℕ := if a = b then 0 else 1

def distance : List α → List α → ℕ
  | [], bs => bs.length
  | a :: as, [] => (a :: as).length
  | a :: as, b :: bs =>
    min (min (distance as bs + cost a b) (distance as (b :: bs) + 1)) (distance (a :: as) bs + 1)
termination_by as bs => as.length + bs.length

/-- Edits of the given cost turn the first sequence into the second. -/
inductive Script : ℕ → List α → List α → Prop
  | nil : Script 0 [] []
  | write {n : ℕ} {as bs : List α} (a b : α) : Script n as bs → Script (n + cost a b) (a :: as) (b :: bs)
  | delete {n : ℕ} {as bs : List α} (a : α) : Script n as bs → Script (n + 1) (a :: as) bs
  | insert {n : ℕ} {as bs : List α} (b : α) : Script n as bs → Script (n + 1) as (b :: bs)

variable {as bs cs ds : List α} {m n : ℕ}

theorem cost_comm (a b : α) : cost a b = cost b a := by
  unfold cost
  simp only [eq_comm]

theorem cost_eq_zero {a b : α} : cost a b = 0 ↔ a = b := by
  unfold cost
  split <;> simp_all

@[simp] theorem distance_nil_left (bs : List α) : distance [] bs = bs.length := by
  unfold distance
  rfl

@[simp] theorem distance_nil_right (as : List α) : distance as [] = as.length := by
  cases as with
  | nil => exact distance_nil_left []
  | cons a as =>
    unfold distance
    rfl

theorem distance_cons (a b : α) (as bs : List α) : distance (a :: as) (b :: bs) =
    min (min (distance as bs + cost a b) (distance as (b :: bs) + 1)) (distance (a :: as) bs + 1) := by
  conv_lhs => unfold distance

/-! ### The distance is the least cost of a script -/

theorem script_insertions (bs : List α) : Script bs.length [] bs := by
  induction bs with
  | nil => exact Script.nil
  | cons b bs ih => exact Script.insert b ih

theorem script_deletions (as : List α) : Script as.length as [] := by
  induction as with
  | nil => exact Script.nil
  | cons a as ih => exact Script.delete a ih

theorem script_distance (as bs : List α) : Script (distance as bs) as bs := by
  induction as, bs using distance.induct with
  | case1 bs =>
    rw [distance_nil_left]
    exact script_insertions bs
  | case2 a as =>
    rw [distance_nil_right]
    exact script_deletions (a :: as)
  | case3 a as b bs hwrite hdelete hinsert =>
    -- the least of the three is one of them
    rw [distance_cons]
    rcases min_choice (min (distance as bs + cost a b) (distance as (b :: bs) + 1))
      (distance (a :: as) bs + 1) with h | h
    · rw [h]
      rcases min_choice (distance as bs + cost a b) (distance as (b :: bs) + 1) with h' | h'
      · rw [h']
        exact Script.write a b hwrite
      · rw [h']
        exact Script.delete a hdelete
    · rw [h]
      exact Script.insert b hinsert

theorem distance_le_write (a b : α) (as bs : List α) :
    distance (a :: as) (b :: bs) ≤ distance as bs + cost a b := by
  rw [distance_cons]
  exact (min_le_left _ _).trans (min_le_left _ _)

theorem distance_le_delete (a : α) (as bs : List α) : distance (a :: as) bs ≤ distance as bs + 1 := by
  cases bs with
  | nil =>
    rw [distance_nil_right, distance_nil_right]
    exact le_rfl
  | cons b bs =>
    rw [distance_cons]
    exact (min_le_left _ _).trans (min_le_right _ _)

theorem distance_le_insert (b : α) (as bs : List α) : distance as (b :: bs) ≤ distance as bs + 1 := by
  cases as with
  | nil =>
    rw [distance_nil_left, distance_nil_left]
    exact le_rfl
  | cons a as =>
    rw [distance_cons]
    exact min_le_right _ _

theorem Script.distance_le (h : Script n as bs) : distance as bs ≤ n := by
  induction h with
  | nil => exact le_of_eq (distance_nil_left [])
  | write a b _ ih => exact (distance_le_write a b _ _).trans (Nat.add_le_add_right ih _)
  | delete a _ ih => exact (distance_le_delete a _ _).trans (Nat.add_le_add_right ih _)
  | insert b _ ih => exact (distance_le_insert b _ _).trans (Nat.add_le_add_right ih _)

/-! ### Scripts in the other direction -/

theorem Script.append (h : Script m as bs) (h' : Script n cs ds) :
    Script (m + n) (as ++ cs) (bs ++ ds) := by
  induction h with
  | nil =>
    rw [Nat.zero_add]
    exact h'
  | write a b _ ih =>
    rw [Nat.add_right_comm]
    exact Script.write a b ih
  | delete a _ ih =>
    rw [Nat.add_right_comm]
    exact Script.delete a ih
  | insert b _ ih =>
    rw [Nat.add_right_comm]
    exact Script.insert b ih

theorem Script.reverse (h : Script n as bs) : Script n as.reverse bs.reverse := by
  induction h with
  | nil => exact Script.nil
  | write a b _ ih =>
    rw [List.reverse_cons, List.reverse_cons]
    have hlast := Script.write a b Script.nil
    rw [Nat.zero_add] at hlast
    exact ih.append hlast
  | delete a _ ih =>
    rw [List.reverse_cons]
    have hlast := ih.append (Script.delete a Script.nil)
    rwa [List.append_nil] at hlast
  | insert b _ ih =>
    rw [List.reverse_cons]
    have hlast := ih.append (Script.insert b Script.nil)
    rwa [List.append_nil] at hlast

theorem Script.symm (h : Script n as bs) : Script n bs as := by
  induction h with
  | nil => exact Script.nil
  | write a b _ ih =>
    rw [cost_comm]
    exact Script.write b a ih
  | delete a _ ih => exact Script.insert a ih
  | insert b _ ih => exact Script.delete b ih

theorem distance_comm (as bs : List α) : distance as bs = distance bs as :=
  le_antisymm (script_distance bs as).symm.distance_le (script_distance as bs).symm.distance_le

theorem distance_reverse (as bs : List α) : distance as.reverse bs.reverse = distance as bs := by
  apply le_antisymm
  · exact (script_distance as bs).reverse.distance_le
  · have h := (script_distance as.reverse bs.reverse).reverse
    rw [List.reverse_reverse, List.reverse_reverse] at h
    exact h.distance_le

/-- The recursion on the last elements. -/
theorem distance_concat (a b : α) (as bs : List α) : distance (as ++ [a]) (bs ++ [b]) =
    min (min (distance as bs + cost a b) (distance as (bs ++ [b]) + 1))
      (distance (as ++ [a]) bs + 1) := by
  have h := distance_cons a b as.reverse bs.reverse
  rw [← List.reverse_concat, ← List.reverse_concat] at h
  rwa [distance_reverse, distance_reverse, distance_reverse, distance_reverse] at h

theorem Script.eq_of_zero (h : Script n as bs) : n = 0 → as = bs := by
  induction h with
  | nil => exact fun _ => rfl
  | write a b _ ih =>
    intro hn
    obtain ⟨hzero, hcost⟩ := Nat.add_eq_zero_iff.mp hn
    rw [ih hzero, cost_eq_zero.mp hcost]
  | delete a _ _ => exact fun hn => absurd hn (Nat.succ_ne_zero _)
  | insert b _ _ => exact fun hn => absurd hn (Nat.succ_ne_zero _)

theorem script_self (as : List α) : Script 0 as as := by
  induction as with
  | nil => exact Script.nil
  | cons a as ih =>
    have h := Script.write a a ih
    rwa [cost_eq_zero.mpr rfl] at h

theorem distance_eq_zero {as bs : List α} : distance as bs = 0 ↔ as = bs := by
  constructor
  · exact (script_distance as bs).eq_of_zero
  · intro h
    rw [h]
    exact Nat.le_zero.mp (script_self bs).distance_le

end EditDistance
