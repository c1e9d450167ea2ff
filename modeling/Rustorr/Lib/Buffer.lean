import Mathlib.Data.List.Basic
import Mathlib.Tactic.Common
import Rustorr.Lib.Fallible

/-! Buffers that are read at positions, where a read outside of the buffer is a fault. -/

namespace Buffer

inductive Fault
  | outOfBounds
  deriving DecidableEq, Repr

abbrev Checked (α : Type) := Except Fault α

variable {α : Type} {data : List α} {start stop n : ℕ}

/-- What stands between two positions. -/
def part (data : List α) (start stop : ℕ) : List α := (data.drop start).take (stop - start)

/-- `data[start..stop]`. -/
def slice (data : List α) (start stop : ℕ) : Checked (List α) :=
  if start ≤ stop ∧ stop ≤ data.length then .ok (part data start stop) else .error .outOfBounds

/-- `data[i]`. -/
def get (data : List α) (i : ℕ) : Checked α :=
  match data[i]? with
  | some a => .ok a
  | none => .error .outOfBounds

theorem slice_eq (h : start ≤ stop) (h' : stop ≤ data.length) : slice data start stop = .ok (part data start stop) :=
  if_pos ⟨h, h'⟩

theorem get_ok (h : n < data.length) : ∃ a, get data n = .ok a := by
  refine ⟨data[n], ?_⟩
  unfold get
  rw [List.getElem?_eq_getElem h]

theorem length_part (h : stop ≤ data.length) : (part data start stop).length = stop - start := by
  unfold part
  rw [List.length_take, List.length_drop]
  omega

theorem part_zero (data : List α) : part data 0 data.length = data := by
  unfold part
  rw [List.drop_zero, Nat.sub_zero, List.take_length]

theorem drop_part (data : List α) (start stop n : ℕ) : (part data start stop).drop n = part data (start + n) stop := by
  unfold part
  rw [List.drop_take, List.drop_drop, Nat.sub_add_eq]

theorem take_part (h : start + n ≤ stop) : (part data start stop).take n = part data start (start + n) := by
  unfold part
  rw [List.take_take, Nat.min_eq_left (by omega), Nat.add_sub_cancel_left]

theorem part_eq_nil (h : stop ≤ start) : part data start stop = [] := by
  unfold part
  rw [Nat.sub_eq_zero_of_le h, List.take_zero]

end Buffer
