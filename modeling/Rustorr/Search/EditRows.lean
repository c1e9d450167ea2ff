import Rustorr.Lib.EditDistance
import Rustorr.Search.Rutor

/-! The rolling rows of `levenshtein`. Each cell of a row holds the distance of two beginnings, so
the last cell of the last row holds that of the texts. -/

namespace Rustorr.Rutor

open EditDistance

variable {left right previous current : List Char} {n : ℕ}

/-- The cells of a row up to the `n`-th hold the distances from `left` to what `right` begins with. -/
structure Filled (left right : List Char) (n : ℕ) (cells : List ℕ) : Prop where
  length : cells.length = right.length + 1
  get : ∀ k ≤ n, cells[k]? = some (distance left (right.take k))

theorem filled_first (right : List Char) :
    Filled [] right right.length (List.range (right.length + 1)) := by
  constructor
  · exact List.length_range
  · intro k hk
    have hlength : (right.take k).length = k := by
      rw [List.length_take]
      exact min_eq_left hk
    rw [List.getElem?_range (Nat.lt_succ_of_le hk), distance_nil_left, hlength]

theorem filled_start (left right : List Char) :
    Filled left right 0 (List.replicate (right.length + 1) left.length) := by
  constructor
  · exact List.length_replicate
  · intro k hk
    obtain rfl : k = 0 := Nat.le_zero.mp hk
    rw [List.getElem?_replicate, if_pos (Nat.succ_pos _), List.take_zero, distance_nil_right]

theorem cell_filled {previous current : List ℕ} {leftChar rightChar : Char} {j : ℕ}
    (hprevious : Filled left right right.length previous)
    (hcurrent : Filled (left ++ [leftChar]) right j current) (hj : right[j]? = some rightChar) :
    ∃ filled, cell previous leftChar current (rightChar, j) = some filled ∧
      Filled (left ++ [leftChar]) right (j + 1) filled := by
  have hlt : j < right.length := (List.getElem?_eq_some_iff.mp hj).1
  have htake : right.take (j + 1) = right.take j ++ [rightChar] := by
    rw [List.take_add_one, hj]
    rfl
  have hsubstitution := hprevious.get j hlt.le
  have hdeletion := hprevious.get (j + 1) hlt
  have hinsertion := hcurrent.get j le_rfl
  have hroom : j + 1 < current.length := by
    rw [hcurrent.length]
    exact Nat.succ_lt_succ hlt
  refine ⟨current.set (j + 1) (distance (left ++ [leftChar]) (right.take (j + 1))), ?_, ?_, ?_⟩
  · rw [htake] at hdeletion ⊢
    rw [distance_concat]
    unfold cell cost
    simp only [hsubstitution, hdeletion, hinsertion, Option.bind_eq_bind, Option.bind_some,
      if_pos hroom, ite_not]
  · rw [List.length_set]
    exact hcurrent.length
  · intro k hk
    rcases Nat.le_succ_iff.mp hk with hle | rfl
    · rw [List.getElem?_set_ne (Nat.ne_of_gt (Nat.lt_succ_of_le hle))]
      exact hcurrent.get k hle
    · exact List.getElem?_set_self hroom

/-- Filling in the rest of a row. -/
theorem foldlM_cell {previous : List ℕ} {leftChar : Char}
    (hprevious : Filled left right right.length previous) (rest : List Char) :
    ∀ (j : ℕ) (current : List ℕ), right.drop j = rest →
      Filled (left ++ [leftChar]) right j current →
      ∃ filled, (rest.zipIdx j).foldlM (cell previous leftChar) current = some filled ∧
        Filled (left ++ [leftChar]) right right.length filled := by
  induction rest with
  | nil =>
    intro j current hdrop hcurrent
    have hle : right.length ≤ j := List.drop_eq_nil_iff.mp hdrop
    exact ⟨current, rfl, hcurrent.length, fun k hk => hcurrent.get k (hk.trans hle)⟩
  | cons rightChar rest ih =>
    intro j current hdrop hcurrent
    have hj : right[j]? = some rightChar := by
      rw [← List.head?_drop, hdrop]
      rfl
    have hnext : right.drop (j + 1) = rest := by
      rw [← List.tail_drop, hdrop]
      rfl
    obtain ⟨filled, hcell, hfilled⟩ := cell_filled hprevious hcurrent hj
    rw [List.zipIdx_cons, List.foldlM_cons, hcell]
    exact ih (j + 1) filled hnext hfilled

theorem row_filled {previous : List ℕ} (leftChar : Char)
    (hprevious : Filled left right right.length previous) :
    ∃ filled, row right previous (leftChar, left.length) = some filled ∧
      Filled (left ++ [leftChar]) right right.length filled := by
  have hstart := filled_start (left ++ [leftChar]) right
  rw [List.length_append, List.length_singleton] at hstart
  exact foldlM_cell hprevious right 0 _ rfl hstart

/-- Going on with the rest of the rows. -/
theorem foldlM_row (left right rest : List Char) :
    ∀ (i : ℕ) (previous : List ℕ), left.drop i = rest →
      Filled (left.take i) right right.length previous →
      ∃ last, (rest.zipIdx i).foldlM (row right) previous = some last ∧
        Filled left right right.length last := by
  induction rest with
  | nil =>
    intro i previous hdrop hprevious
    rw [List.take_of_length_le (List.drop_eq_nil_iff.mp hdrop)] at hprevious
    exact ⟨previous, rfl, hprevious⟩
  | cons leftChar rest ih =>
    intro i previous hdrop hprevious
    have hi : left[i]? = some leftChar := by
      rw [← List.head?_drop, hdrop]
      rfl
    have hlt : i < left.length := (List.getElem?_eq_some_iff.mp hi).1
    have hnext : left.drop (i + 1) = rest := by
      rw [← List.tail_drop, hdrop]
      rfl
    have htake : left.take (i + 1) = left.take i ++ [leftChar] := by
      rw [List.take_add_one, hi]
      rfl
    have hlength : (left.take i).length = i := List.length_take_of_le hlt.le
    obtain ⟨filled, hrow, hfilled⟩ := row_filled leftChar hprevious
    rw [hlength] at hrow
    rw [← htake] at hfilled
    rw [List.zipIdx_cons, List.foldlM_cons, hrow]
    exact ih (i + 1) filled hnext hfilled

theorem levenshtein_distance (left right : List Char) :
    levenshtein left right = some (distance left right) := by
  obtain ⟨last, hrows, hlast⟩ := foldlM_row left right left 0 _ rfl (filled_first right)
  have hcell := hlast.get right.length le_rfl
  rw [List.take_length] at hcell
  unfold levenshtein
  rw [hrows]
  exact hcell

/-- No index is out of bounds, and the result is the distance: symmetric, and nothing only between
equal texts. -/
theorem levenshtein_spec (left right : List Char) :
    levenshtein left right = some (distance left right) ∧
      levenshtein left right = levenshtein right left ∧
      (levenshtein left right = some 0 ↔ left = right) := by
  rw [levenshtein_distance, levenshtein_distance]
  refine ⟨rfl, ?_, ?_⟩
  · rw [distance_comm]
  · rw [Option.some_inj]
    exact distance_eq_zero

example : levenshtein "film".toList "filmremake".toList = some 6 := by decide

end Rustorr.Rutor
