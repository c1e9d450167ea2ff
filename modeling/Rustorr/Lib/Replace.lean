import Rustorr.Lib.Text
import Mathlib.Data.List.Infix

/-! Texts put together from pieces: what replacing every occurrence of a pattern does to tokens,
and when the lines of a text are the ones that were written. -/

namespace Text

/-- The occurrences from left to right, after `skip` characters of the last one. -/
def replaceFrom (pattern new : List Char) : ℕ → List Char → List Char
  | _, [] => []
  | skip + 1, _ :: s => replaceFrom pattern new skip s
  | 0, c :: s =>
    if pattern <+: c :: s then new ++ replaceFrom pattern new (pattern.length - 1) s
    else c :: replaceFrom pattern new 0 s

/-- `str::replace`, of a pattern that is not empty. -/
def replace (pattern new s : List Char) : List Char := replaceFrom pattern new 0 s

variable {pattern new : List Char}

@[simp] theorem replace_nil : replace pattern new [] = [] := rfl

theorem replaceFrom_eq (skip : ℕ) (s : List Char) :
    replaceFrom pattern new skip s = replace pattern new (s.drop skip) := by
  induction skip generalizing s with
  | zero => rfl
  | succ skip ih =>
    cases s with
    | nil => rfl
    | cons c s => exact ih s

theorem replace_cons {c : Char} {s : List Char} (h : ¬ pattern <+: c :: s) :
    replace pattern new (c :: s) = c :: replace pattern new s := by
  unfold replace
  rw [replaceFrom, if_neg h]

theorem replace_occurrence (h : pattern ≠ []) (rest : List Char) :
    replace pattern new (pattern ++ rest) = new ++ replace pattern new rest := by
  obtain ⟨c, more, rfl⟩ := List.exists_cons_of_ne_nil h
  have hprefix : c :: more <+: c :: (more ++ rest) := List.prefix_append (c :: more) rest
  rw [List.cons_append, replace, replaceFrom, if_pos hprefix, replaceFrom_eq, List.length_cons,
    Nat.add_sub_cancel, List.drop_left]

/-- A token without the first character of the pattern stays. -/
theorem replace_token {c : Char} {more token : List Char} (h : c ∉ token) (rest : List Char) :
    replace (c :: more) new (token ++ rest) = token ++ replace (c :: more) new rest := by
  induction token with
  | nil => rfl
  | cons d token ih =>
    obtain ⟨hd, htoken⟩ := List.ne_and_not_mem_of_not_mem_cons h
    rw [List.cons_append, replace_cons, ih htoken, List.cons_append]
    intro hprefix
    exact hd (List.cons_prefix_cons.mp hprefix).1

/-- Where each token has a replacement of its own, the text has theirs. -/
theorem replace_flatMap {α : Type} {f g : α → List Char}
    (h : ∀ a rest, replace pattern new (f a ++ rest) = g a ++ replace pattern new rest) (s : List α) :
    replace pattern new (s.flatMap f) = s.flatMap g := by
  induction s with
  | nil => rfl
  | cons a s ih => rw [List.flatMap_cons, List.flatMap_cons, h, ih]

/-! ### Terminated lines -/

/-- The terminated lines of a text. -/
def terminated (text : List Char) : List (List Char) := (text.splitOn '\n').dropLast

theorem notMem_of_mem_splitOn {s t : List Char} {c : Char} (h : t ∈ s.splitOn c) : c ∉ t := by
  induction s generalizing t with
  | nil =>
    rw [List.splitOn_nil, List.mem_singleton] at h
    simp [h]
  | cons d s ih =>
    rw [List.splitOn_cons_eq_if_modifyHead] at h
    split at h
    · rcases List.mem_cons.mp h with rfl | h
      · simp
      · exact ih h
    · rename_i hd
      obtain ⟨first, rest, hsplit⟩ := List.exists_cons_of_ne_nil (List.splitOn_ne_nil c s)
      rw [hsplit, List.modifyHead_cons] at h
      rcases List.mem_cons.mp h with rfl | h
      · have hfirst := ih (t := first) (by rw [hsplit]; exact List.mem_cons_self)
        simp only [List.mem_cons, not_or]
        exact ⟨fun e => hd (by simp [e]), hfirst⟩
      · exact ih (by rw [hsplit]; exact List.mem_cons_of_mem _ h)

theorem notMem_of_mem_terminated {text line : List Char} (h : line ∈ terminated text) :
    '\n' ∉ line := notMem_of_mem_splitOn (List.mem_of_mem_dropLast h)

/-- The lines written are read again exactly where none holds a line break. -/
theorem terminated_unlines_iff {ls : List (List Char)} :
    terminated (unlines ls) = ls ↔ ∀ l ∈ ls, '\n' ∉ l := by
  constructor
  · intro h l hl
    rw [← h] at hl
    exact notMem_of_mem_terminated hl
  · intro h
    have hparts : ∀ part ∈ ls ++ [[]], '\n' ∉ part := by
      intro part hpart
      rcases List.mem_append.mp hpart with hpart | hpart
      · exact h part hpart
      · rw [List.mem_singleton.mp hpart]
        exact List.not_mem_nil
    unfold terminated
    rw [unlines_eq_join, splitOn_join hparts (List.append_ne_nil_of_right_ne_nil ls (List.cons_ne_nil _ _)),
      List.dropLast_concat]

theorem unlines_append (a b : List (List Char)) : unlines (a ++ b) = unlines a ++ unlines b :=
  List.flatMap_append

theorem unlines_flatMap {α : Type} (f : α → List (List Char)) (s : List α) :
    unlines (s.flatMap f) = s.flatMap fun a => unlines (f a) := List.flatMap_assoc

end Text
