import Rustorr.Http.FileServer
import Rustorr.Lib.UrlQuery
import Mathlib.Algebra.BigOperators.Group.List.Basic
import Mathlib.Algebra.GroupWithZero.Nat

/-! What cleaning a rooted name takes away: nothing, or slashes and dots. -/

namespace Rustorr.Path

open UrlQuery (markCount)

variable {p : Char → Bool}

/-- The marks of some parts, with a slash for each. -/
def cost (p : Char → Bool) (parts : List (List Char)) : ℕ :=
  (parts.map fun part => markCount p part + 1).sum

@[simp] theorem cost_nil : cost p [] = 0 := rfl

@[simp] theorem cost_cons (part : List Char) (parts : List (List Char)) :
    cost p (part :: parts) = markCount p part + 1 + cost p parts := List.sum_cons

theorem cost_reverse (parts : List (List Char)) : cost p parts.reverse = cost p parts := by
  unfold cost
  rw [List.map_reverse, List.sum_reverse]

theorem markCount_slash (hslash : p '/' = true) (s : List Char) :
    markCount p ('/' :: s) = markCount p s + 1 := UrlQuery.markCount_cons_of_lt (by decide) hslash

theorem markCount_join (hslash : p '/' = true) {parts : List (List Char)} (hne : parts ≠ []) :
    markCount p (Text.join '/' parts) + 1 = cost p parts := by
  induction parts with
  | nil => exact absurd rfl hne
  | cons part parts ih =>
    cases parts with
    | nil => simp [Text.join]
    | cons next parts =>
      have hjoin : Text.join '/' (part :: next :: parts) =
          part ++ '/' :: Text.join '/' (next :: parts) := by
        unfold Text.join
        rw [List.intercalate_cons_cons]
        simp
      rw [hjoin, UrlQuery.markCount_append, markCount_slash hslash, ih (List.cons_ne_nil _ _),
        cost_cons part]
      omega

theorem cost_splitOn (hslash : p '/' = true) (s : List Char) :
    cost p (s.splitOn '/') = markCount p s + 1 := by
  rw [← markCount_join hslash (List.splitOn_ne_nil '/' s)]
  unfold Text.join
  rw [List.intercalate_splitOn]

/-- A part that is no element adds nothing to what is kept. -/
theorem cost_cleanStep_of_not_element {part : List Char} (hslash : '/' ∉ part)
    (hpart : ¬ Element part) (kept : List (List Char)) :
    cost p (cleanStep true kept part) ≤ cost p kept := by
  unfold cleanStep
  split
  · exact le_rfl
  · next hplain =>
    obtain ⟨hne, hdot⟩ := not_or.mp hplain
    split
    · cases kept with
      | nil => exact le_rfl
      | cons last rest =>
        simp only
        split
        · rw [cost_cons]
          omega
        · exact le_rfl
    · next hdots => exact absurd ⟨hne, hdot, hdots, hslash⟩ hpart

/-- Elements are all kept; with anything else among them less is kept than there was. -/
theorem cost_foldl (parts : List (List Char)) (hparts : ∀ part ∈ parts, '/' ∉ part)
    (kept : List (List Char)) :
    (∀ part ∈ parts, Element part) ∧ parts.foldl (cleanStep true) kept = parts.reverse ++ kept ∨
      (¬ ∀ part ∈ parts, Element part) ∧
        cost p (parts.foldl (cleanStep true) kept) < cost p kept + cost p parts := by
  induction parts generalizing kept with
  | nil => exact Or.inl ⟨fun part hpart => absurd hpart List.not_mem_nil, rfl⟩
  | cons part parts ih =>
    obtain ⟨hslash, hrest⟩ := List.forall_mem_cons.mp hparts
    rw [List.foldl_cons, List.forall_mem_cons, cost_cons]
    by_cases hpart : Element part
    · rw [cleanStep_of_element hpart]
      rcases ih hrest (part :: kept) with ⟨hall, heq⟩ | ⟨hnot, hlt⟩
      · left
        rw [heq, List.reverse_cons, List.append_assoc, List.singleton_append]
        exact ⟨⟨hpart, hall⟩, rfl⟩
      · right
        rw [cost_cons] at hlt
        exact ⟨fun h => hnot h.2, by omega⟩
    · right
      refine ⟨fun h => hpart h.1, ?_⟩
      have hstep := cost_cleanStep_of_not_element (p := p) hslash hpart kept
      rcases ih hrest (cleanStep true kept part) with ⟨-, heq⟩ | ⟨-, hlt⟩
      · have hsum : cost p (parts.reverse ++ cleanStep true kept part) =
            cost p parts + cost p (cleanStep true kept part) := by
          unfold cost
          rw [List.map_append, List.sum_append, List.map_reverse, List.sum_reverse]
        rw [heq, hsum]
        omega
      · omega

/-- A name of elements is clean. -/
theorem clean_of_elements {rest : List Char} (h : ∀ part ∈ rest.splitOn '/', Element part) :
    clean ('/' :: rest) = '/' :: rest := by
  have hparts : ∀ part ∈ rest.splitOn '/', '/' ∉ part := fun _ hs => Text.notMem_of_mem_splitOn hs
  rcases cost_foldl (p := fun _ => true) _ hparts [] with ⟨-, heq⟩ | ⟨hnot, -⟩
  · rw [clean_rooted, heq, List.append_nil, List.reverse_reverse]
    unfold Text.join
    rw [List.intercalate_splitOn]
  · exact absurd h hnot

/-- Any other name below the root loses marks when it is cleaned. -/
theorem markCount_clean (hslash : p '/' = true) (hdot : p '.' = true) {rest : List Char}
    (hne : rest ≠ []) (h : ¬ ∀ part ∈ rest.splitOn '/', Element part) :
    markCount p (clean ('/' :: rest)) < markCount p ('/' :: rest) := by
  have hparts : ∀ part ∈ rest.splitOn '/', '/' ∉ part := fun _ hs => Text.notMem_of_mem_splitOn hs
  rcases cost_foldl (p := p) _ hparts [] with ⟨hall, -⟩ | ⟨-, hlt⟩
  · exact absurd hall h
  rw [clean_rooted, markCount_slash hslash, markCount_slash hslash]
  rw [cost_nil, Nat.zero_add, cost_splitOn hslash] at hlt
  generalize (rest.splitOn '/').foldl (cleanStep true) [] = kept at hlt
  rcases eq_or_ne kept [] with rfl | hkept
  · -- nothing is left: there was a slash or a dot
    have hpos : 0 < markCount p rest := by
      by_contra hzero
      have hnone : ∀ c, c < '\x80' → p c = true → c ∉ rest := by
        intro c hlt hc hmem
        exact hzero (List.countP_pos_iff.mpr ⟨c, hmem, by rw [decide_eq_true hlt, hc]; rfl⟩)
      have hslashes := hnone '/' (by decide) hslash
      have hdots := hnone '.' (by decide) hdot
      apply h
      intro part hpart
      rw [List.splitOn_eq_singleton hslashes, List.mem_singleton] at hpart
      subst hpart
      refine ⟨hne, ?_, ?_, hslashes⟩
      · rintro rfl
        exact hdots List.mem_cons_self
      · rintro rfl
        exact hdots List.mem_cons_self
    exact Nat.succ_lt_succ hpos
  · have hcount := markCount_join (p := p) hslash (mt List.reverse_eq_nil_iff.mp hkept)
    rw [cost_reverse] at hcount
    omega

end Rustorr.Path
