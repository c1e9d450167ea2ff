import Mathlib.Data.List.DropRight
import Mathlib.Tactic.Common

/-! Lists with an end taken off. -/

namespace List

variable {α : Type*} {p q : α → Bool} {l : List α}

theorem mem_dropWhile_of_neg {x : α} (hx : x ∈ l) (hp : p x = false) : x ∈ l.dropWhile p := by
  rw [← takeWhile_append_dropWhile (p := p) (l := l)] at hx
  rcases mem_append.mp hx with hx | hx
  · have htrue := mem_takeWhile_imp hx
    rw [hp] at htrue
    cases htrue
  · exact hx

theorem mem_rdropWhile_of_neg {x : α} (hx : x ∈ l) (hp : p x = false) : x ∈ l.rdropWhile p := by
  unfold rdropWhile
  exact mem_reverse.mpr (mem_dropWhile_of_neg (mem_reverse.mpr hx) hp)

theorem dropWhile_congr (h : ∀ x ∈ l, p x = q x) : l.dropWhile p = l.dropWhile q := by
  induction l with
  | nil => rfl
  | cons x l ih =>
    rw [dropWhile_cons, dropWhile_cons, h x mem_cons_self]
    rw [ih fun y hy => h y (mem_cons_of_mem x hy)]

theorem rdropWhile_congr (h : ∀ x ∈ l, p x = q x) : l.rdropWhile p = l.rdropWhile q := by
  unfold rdropWhile
  rw [dropWhile_congr fun x hx => h x (mem_reverse.mp hx)]

theorem rdropWhile_subset (p : α → Bool) (l : List α) : l.rdropWhile p ⊆ l :=
  ( rdropWhile_prefix p l).subset

/-- What does not go off the end keeps all that stands before it. -/
theorem rdropWhile_append_of_neg {l' : List α} (h : ∀ x ∈ l, p x = false) :
    (l ++ l').rdropWhile p = l ++ l'.rdropWhile p := by
  induction l' using List.reverseRecOn with
  | nil =>
    rw [append_nil, rdropWhile_nil, append_nil, rdropWhile_eq_self_iff]
    intro hne
    rw [h _ (getLast_mem hne)]
    exact Bool.false_ne_true
  | append_singleton l' x ih =>
    rw [← append_assoc, rdropWhile_concat, rdropWhile_concat]
    split
    · exact ih
    · rw [append_assoc]

end List
