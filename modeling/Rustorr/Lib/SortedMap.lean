import Mathlib.Order.Defs.LinearOrder
import Mathlib.Order.Lattice
import Mathlib.Data.List.Pairwise

/-! An ordered map kept as the list of its entries in key order, with the
operations of a tree map that reads and edits a neighbourhood of a key. -/

namespace SortedMap

variable {κ ν : Type*} [LinearOrder κ]

def insert (k : κ) (v : ν) : List (κ × ν) → List (κ × ν)
  | [] => [(k, v)]
  | p :: l => if k < p.1 then (k, v) :: p :: l
      else if k = p.1 then (k, v) :: l
      else p :: insert k v l

def remove (k : κ) (l : List (κ × ν)) : List (κ × ν) := l.filter fun p => decide (p.1 ≠ k)

/-- The entry with the greatest key up to `k`. -/
def lastUpTo (k : κ) (l : List (κ × ν)) : Option (κ × ν) :=
  (l.filter fun p => decide (p.1 ≤ k)).getLast?

/-- The entries with a key after `a` and up to `b`, in key order. -/
def between (a b : κ) (l : List (κ × ν)) : List (κ × ν) :=
  l.filter fun p => decide (a < p.1 ∧ p.1 ≤ b)

theorem insert_append (k : κ) (v : ν) (a b : List (κ × ν))
    (ha : ∀ p ∈ a, p.1 < k) (hb : ∀ p ∈ b, k < p.1) :
    insert k v (a ++ b) = a ++ (k, v) :: b := by
  induction a with
  | nil =>
    cases b with
    | nil => rfl
    | cons p b => simp [insert, hb p (by simp)]
  | cons p a ih =>
    have hp := ha p (by simp)
    simp only [List.cons_append, insert, if_neg hp.not_gt, if_neg hp.ne']
    rw [ih fun q hq => ha q (by simp [hq])]

/-- Removing keys one after another keeps the entries with none of them. -/
theorem foldl_remove (ks : List κ) (l : List (κ × ν)) :
    ks.foldl (fun l k => remove k l) l = l.filter fun p => decide (p.1 ∉ ks) := by
  induction ks generalizing l with
  | nil => exact (List.filter_eq_self.mpr (by simp)).symm
  | cons k ks ih =>
    rw [List.foldl_cons, ih, remove, List.filter_filter]
    congr 1
    funext p
    by_cases h : p.1 = k <;> simp [h]

theorem lastUpTo_mem {k : κ} {l : List (κ × ν)} {p : κ × ν} (h : lastUpTo k l = some p) :
    p ∈ l ∧ p.1 ≤ k := by
  have hp := List.mem_of_getLast? h
  simpa using hp

theorem lastUpTo_isSome {k : κ} {l : List (κ × ν)} {p : κ × ν} (hp : p ∈ l) (hk : p.1 ≤ k) :
    ∃ q, lastUpTo k l = some q := by
  refine Option.ne_none_iff_exists'.mp fun h => ?_
  have hnil := List.getLast?_eq_none_iff.mp h
  exact List.filter_eq_nil_iff.mp hnil p hp (decide_eq_true hk)

/-- In a list ordered by `R` every other entry up to `k` comes before the last one. -/
theorem lastUpTo_of_pairwise {R : κ × ν → κ × ν → Prop} {k : κ} {l : List (κ × ν)} {p q : κ × ν}
    (hl : l.Pairwise R) (hq : lastUpTo k l = some q) (hp : p ∈ l) (hk : p.1 ≤ k) :
    p = q ∨ R p q := by
  obtain ⟨init, hinit⟩ := List.getLast?_eq_some_iff.mp hq
  have hmem : p ∈ init ++ [q] := hinit ▸ List.mem_filter.mpr ⟨hp, by simpa using hk⟩
  have hpair : (init ++ [q]).Pairwise R := hinit ▸ hl.filter _
  rcases List.mem_append.mp hmem with h | h
  · exact Or.inr ((List.pairwise_append.mp hpair).2.2 p h q (by simp))
  · exact Or.inl (by simpa using h)

theorem lastUpTo_append_left (k : κ) (a b : List (κ × ν)) (hb : ∀ p ∈ b, k < p.1) :
    lastUpTo k (a ++ b) = lastUpTo k a := by
  have h : b.filter (fun p => decide (p.1 ≤ k)) = [] := by
    simpa using hb
  rw [lastUpTo, List.filter_append, h, List.append_nil, lastUpTo]

theorem lastUpTo_concat (k : κ) (a : List (κ × ν)) (p : κ × ν) (hp : p.1 ≤ k) :
    lastUpTo k (a ++ [p]) = some p := by
  simp [lastUpTo, List.filter_append, hp]

end SortedMap
