import Mathlib.Logic.Function.Basic
import Mathlib.Data.List.Basic
import Mathlib.Data.Nat.Basic
import Mathlib.Algebra.BigOperators.Group.List.Basic
import Mathlib.Algebra.GroupWithZero.Nat

/-! Recency by a logical clock, and the greedy choice of what was used least recently. -/

open Function (update)

namespace Clock

variable {K : Type} {tick tick' : ℕ} {stamp stamp' : K → Option ℕ}

/-- No stamp is ahead of the clock, and no two keys have the same one. -/
structure Ordered (tick : ℕ) (stamp : K → Option ℕ) : Prop where
  past : ∀ k t, stamp k = some t → t ≤ tick
  distinct : ∀ j k t, stamp j = some t → stamp k = some t → j = k

theorem ordered_empty (tick : ℕ) : Ordered tick fun _ : K => none :=
  ⟨fun _ _ h => (nomatch h), fun _ _ _ h => (nomatch h)⟩

theorem Ordered.keep (h : Ordered tick stamp) (hle : tick ≤ tick') : Ordered tick' stamp :=
  ⟨fun k t hk => (h.past k t hk).trans hle, h.distinct⟩

variable [DecidableEq K]

/-- What one use of the clock does to the stamps. -/
inductive Moves (tick : ℕ) (stamp : K → Option ℕ) : ℕ → (K → Option ℕ) → Prop
  | keep {tick' : ℕ} : tick ≤ tick' → Moves tick stamp tick' stamp
  | touch (k : K) : Moves tick stamp (tick + 1) (update stamp k (some (tick + 1)))
  | forget (k : K) : Moves tick stamp tick (update stamp k none)

theorem Ordered.touch (h : Ordered tick stamp) (k : K) :
    Ordered (tick + 1) (update stamp k (some (tick + 1))) := by
  -- the new stamp is ahead of every old one
  have hnew : ∀ j t, j ≠ k → update stamp k (some (tick + 1)) j = some t → t ≤ tick := by
    intro j t hj ht
    rw [Function.update_of_ne hj] at ht
    exact h.past j t ht
  constructor
  · intro j t ht
    by_cases hj : j = k
    · rw [hj, Function.update_self, Option.some.injEq] at ht
      exact ht.symm.le
    · exact (hnew j t hj ht).trans (Nat.le_succ tick)
  · intro i j t hi hj
    by_cases hik : i = k <;> by_cases hjk : j = k
    · exact hik.trans hjk.symm
    · have hle := hnew j t hjk hj
      rw [hik, Function.update_self, Option.some.injEq] at hi
      omega
    · have hle := hnew i t hik hi
      rw [hjk, Function.update_self, Option.some.injEq] at hj
      omega
    · rw [Function.update_of_ne hik] at hi
      rw [Function.update_of_ne hjk] at hj
      exact h.distinct i j t hi hj

theorem Ordered.forget (h : Ordered tick stamp) (k : K) :
    Ordered tick (update stamp k none) := by
  have hold : ∀ j t, update stamp k none j = some t → stamp j = some t := by
    intro j t ht
    by_cases hj : j = k
    · rw [hj, Function.update_self] at ht
      cases ht
    · rwa [Function.update_of_ne hj] at ht
  exact ⟨fun j t ht => h.past j t (hold j t ht),
    fun i j t hi hj => h.distinct i j t (hold i t hi) (hold j t hj)⟩

theorem Ordered.moves (h : Ordered tick stamp) (hmoves : Moves tick stamp tick' stamp') :
    Ordered tick' stamp' := by
  cases hmoves with
  | keep hle => exact h.keep hle
  | touch k => exact h.touch k
  | forget k => exact h.forget k

end Clock

namespace Greedy

variable {α : Type} (weight : α → ℕ)

/-- `cut` is the shortest prefix of `l` that weighs at least `excess`, or all of `l` where
none does. -/
structure IsCut (excess : ℕ) (l cut : List α) : Prop where
  isPrefix : cut <+: l
  enough : excess ≤ (cut.map weight).sum ∨ cut = l
  shortest : ∀ q, q <+: l → q.length < cut.length → (q.map weight).sum < excess

variable {weight}

theorem isCut_nil (l : List α) : IsCut weight 0 l [] :=
  ⟨List.nil_prefix, Or.inl (Nat.zero_le _), fun _ _ h => absurd h (Nat.not_lt_zero _)⟩

theorem isCut_of_nil (excess : ℕ) : IsCut weight excess [] [] :=
  ⟨List.nil_prefix, Or.inr rfl, fun _ _ h => absurd h (Nat.not_lt_zero _)⟩

/-- One more element is cut off while something is still to be made up for. -/
theorem IsCut.cons {excess : ℕ} {a : α} {l cut : List α} (hpos : 0 < excess)
    (h : IsCut weight (excess - weight a) l cut) : IsCut weight excess (a :: l) (a :: cut) where
  isPrefix := List.cons_prefix_cons.mpr ⟨rfl, h.isPrefix⟩
  enough := by
    rcases h.enough with henough | hall
    · left
      simp only [List.map_cons, List.sum_cons]
      omega
    · exact Or.inr (by rw [hall])
  shortest q hq hlen := by
    cases q with
    | nil => simpa using hpos
    | cons b q =>
      obtain ⟨rfl, hrest⟩ := List.cons_prefix_cons.mp hq
      have hlt : q.length < cut.length := by simpa using hlen
      have hless := h.shortest q hrest hlt
      simp only [List.map_cons, List.sum_cons]
      omega

end Greedy
