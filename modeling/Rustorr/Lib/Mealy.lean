import Mathlib.Data.Nat.Notation

/-! Machines that answer every input and move to a next state, their runs, and
simulations between them. -/

namespace Mealy

variable {σ τ ι ο : Type*} (step : σ → ι → ο × σ) (step' : τ → ι → ο × τ)

/-- The outputs of a run, in order, and the state after it. -/
def run (s : σ) : List ι → List ο × σ
  | [] => ([], s)
  | i :: is =>
    let rest := run (step s i).2 is
    ((step s i).1 :: rest.1, rest.2)

/-- The state after a run. -/
def after (s : σ) (is : List ι) : σ := is.foldl (fun s i => (step s i).2) s

@[simp] theorem after_nil (s : σ) : after step s [] = s := rfl

@[simp] theorem after_cons (s : σ) (i : ι) (is : List ι) :
    after step s (i :: is) = after step (step s i).2 is := rfl

theorem after_append (s : σ) (is js : List ι) :
    after step s (is ++ js) = after step (after step s is) js := List.foldl_append

theorem run_state (s : σ) (is : List ι) : (run step s is).2 = after step s is := by
  induction is generalizing s with
  | nil => rfl
  | cons i is ih => exact ih _

/-- The output at a position is that of one step from the state before it. -/
theorem run_output (s : σ) (is : List ι) (k : ℕ) :
    (run step s is).1[k]? = is[k]?.map fun i => (step (after step s (is.take k)) i).1 := by
  induction is generalizing s k with
  | nil => simp [run]
  | cons i is ih =>
    cases k with
    | zero => simp [run]
    | succ k => simpa [run] using ih (step s i).2 k

/-- What every step preserves holds after every run. -/
theorem after_invariant {P : σ → Prop} (hstep : ∀ s i, P s → P (step s i).2) {s : σ} (hs : P s)
    (is : List ι) : P (after step s is) := by
  induction is generalizing s with
  | nil => exact hs
  | cons i is ih => exact ih (hstep s i hs)

theorem after_take_succ (s : σ) {is : List ι} {k : ℕ} {i : ι} (h : is[k]? = some i) :
    after step s (is.take (k + 1)) = (step (after step s (is.take k)) i).2 := by
  rw [List.take_add_one, h, Option.toList_some, after_append]
  rfl

theorem after_take_succ_of_none (s : σ) {is : List ι} {k : ℕ} (h : is[k]? = none) :
    after step s (is.take (k + 1)) = after step s (is.take k) := by
  rw [List.take_add_one, h, Option.toList_none, List.append_nil]

/-- What every step that is not bad preserves holds throughout a run without bad steps. -/
theorem forall_after_of_not_bad {P : σ → Prop} {B : σ → ι → Prop}
    (hkeep : ∀ s i, P s → ¬B s i → P (step s i).2) {s : σ} (hs : P s) {is : List ι}
    (hgood : ∀ k i, is[k]? = some i → ¬B (after step s (is.take k)) i) (k : ℕ) :
    P (after step s (is.take k)) := by
  induction k with
  | zero => exact hs
  | succ k ih =>
    cases hi : is[k]? with
    | none => rwa [after_take_succ_of_none step s hi]
    | some i =>
      rw [after_take_succ step s hi]
      exact hkeep _ i ih (hgood k i hi)

/-- Where a step leaves the invariant exactly by being bad, and then at once
breaks the property, every state of a run has the property just when no step of
the run is bad. -/
theorem forall_after_iff {P Q : σ → Prop} {B : σ → ι → Prop} (hPQ : ∀ s, P s → Q s)
    (hkeep : ∀ s i, P s → ¬B s i → P (step s i).2)
    (hbreak : ∀ s i, P s → B s i → ¬Q (step s i).2) {s : σ} (hs : P s) (is : List ι) :
    (∀ k, Q (after step s (is.take k))) ↔
      ∀ k i, is[k]? = some i → ¬B (after step s (is.take k)) i := by
  constructor
  · intro hQ
    have hgood : ∀ k, P (after step s (is.take k)) →
        ∀ i, is[k]? = some i → ¬B (after step s (is.take k)) i := fun k hp i hi hb =>
      hbreak _ i hp hb (after_take_succ step s hi ▸ hQ (k + 1))
    have hP : ∀ k, P (after step s (is.take k)) := by
      intro k
      induction k with
      | zero => exact hs
      | succ k ih =>
        cases hi : is[k]? with
        | none => rwa [after_take_succ_of_none step s hi]
        | some i =>
          rw [after_take_succ step s hi]
          exact hkeep _ i ih (hgood k ih i hi)
    exact fun k => hgood k (hP k)
  · exact fun hgood k => hPQ _ (forall_after_of_not_bad step hkeep hs hgood k)

/-- A relation that every pair of steps preserves holds after every run. -/
theorem after_simulation {R : σ → τ → Prop}
    (hstep : ∀ s t i, R s t → R (step s i).2 (step' t i).2) {s : σ} {t : τ} (hst : R s t)
    (is : List ι) : R (after step s is) (after step' t is) := by
  induction is generalizing s t with
  | nil => exact hst
  | cons i is ih => exact ih (hstep s t i hst)

/-- States whose steps answer alike and stay related answer alike for good. -/
theorem run_eq_of_simulation {R : σ → τ → Prop}
    (hstep : ∀ s t i, R s t → (step s i).1 = (step' t i).1 ∧ R (step s i).2 (step' t i).2)
    {s : σ} {t : τ} (hst : R s t) (is : List ι) : (run step s is).1 = (run step' t is).1 := by
  induction is generalizing s t with
  | nil => rfl
  | cons i is ih =>
    obtain ⟨hanswer, hnext⟩ := hstep s t i hst
    show (step s i).1 :: _ = (step' t i).1 :: _
    rw [hanswer, ih hnext]

end Mealy
