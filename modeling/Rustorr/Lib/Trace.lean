import Mathlib.Data.List.Basic

/-! Runs of a relation whose steps may tell something, and what they keep. -/

namespace Trace

variable {σ ε : Type*} {Step : σ → List ε → σ → Prop} {s t u : σ} {log log' : List ε}

/-- A run, and all that its steps told, in order. -/
inductive Run (Step : σ → List ε → σ → Prop) : σ → List ε → σ → Prop
  | refl (s : σ) : Run Step s [] s
  | snoc {s t u : σ} {log told : List ε} : Run Step s log t → Step t told u → Run Step s (log ++ told) u

theorem Run.single (h : Step s log t) : Run Step s log t := by
  have hrun := Run.snoc (Run.refl s) h
  rwa [List.nil_append] at hrun

theorem Run.trans (h : Run Step s log t) (h' : Run Step t log' u) : Run Step s (log ++ log') u := by
  induction h' with
  | refl => rwa [List.append_nil]
  | snoc _ hstep ih =>
    rw [← List.append_assoc]
    exact Run.snoc ih hstep

/-- What every step keeps holds after every run. -/
theorem Run.keeps {P : σ → Prop} (hstep : ∀ s told t, Step s told t → P s → P t)
    (h : Run Step s log t) (hs : P s) : P t := by
  induction h with
  | refl => exact hs
  | snoc _ hlast ih => exact hstep _ _ _ hlast ih

/-- What every step keeps of a state and all that was told so far. -/
theorem Run.keeps_log {P : List ε → σ → Prop}
    (hstep : ∀ log s told t, Step s told t → P log s → P (log ++ told) t)
    (h : Run Step s log t) (hs : P [] s) : P log t := by
  induction h with
  | refl => exact hs
  | snoc _ hlast ih => exact hstep _ _ _ _ hlast ih

/-- What every step that tells only good things keeps holds after a run that tells only
good things. -/
theorem Run.keeps_of_all {P : σ → Prop} {Good : ε → Prop}
    (hstep : ∀ s told t, Step s told t → (∀ e ∈ told, Good e) → P s → P t)
    (h : Run Step s log t) (hlog : ∀ e ∈ log, Good e) (hs : P s) : P t := by
  induction h with
  | refl => exact hs
  | snoc _ hlast ih =>
    refine hstep _ _ _ hlast (fun e he => hlog e (List.mem_append_right _ he)) (ih ?_)
    exact fun e he => hlog e (List.mem_append_left _ he)

end Trace
