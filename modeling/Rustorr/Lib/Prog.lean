import Mathlib.Logic.Function.Basic
import Mathlib.Data.Nat.Notation

/-! Programs that make calls and may fail. A program is a tree, each node a call
and what follows each answer. Predicate transformers for the calls extend to
programs, and a function that answers the calls runs them. -/

universe u

/-- A program over the calls `κ`. It returns an `α` or fails with an `E`. -/
inductive Prog (κ : Type u) (Ans : κ → Type) (E α : Type) : Type u
  | ret (a : α)
  | fail (e : E)
  | call (c : κ) (k : Ans c → Prog κ Ans E α)

namespace Prog

variable {κ : Type u} {Ans : κ → Type} {E α β : Type}

protected def bind : Prog κ Ans E α → (α → Prog κ Ans E β) → Prog κ Ans E β
  | ret a, f => f a
  | fail e, _ => fail e
  | call c k, f => call c fun x => (k x).bind f

instance : Monad (Prog κ Ans E) where
  pure := ret
  bind := Prog.bind

/-- A call and nothing more. -/
def perform (c : κ) : Prog κ Ans E (Ans c) := call c ret

/-- The program with its failure as a value. -/
def attempt : Prog κ Ans E α → Prog κ Ans E (Except E α)
  | ret a => ret (.ok a)
  | fail e => ret (.error e)
  | call c k => call c fun x => (k x).attempt

def ofExcept : Except E α → Prog κ Ans E α
  | .ok a => ret a
  | .error e => fail e

def finished : Prog κ Ans E α → Bool
  | call _ _ => false
  | _ => true

/-- Every call a program may make satisfies `P`. -/
def Every (P : κ → Prop) : Prog κ Ans E α → Prop
  | call c k => P c ∧ ∀ x, (k x).Every P
  | _ => True

section every

variable {P : κ → Prop}

@[simp] theorem every_pure (a : α) : Every P (pure a : Prog κ Ans E α) := trivial

@[simp] theorem every_fail (e : E) : Every P (fail e : Prog κ Ans E α) := trivial

@[simp] theorem every_ofExcept (r : Except E α) : Every P (ofExcept r : Prog κ Ans E α) := by
  cases r <;> trivial

@[simp] theorem every_perform (c : κ) : Every P (perform c : Prog κ Ans E (Ans c)) ↔ P c :=
  and_iff_left fun _ => trivial

theorem every_bind {p : Prog κ Ans E α} {f : α → Prog κ Ans E β} (hp : Every P p)
    (hf : ∀ a, Every P (f a)) : Every P (p >>= f) := by
  induction p with
  | ret a => exact hf a
  | fail e => trivial
  | call c k ih => exact ⟨hp.1, fun x => ih x (hp.2 x)⟩

@[simp] theorem every_attempt (p : Prog κ Ans E α) : Every P p.attempt ↔ Every P p := by
  induction p with
  | ret a => exact Iff.rfl
  | fail e => exact Iff.rfl
  | call c k ih => exact and_congr Iff.rfl (forall_congr' ih)

theorem every_mono {P' : κ → Prop} (hP : ∀ c, P c → P' c) {p : Prog κ Ans E α} (hp : Every P p) :
    Every P' p := by
  induction p with
  | ret a => trivial
  | fail e => trivial
  | call c k ih => exact ⟨hP c hp.1, fun x => ih x (hp.2 x)⟩

theorem every_forM {ι : Type} {f : ι → Prog κ Ans E PUnit} (hf : ∀ i, Every P (f i))
    (l : List ι) : Every P (l.forM f) := by
  induction l with
  | nil => trivial
  | cons i l ih => exact every_bind (hf i) fun _ => ih

end every

/-! ### Predicate transformers -/

section wp

variable {σ : Type*}

/-- What must hold of a state before a call so that a predicate on its answer
and the next state holds after it. -/
abbrev Spec (κ : Type u) (Ans : κ → Type) (σ : Type*) := (c : κ) → σ → (Ans c → σ → Prop) → Prop

/-- A specification that asks no more for a weaker predicate. -/
def Spec.Monotone (spec : Spec κ Ans σ) : Prop :=
  ∀ c s (Q Q' : Ans c → σ → Prop), (∀ x s', Q x s' → Q' x s') → spec c s Q → spec c s Q'

variable (spec : Spec κ Ans σ)

def wp : Prog κ Ans E α → σ → (Except E α → σ → Prop) → Prop
  | ret a, s, Q => Q (.ok a) s
  | fail e, s, Q => Q (.error e) s
  | call c k, s, Q => spec c s fun x s' => (k x).wp s' Q

/-- A predicate on what a first program leaves, given one on what follows it. -/
def followed (Q : E → σ → Prop) (R : α → σ → Prop) : Except E α → σ → Prop
  | .ok a, s => R a s
  | .error e, s => Q e s

@[simp] theorem followed_ok (Q : E → σ → Prop) (R : α → σ → Prop) (a : α) (s : σ) :
    followed Q R (.ok a) s = R a s := rfl

@[simp] theorem followed_error (Q : E → σ → Prop) (R : α → σ → Prop) (e : E) (s : σ) :
    followed Q R (.error e) s = Q e s := rfl

variable (s : σ)

@[simp] theorem wp_pure (a : α) (Q : Except E α → σ → Prop) :
    wp spec (pure a : Prog κ Ans E α) s Q = Q (.ok a) s := rfl

@[simp] theorem wp_fail (e : E) (Q : Except E α → σ → Prop) :
    wp spec (fail e : Prog κ Ans E α) s Q = Q (.error e) s := rfl

@[simp] theorem wp_perform (c : κ) (Q : Except E (Ans c) → σ → Prop) :
    wp spec (perform c : Prog κ Ans E (Ans c)) s Q = spec c s fun x s' => Q (.ok x) s' := rfl

@[simp] theorem wp_ofExcept (r : Except E α) (Q : Except E α → σ → Prop) :
    wp spec (ofExcept r : Prog κ Ans E α) s Q = Q r s := by
  cases r <;> rfl

@[simp] theorem wp_bind (p : Prog κ Ans E α) (f : α → Prog κ Ans E β)
    (Q : Except E β → σ → Prop) :
    wp spec (p >>= f) s Q =
      wp spec p s (followed (fun e => Q (.error e)) fun a s' => wp spec (f a) s' Q) := by
  induction p generalizing s with
  | ret a => rfl
  | fail e => rfl
  | call c k ih =>
    show spec c s (fun x s' => wp spec (k x >>= f) s' Q) = _
    apply congrArg
    funext x s'
    exact ih x s'

@[simp] theorem wp_attempt (p : Prog κ Ans E α) (Q : Except E (Except E α) → σ → Prop) :
    wp spec p.attempt s Q = wp spec p s fun r s' => Q (.ok r) s' := by
  induction p generalizing s with
  | ret a => rfl
  | fail e => rfl
  | call c k ih =>
    show spec c s (fun x s' => wp spec (k x).attempt s' Q) = _
    apply congrArg
    funext x s'
    exact ih x s'

variable {spec s}

theorem wp_mono (hspec : spec.Monotone) {p : Prog κ Ans E α} {Q Q' : Except E α → σ → Prop}
    (hQ : ∀ r s', Q r s' → Q' r s') (h : wp spec p s Q) : wp spec p s Q' := by
  induction p generalizing s with
  | ret a => exact hQ _ _ h
  | fail e => exact hQ _ _ h
  | call c k ih => exact hspec c s _ _ (fun x s' => ih x) h

/-- The rule for loops: what each round keeps holds at the end. -/
theorem wp_forM {ι : Type} (hspec : spec.Monotone) {f : ι → Prog κ Ans E PUnit} {I : σ → Prop}
    {Q : Except E PUnit → σ → Prop} {l : List ι}
    (hround : ∀ i ∈ l, ∀ s, I s → wp spec (f i) s (followed (fun e => Q (.error e)) fun _ => I))
    (hend : ∀ s, I s → Q (.ok ⟨⟩) s) (hs : I s) : wp spec (l.forM f) s Q := by
  induction l generalizing s with
  | nil => exact hend s hs
  | cons i l ih =>
    show wp spec (f i >>= fun _ => l.forM f) s Q
    rw [wp_bind]
    refine wp_mono hspec ?_ (hround i List.mem_cons_self s hs)
    intro r s' hr
    cases r with
    | ok a => exact ih (fun j hj => hround j (List.mem_cons_of_mem i hj)) hr
    | error e => exact hr

end wp

/-! ### Runs -/

section run

variable {σ : Type*} (step : (c : κ) → σ → Option (Ans c) × σ)

/-- The result of a program and the state it leaves. There is no result when a
call is never answered. -/
def run : Prog κ Ans E α → σ → Option (Except E α) × σ
  | ret a, s => (some (.ok a), s)
  | fail e, s => (some (.error e), s)
  | call c k, s => match step c s with
    | (some x, s') => (k x).run s'
    | (none, s') => (none, s')

/-- The specification of calls answered by `step`, where `W` holds of the states
in which a call waits for ever. -/
def Spec.ofStep (W : σ → Prop) : Spec κ Ans σ := fun c s Q => match step c s with
  | (some x, s') => Q x s'
  | (none, s') => W s'

theorem Spec.monotone_ofStep (W : σ → Prop) : (Spec.ofStep step W).Monotone := by
  intro c s Q Q' hQ h
  unfold Spec.ofStep at h ⊢
  split at h
  · exact hQ _ _ h
  · exact h

/-- What every call of a program keeps, the program keeps. -/
theorem run_invariant {P : κ → Prop} {I : σ → Prop}
    (hstep : ∀ c s, P c → I s → I (step c s).2) {p : Prog κ Ans E α} (hp : Every P p) {s : σ}
    (hs : I s) : I (p.run step s).2 := by
  induction p generalizing s with
  | ret a => exact hs
  | fail e => exact hs
  | call c k ih =>
    have hnext := hstep c s hp.1 hs
    unfold run
    split
    · rename_i x s' h
      rw [h] at hnext
      exact ih x (hp.2 x) hnext
    · rename_i s' h
      rw [h] at hnext
      exact hnext

theorem wp_invariant {P : κ → Prop} {I W : σ → Prop}
    (hstep : ∀ c s, P c → I s → I (step c s).2) {p : Prog κ Ans E α} (hp : Every P p) {s : σ}
    (hs : I s) {Q : Except E α → σ → Prop} (h : wp (Spec.ofStep step W) p s Q) :
    wp (Spec.ofStep step W) p s fun r s' => Q r s' ∧ I s' := by
  induction p generalizing s with
  | ret a => exact ⟨h, hs⟩
  | fail e => exact ⟨h, hs⟩
  | call c k ih =>
    have hnext := hstep c s hp.1 hs
    unfold wp Spec.ofStep at h ⊢
    split at h
    · rename_i x s' hcall
      rw [hcall] at hnext
      exact ih x (hp.2 x) hnext h
    · exact h

/-- What is shown of a program call by call is what holds of its run. -/
theorem wp_iff_run {W : σ → Prop} {p : Prog κ Ans E α} {s : σ} {Q : Except E α → σ → Prop} :
    wp (Spec.ofStep step W) p s Q ↔ match p.run step s with
      | (some r, s') => Q r s'
      | (none, s') => W s' := by
  induction p generalizing s with
  | ret a => exact Iff.rfl
  | fail e => exact Iff.rfl
  | call c k ih =>
    unfold wp Spec.ofStep run
    split
    · exact ih _
    · exact Iff.rfl

/-- Nothing depends on what is asked of the states in which a call waits, but that. -/
theorem wp_waiting {W W' : σ → Prop} {p : Prog κ Ans E α} {s : σ} {Q Q' : Except E α → σ → Prop}
    (hW : ∀ s', W s' → W' s') (hQ : ∀ r s', Q r s' → Q' r s')
    (h : wp (Spec.ofStep step W) p s Q) : wp (Spec.ofStep step W') p s Q' := by
  rw [wp_iff_run] at h ⊢
  split at h
  · next r s' hs' => exact hQ r s' h
  · next s' hs' => exact hW s' h

theorem wp_of_every {P : κ → Prop} {I : σ → Prop} (hstep : ∀ c s, P c → I s → I (step c s).2)
    {p : Prog κ Ans E α} (hp : Every P p) {s : σ} (hs : I s) :
    wp (Spec.ofStep step I) p s fun _ => I := by
  have h := run_invariant step hstep hp hs
  rw [wp_iff_run]
  split
  · next r s' hs' => rwa [hs'] at h
  · next s' hs' => rwa [hs'] at h

/-- What a whole run keeps under its condition may be used call by call. -/
theorem wp_bind_run {W : σ → Prop} {p : Prog κ Ans E α} {f : α → Prog κ Ans E β} {s : σ}
    {Q : Except E β → σ → Prop} (hwait : ∀ s', p.run step s = (none, s') → W s')
    (herror : ∀ e s', p.run step s = (some (.error e), s') → Q (.error e) s')
    (hok : ∀ a s', p.run step s = (some (.ok a), s') → wp (Spec.ofStep step W) (f a) s' Q) :
    wp (Spec.ofStep step W) (p >>= f) s Q := by
  rw [wp_bind, wp_iff_run]
  split
  · next r s' hs' =>
    cases r with
    | ok a => exact hok a s' hs'
    | error e => exact herror e s' hs'
  · next s' hs' => exact hwait s' hs'

/-- A round of a loop is bad: the first one, or a later one that is reached. -/
def SomeRound {ι : Type} (f : ι → Prog κ Ans E PUnit) (B : ι → σ → Prop) : List ι → σ → Prop
  | [], _ => False
  | i :: l, s => B i s ∨ ∃ s', (f i).run step s = (some (.ok ⟨⟩), s') ∧ SomeRound f B l s'

/-- The rule for loops with bad rounds. -/
theorem wp_forM_of_not_someRound {ι : Type} {f : ι → Prog κ Ans E PUnit} {B : ι → σ → Prop}
    {I : σ → Prop}
    (hround : ∀ i s, I s → ¬B i s → wp (Spec.ofStep step I) (f i) s fun _ => I)
    {l : List ι} {s : σ} (hs : I s) (hl : ¬SomeRound step f B l s) :
    wp (Spec.ofStep step I) (l.forM f) s fun _ => I := by
  induction l generalizing s with
  | nil => exact hs
  | cons i l ih =>
    have hfirst := hround i s hs fun hb => hl (Or.inl hb)
    rw [wp_iff_run] at hfirst
    refine wp_bind_run step (f := fun _ => l.forM f) (fun s' hs' => ?_) (fun e s' hs' => ?_)
      fun _ s' hs' => ?_
    · rwa [hs'] at hfirst
    · rwa [hs'] at hfirst
    · rw [hs'] at hfirst
      exact ih hfirst fun hlater => hl (Or.inr ⟨s', hs', hlater⟩)

end run

/-! ### Traces -/

section trace

variable {σ : Type*} (step : (c : κ) → σ → Option (Ans c) × σ)

/-- The calls of a run with their answers. -/
def trace : Prog κ Ans E α → σ → List (Σ c, Ans c)
  | ret _, _ => []
  | fail _, _ => []
  | call c k, s => match step c s with
    | (some x, s') => ⟨c, x⟩ :: (k x).trace s'
    | (none, _) => []

/-- A specification that asks nothing once a marked answer was given. -/
def Spec.until (mark : (Σ c, Ans c) → Prop) (spec : Spec κ Ans σ) : Spec κ Ans σ :=
  fun c s Q => spec c s fun x s' => ¬mark ⟨c, x⟩ → Q x s'

variable {mark : (Σ c, Ans c) → Prop} {spec : Spec κ Ans σ}

theorem Spec.monotone_until (hspec : spec.Monotone) : (Spec.until mark spec).Monotone :=
  fun c s _ _ hQ h => hspec c s _ _ (fun x s' hx hnot => hQ x s' (hx hnot)) h

theorem wp_until (hspec : spec.Monotone) {p : Prog κ Ans E α} {s : σ} {Q : Except E α → σ → Prop}
    (h : wp spec p s Q) : wp (Spec.until mark spec) p s Q := by
  induction p generalizing s with
  | ret a => exact h
  | fail e => exact h
  | call c k ih => exact hspec c s _ _ (fun x s' hx _ => ih x hx) h

/-- A first part shown without regard to the marks. -/
theorem wp_until_bind (hspec : spec.Monotone) {p : Prog κ Ans E α} {f : α → Prog κ Ans E β} {s : σ}
    {Q : Except E β → σ → Prop}
    (h : wp spec p s (followed (fun e => Q (.error e)) fun a s' =>
      wp (Spec.until mark spec) (f a) s' Q)) : wp (Spec.until mark spec) (p >>= f) s Q := by
  rw [wp_bind]
  exact wp_until hspec h

/-- What is shown up to a marked answer holds of a run whose trace has none. -/
theorem of_wp_until {W : σ → Prop} {p : Prog κ Ans E α} {s s' : σ} {Q : Except E α → σ → Prop}
    (h : wp (Spec.until mark (Spec.ofStep step W)) p s Q) (hnot : ∀ c ∈ p.trace step s, ¬mark c)
    {r : Except E α} (hr : p.run step s = (some r, s')) : Q r s' := by
  induction p generalizing s with
  | ret a =>
    cases hr
    exact h
  | fail e =>
    cases hr
    exact h
  | call c k ih =>
    unfold wp Spec.until Spec.ofStep at h
    unfold trace at hnot
    unfold run at hr
    cases hstep : step c s with
    | mk x next =>
      rw [hstep] at h hnot hr
      cases x with
      | none => cases hr
      | some x =>
        have hx := h (hnot _ List.mem_cons_self)
        exact ih x hx (fun c hc => hnot c (List.mem_cons_of_mem _ hc)) hr

end trace

/-! ### Programs that never fail -/

section yields

/-- Whatever its calls are answered, the program ends with a value of which `Q` holds. -/
def Yields (Q : α → Prop) (p : Prog κ Ans E α) : Prop :=
  wp (fun _ _ R => ∀ x, R x ()) p () (followed (fun _ _ => False) fun a _ => Q a)

variable {Q : α → Prop} {R : β → Prop}

theorem yields_pure {a : α} (h : Q a) : Yields Q (pure a : Prog κ Ans E α) := h

theorem yields_ofExcept {r : Except E α} {a : α} (hr : r = .ok a) (h : Q a) :
    Yields Q (ofExcept r : Prog κ Ans E α) := by
  subst hr
  exact h

theorem yields_perform {c : κ} {Q : Ans c → Prop} (h : ∀ x, Q x) :
    Yields Q (perform c : Prog κ Ans E (Ans c)) := h

theorem yields_bind {p : Prog κ Ans E α} {f : α → Prog κ Ans E β} (hp : Yields Q p)
    (hf : ∀ a, Q a → Yields R (f a)) : Yields R (p >>= f) := by
  unfold Yields at hp ⊢
  rw [wp_bind]
  refine wp_mono (fun _ _ _ _ hQ h x => hQ x () (h x)) (fun r s hr => ?_) hp
  cases r with
  | ok a => exact hf a hr
  | error e => exact hr

theorem yields_bind_ofExcept {r : Except E α} {a : α} {f : α → Prog κ Ans E β} (hr : r = .ok a)
    (hf : Yields R (f a)) : Yields R (ofExcept r >>= f) := by
  subst hr
  exact hf

theorem Yields.mono {p : Prog κ Ans E α} {Q' : α → Prop} (h : Yields Q p)
    (hQ : ∀ a, Q a → Q' a) : Yields Q' p := by
  refine wp_mono (fun _ _ _ _ hQ h x => hQ x () (h x)) (fun r s hr => ?_) h
  cases r with
  | ok a => exact hQ a hr
  | error e => exact hr

variable {σ : Type*}

/-- Calls that are always answered. -/
def answering (answer : (c : κ) → σ → Ans c × σ) (c : κ) (s : σ) : Option (Ans c) × σ :=
  (some (answer c s).1, (answer c s).2)

theorem Yields.run {p : Prog κ Ans E α} (h : Yields Q p) (answer : (c : κ) → σ → Ans c × σ)
    (s : σ) : ∃ a s', p.run (answering answer) s = (some (.ok a), s') ∧ Q a := by
  induction p generalizing s with
  | ret a => exact ⟨a, s, rfl, h⟩
  | fail e => exact h.elim
  | call c k ih => exact ih (answer c s).1 (h _) (answer c s).2

theorem run_bind_ok {step : (c : κ) → σ → Option (Ans c) × σ} {p : Prog κ Ans E α}
    {f : α → Prog κ Ans E β} {s s' : σ} {a : α} (h : p.run step s = (some (.ok a), s')) :
    (p >>= f).run step s = (f a).run step s' := by
  induction p generalizing s with
  | ret b =>
    cases h
    rfl
  | fail e => cases h
  | call c k ih =>
    have hcall : (call c k >>= f : Prog κ Ans E β) = call c fun x => k x >>= f := rfl
    rw [run] at h
    rw [hcall, run]
    split at h
    · next x s'' hstep => exact ih x h
    · cases h

end yields

end Prog
