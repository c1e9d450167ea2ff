import Mathlib.Logic.Function.Basic
import Rustorr.Http.LockCalls
import Rustorr.Http.WebDav

/-! WebDAV requests under way at once over one lock table. Requests take turns at
their await points, and any of them may be dropped where it waits. -/

namespace Rustorr

open Function (update)

namespace Held

def nothing : Held := .temporary []

/-- The tokens of temporary locks. -/
def tokens : Held → List (List Char)
  | .temporary tokens => tokens
  | .confirmed _ => []

/-- The roots of confirmed locks. -/
def roots : Held → List Path
  | .temporary _ => []
  | .confirmed roots => roots

/-- There is nothing to undo. -/
def Empty (h : Held) : Prop := h.tokens = [] ∧ h.roots = []

@[simp] theorem tokens_temporary (tokens : List (List Char)) :
    (Held.temporary tokens).tokens = tokens := rfl

@[simp] theorem roots_temporary (tokens : List (List Char)) :
    (Held.temporary tokens).roots = [] := rfl

@[simp] theorem tokens_confirmed (roots : List Path) : (Held.confirmed roots).tokens = [] := rfl

@[simp] theorem roots_confirmed (roots : List Path) : (Held.confirmed roots).roots = roots := rfl

@[simp] theorem tokens_nothing : nothing.tokens = [] := rfl

@[simp] theorem roots_nothing : nothing.roots = [] := rfl

@[simp] theorem empty_nothing : nothing.Empty := ⟨rfl, rfl⟩

end Held

namespace DavCall

/-- What a handler has yet to undo after a call, from what it had before. -/
def owes : (c : DavCall) → c.Ans → Held → Held
  | confirmLocks _ _ _ _, .ok held, _ => held
  | create _ _, .ok token, _ => .temporary [token]
  | release _, _, _ => .nothing
  | unlockAt _ _, _, _ => .nothing
  | _, _, held => held

/-- The tokens a call is to unlock for the handler that makes it. -/
def undoes : DavCall → List (List Char)
  | release held => held.tokens
  | unlockAt _ token => [token]
  | _ => []

/-- The roots a call is to let go for the handler that makes it. -/
def frees : DavCall → List Path
  | release held => held.roots
  | _ => []

/-- The discipline of the handlers: take nothing while something is to be undone,
and undo just that. -/
def Asks : DavCall → Held → Prop
  | confirmLocks _ _ _ _, owed => owed.Empty
  | create _ _, owed => owed.Empty
  | release held, owed => held = owed
  | unlockAt _ token, owed => owed = .temporary [token]
  | _, _ => True

def guard : Prog.Spec DavCall DavCall.Ans Held := fun c owed Q => c.Asks owed ∧ ∀ x, Q x (c.owes x owed)

theorem guard_monotone : Prog.Spec.Monotone guard :=
  fun _ _ _ _ hQ h => ⟨h.1, fun x => hQ _ _ (h.2 x)⟩

end DavCall

/-- The token of a lock the answer grants. -/
def DavAnswer.granted : DavAnswer → List (List Char)
  | .lock token _ true => [token]
  | _ => []

/-- A handler ends with nothing to undo but a lock its answer grants. -/
def DavAnswer.Settled : Except Empty DavAnswer → Held → Prop
  | .ok answer, owed => owed.tokens = answer.granted ∧ owed.roots = []
  | .error _, _ => True

/-- A request with what is left of its handler and what that has yet to undo. -/
structure DavTask where
  body : Dav DavAnswer
  owed : Held

/-- `granted` are the tokens of the locks that `LOCK` answers granted. -/
structure DavPool where
  locks : MemLs
  tasks : ℕ → Option DavTask
  granted : List (List Char)

/-- What happens next to the pool. -/
inductive DavEvent where
  | request (i : ℕ) (context : Context) (request : DavRequest)
  /-- Request `i` gets the lock table, or the look at the file system it waits for. -/
  | call (i now : ℕ) (seen : Stat)
  | answer (i : ℕ)
  /-- The client of request `i` disconnects. -/
  | abandon (i : ℕ)

namespace DavPool

def start (generation : ℕ) : DavPool := ⟨MemLs.new generation, fun _ => none, []⟩

inductive Step : DavPool → DavEvent → DavPool → Prop
  | request {p i} (context : Context) (request : DavRequest) : p.tasks i = none →
    Step p (.request i context request)
      { p with tasks := update p.tasks i (some ⟨request.body context, .nothing⟩) }
  | call {p i c k owed x locks} (now : ℕ) (seen : Stat) : p.tasks i = some ⟨.call c k, owed⟩ →
    c.run now seen p.locks = .ok (x, locks) →
    Step p (.call i now seen)
      { p with locks, tasks := update p.tasks i (some ⟨k x, c.owes x owed⟩) }
  | answer {p i a owed} : p.tasks i = some ⟨.ret a, owed⟩ →
    Step p (.answer i)
      { p with tasks := update p.tasks i none, granted := a.granted ++ p.granted }
  | abandon {p i c k owed} : p.tasks i = some ⟨.call c k, owed⟩ →
    Step p (.abandon i) { p with tasks := update p.tasks i none }

/-- The pools that any number of allowed steps lead to. -/
inductive Reachable (allowed : DavPool → DavEvent → Prop) (generation : ℕ) : DavPool → Prop
  | start : Reachable allowed generation (start generation)
  | step {p e p'} : Reachable allowed generation p → Step p e p' → allowed p e →
    Reachable allowed generation p'

/-- A request is dropped with locks to undo, or comes to undo a lock that another
request holds. -/
def Slip (p : DavPool) : DavEvent → Prop
  | .abandon i => ∃ task, p.tasks i = some task ∧ ¬task.owed.Empty
  | .call i _ _ => ∃ c k owed, p.tasks i = some ⟨.call c k, owed⟩ ∧
    ∃ q g, p.locks.granted q = some g ∧ g.token ∈ c.undoes ∧ g.held = true
  | _ => False

end DavPool

/-! ### What a critical section does to the live locks -/

namespace MemLs

variable {t t' t'' : MemLs}

/-- The live locks of `t'` are live in `t`, save those with a token of `held`, and a
lock is held since then only at a root of `held`. -/
def Within (t t' : MemLs) (held : Held) : Prop :=
  ∀ q g', t'.granted q = some g' → g'.token ∈ held.tokens ∧ g'.held = false ∨
    ∃ g, t.granted q = some g ∧ g.token = g'.token ∧
      (g'.held = true → g.held = true ∨ q ∈ held.roots)

/-- Every live lock of `t'` is one of `t`. -/
def Sub (t t' : MemLs) : Prop := ∀ q g, t'.granted q = some g → t.granted q = some g

theorem Sub.within (h : Sub t t') (held : Held) : Within t t' held :=
  fun q g hg => Or.inr ⟨g, h q g hg, rfl, Or.inl⟩

theorem Sub.of_filter {P : Grant → Bool} (h : ∀ q, t'.granted q = (t.granted q).filter P) :
    Sub t t' := by
  intro q g hg
  rw [h] at hg
  exact (Option.filter_eq_some_iff.mp hg).1

theorem Sub.within_trans (h : Sub t t') {held : Held} (h' : Within t' t'' held) :
    Within t t'' held := by
  intro q g hg
  rcases h' q g hg with hnew | ⟨g', hg', he, hh⟩
  · exact Or.inl hnew
  · exact Or.inr ⟨g', h q g' hg', he, hh⟩

theorem unlockAll_spec (h : t.Wf) (now : ℕ) (tokens : List (List Char)) :
    ∃ t', t.unlockAll now tokens = .ok t' ∧ t'.Wf ∧ Sub t t' ∧
      ∀ q g, t'.granted q = some g → g.token ∈ tokens → g.held = true := by
  induction tokens generalizing t with
  | nil => exact ⟨t, rfl, h, fun q g hg => hg, fun q g _ ht => absurd ht (by simp)⟩
  | cons token tokens ih =>
    obtain ⟨answer, t₁, hok, hwf, -, -, hgr⟩ := unlock_spec h now token
    obtain ⟨t₂, hok₂, hwf₂, hsub, hheld⟩ := ih hwf
    have hsub₁ : Sub t t₁ := Sub.of_filter hgr
    refine ⟨t₂, ?_, hwf₂, fun q g hg => hsub₁ q g (hsub q g hg), fun q g hg ht => ?_⟩
    · rw [unlockAll, List.foldlM_cons, hok]
      exact hok₂
    · rcases List.mem_cons.mp ht with rfl | ht
      · have hg₁ := hsub q g hg
        rw [hgr] at hg₁
        have := (Option.filter_eq_some_iff.mp hg₁).2
        simpa [Grant.outlives] using (Bool.and_eq_true_iff.mp this).2
      · exact hheld q g hg ht

theorem lockTemporarily_spec (h : t.Wf) (now : ℕ) (names : List Path) (tokens : List (List Char))
    (hfree : ∀ q g, t.granted q = some g → g.token ∈ tokens → g.held = false) :
    ∃ answer t', t.lockTemporarily now names tokens = .ok (answer, t') ∧ t'.Wf ∧
      ((∃ code, answer = .error code) ∧
          (∀ q g, t'.granted q = some g → t.granted q = some g ∧ g.token ∉ tokens) ∨
        ∃ tokens', answer = .ok (.temporary tokens') ∧ tokens ⊆ tokens' ∧
          ∀ q g, t'.granted q = some g →
            t.granted q = some g ∨ g.token ∈ tokens' ∧ g.held = false) := by
  induction names generalizing t tokens with
  | nil =>
    exact ⟨_, t, rfl, h, Or.inr ⟨tokens, rfl, List.Subset.refl _, fun q g hg => Or.inl hg⟩⟩
  | cons name names ih =>
    unfold lockTemporarily
    by_cases hname : name = []
    · rw [if_pos hname]
      exact ih h tokens hfree
    · rw [if_neg hname]
      obtain ⟨answer, t₁, hok, hwf, hcase⟩ := create_spec h now ⟨name, none, [], true⟩
      rw [hok]
      rcases hcase with ⟨rfl, -, hgr⟩ | ⟨token, rfl, -, -, -, hgr⟩
      · obtain ⟨t₂, hok₂, hwf₂, hsub, hheld⟩ := unlockAll_spec hwf now tokens
        refine ⟨.error 423, t₂, ?_, hwf₂, Or.inl ⟨⟨_, rfl⟩, fun q g hg => ?_⟩⟩
        · show (t₁.unlockAll now tokens).bind _ = _
          rw [hok₂]
          rfl
        · have hold := Sub.of_filter hgr q g (hsub q g hg)
          refine ⟨hold, fun ht => ?_⟩
          have := hfree q g hold ht
          rw [hheld q g hg ht] at this
          cases this
      · -- the lock just made joins those to be taken back should a later one fail
        have hcases : ∀ q g, t₁.granted q = some g →
            t.granted q = some g ∨ g.token = token ∧ g.held = false := by
          intro q g hg
          rw [hgr] at hg
          split at hg
          · cases hg
            exact Or.inr ⟨rfl, rfl⟩
          · exact Or.inl (Option.filter_eq_some_iff.mp hg).1
        obtain ⟨answer, t₂, hok₂, hwf₂, hcase⟩ := ih hwf (tokens ++ [token]) fun q g hg ht => by
          rcases hcases q g hg with hold | hnew
          · rcases List.mem_append.mp ht with ht | ht
            · exact hfree q g hold ht
            · rw [hgr] at hg
              split at hg
              · cases hg
                rfl
              · rename_i hq
                -- a lock of the old table has an older token
                obtain ⟨g', hg', he⟩ : ∃ g', t₁.granted (Path.slashClean name) = some g' ∧
                    g'.token = token := ⟨_, by rw [hgr, if_pos rfl], rfl⟩
                have hg₁ : t₁.granted q = some g := by rw [hgr, if_neg hq, hg]
                exact absurd (hwf.token_inj hg₁ hg' ((List.mem_singleton.mp ht).trans he.symm)) hq
          · exact hnew.2
        refine ⟨answer, t₂, hok₂, hwf₂, ?_⟩
        rcases hcase with ⟨herr, hold⟩ | ⟨tokens', rfl, hsub, hnew⟩
        · refine Or.inl ⟨herr, fun q g hg => ?_⟩
          obtain ⟨hg₁, ht⟩ := hold q g hg
          rw [List.mem_append, not_or] at ht
          rcases hcases q g hg₁ with hg₀ | ⟨he, -⟩
          · exact ⟨hg₀, ht.1⟩
          · exact absurd (List.mem_singleton.mpr he) ht.2
        · refine Or.inr ⟨tokens', rfl, fun x hx => hsub (List.mem_append_left _ hx), fun q g hg => ?_⟩
          rcases hnew q g hg with hg₁ | hnew
          · rcases hcases q g hg₁ with hg₀ | ⟨he, hh⟩
            · exact Or.inl hg₀
            · exact Or.inr ⟨hsub (List.mem_append_right _ (List.mem_singleton.mpr he)), hh⟩
          · exact Or.inr hnew

/-- What a section leaves that takes the locks it answers, and none if it fails. -/
def Takes (t : MemLs) (answer : Except ℕ Held) (t' : MemLs) : Prop :=
  match answer with
  | .ok held => Within t t' held
  | .error _ => Sub t t'

theorem confirmLists_spec (h : t.Wf) (now : ℕ) (host : List Char) (source destination : Path)
    (lists : List IfList) :
    ∃ answer t', t.confirmLists now host source destination lists = .ok (answer, t') ∧ t'.Wf ∧
      Takes t answer t' := by
  induction lists generalizing t with
  | nil => exact ⟨_, t, rfl, h, fun q g hg => hg⟩
  | cons list lists ih =>
    -- what is done with the answer is the same for both sources
    have hconfirming : ∀ (lockedSource : Path) (next : Except LockError (List Path) × MemLs →
        Except LockPanic (Except ℕ Held × MemLs)),
        (∀ held t, next (.ok held, t) = .ok (.ok (.confirmed held), t)) →
        (∀ e t, next (.error e, t) = if e = .confirmationFailed then
          confirmLists t now host source destination lists else .ok (.error 500, t)) →
        ∃ answer t', (t.confirm now lockedSource destination list.conditions >>= next) =
          .ok (answer, t') ∧ t'.Wf ∧ Takes t answer t' := by
      intro lockedSource next hheld herror
      obtain ⟨answer, t₁, hok, hwf, -, hcase⟩ :=
        confirm_spec h now lockedSource destination list.conditions
      rw [hok, Except.ok_bind]
      rcases hcase with ⟨⟨e, rfl⟩, hgr⟩ | ⟨roots, rfl, -, hgr⟩
      · have hsub : Sub t t₁ := Sub.of_filter hgr
        have hend : ∃ answer t', (.ok (.error 500, t₁) : Except LockPanic (Except ℕ Held × MemLs)) =
            .ok (answer, t') ∧ t'.Wf ∧ Takes t answer t' := ⟨_, t₁, rfl, hwf, hsub⟩
        rw [herror]
        cases e with
        | confirmationFailed =>
          obtain ⟨answer, t₂, hok₂, hwf₂, htakes⟩ := ih hwf
          refine ⟨answer, t₂, hok₂, hwf₂, ?_⟩
          cases answer with
          | ok held => exact hsub.within_trans htakes
          | error code => exact fun q g hg => hsub q g (htakes q g hg)
        | locked => exact hend
        | noSuchLock => exact hend
      · rw [hheld]
        refine ⟨_, t₁, rfl, hwf, fun q g hg => Or.inr ?_⟩
        rw [hgr] at hg
        split at hg
        · rename_i hq
          obtain ⟨g₀, hg₀, rfl⟩ := Option.map_eq_some_iff.mp hg
          exact ⟨g₀, hg₀, rfl, fun _ => Or.inr hq⟩
        · exact ⟨g, (Option.filter_eq_some_iff.mp hg).1, rfl, Or.inl⟩
    unfold confirmLists
    split
    · exact hconfirming source _ (fun _ _ => rfl) fun e _ => by cases e <;> rfl
    · exact ih h
    · split
      · exact ih h
      · split
        · exact ⟨_, t, rfl, h, fun q g hg => hg⟩
        · rename_i stripped _
          exact hconfirming stripped _ (fun _ _ => rfl) fun e _ => by cases e <;> rfl

theorem confirmLocks_spec (h : t.Wf) (now : ℕ) (header : IfHeader) (host : List Char)
    (source destination : Path) :
    ∃ answer t', t.confirmLocks now header host source destination = .ok (answer, t') ∧ t'.Wf ∧
      Takes t answer t' := by
  cases header with
  | absent =>
    obtain ⟨answer, t', hok, hwf, hcase⟩ :=
      lockTemporarily_spec h now [source, destination] [] fun q g _ ht => absurd ht (by simp)
    refine ⟨answer, t', hok, hwf, ?_⟩
    rcases hcase with ⟨⟨code, rfl⟩, hold⟩ | ⟨tokens, rfl, -, hnew⟩
    · exact fun q g hg => (hold q g hg).1
    · intro q g hg
      rcases hnew q g hg with hold | hnew
      · exact Or.inr ⟨g, hold, rfl, Or.inl⟩
      · exact Or.inl hnew
  | malformed => exact ⟨_, t, rfl, h, fun q g hg => hg⟩
  | lists lists => exact confirmLists_spec h now host source destination lists

end MemLs

open MemLs (Sub Within Takes)

/-- A call never fails an assertion; it adds only what it answers, and what it is
to undo is gone but for locks that are held. -/
theorem DavCall.run_spec (c : DavCall) (now : ℕ) (seen : Stat) {t : MemLs} (h : t.Wf) :
    ∃ x t', c.run now seen t = .ok (x, t') ∧ t'.Wf ∧ Within t t' (c.owes x .nothing) ∧
      (∀ q g, t'.granted q = some g → g.token ∈ c.undoes → t.granted q = some g ∧ g.held = true) ∧
      ∀ q g, t'.granted q = some g → q ∈ c.frees → g.held = false := by
  cases c with
  | confirmLocks header host source destination =>
    obtain ⟨answer, t', hok, hwf, htakes⟩ :=
      MemLs.confirmLocks_spec h now header host source destination
    refine ⟨answer, t', hok, hwf, ?_, fun q g _ ht => absurd ht (by simp [undoes]),
      fun q g _ hq => absurd hq (by simp [frees])⟩
    cases answer with
    | ok held => exact htakes
    | error code => exact htakes.within _
  | release held =>
    cases held with
    | temporary tokens =>
      obtain ⟨t', hok, hwf, hsub, hheld⟩ := MemLs.unlockAll_spec h now tokens
      refine ⟨(), t', ?_, hwf, hsub.within _, fun q g hg ht => ⟨hsub q g hg, hheld q g hg ht⟩,
        fun q g _ hq => absurd hq (by simp [frees])⟩
      show (t.unlockAll now tokens).map _ = _
      rw [hok]
      rfl
    | confirmed roots =>
      obtain ⟨hwf, -, hgr⟩ := MemLs.release_spec h roots
      refine ⟨(), t.release roots, rfl, hwf, fun q g hg => ?_,
        fun q g _ ht => absurd ht (by simp [undoes]), fun q g hg hq => ?_⟩
      · rw [hgr] at hg
        right
        split at hg
        · obtain ⟨g₀, hg₀, rfl⟩ := Option.map_eq_some_iff.mp hg
          exact ⟨g₀, hg₀, rfl, fun hh => nomatch hh⟩
        · exact ⟨g, hg, rfl, Or.inl⟩
      · have hq' : q ∈ roots := hq
        rw [hgr, if_pos hq'] at hg
        obtain ⟨g₀, -, rfl⟩ := Option.map_eq_some_iff.mp hg
        rfl
  | create at' details =>
    obtain ⟨answer, t', hok, hwf, hcase⟩ := MemLs.create_spec h at' details
    refine ⟨answer, t', hok, hwf, ?_, fun q g _ ht => absurd ht (by simp [undoes]),
      fun q g _ hq => absurd hq (by simp [frees])⟩
    rcases hcase with ⟨rfl, -, hgr⟩ | ⟨token, rfl, -, -, -, hgr⟩
    · exact (Sub.of_filter hgr).within _
    · intro q g hg
      rw [hgr] at hg
      split at hg
      · cases hg
        exact Or.inl ⟨List.mem_singleton.mpr rfl, rfl⟩
      · exact Or.inr ⟨g, (Option.filter_eq_some_iff.mp hg).1, rfl, Or.inl⟩
  | refresh at' token duration =>
    obtain ⟨answer, t', hok, hwf, -, hcase⟩ := MemLs.refresh_spec h at' token duration
    refine ⟨answer, t', hok, hwf, ?_, fun q g _ ht => absurd ht (by simp [undoes]),
      fun q g _ hq => absurd hq (by simp [frees])⟩
    rcases hcase with ⟨hgr, -⟩ | ⟨p, g₀, hg₀, -, hheld, -, hgr⟩
    · exact (Sub.of_filter hgr).within _
    · intro q g hg
      right
      rw [hgr] at hg
      split at hg
      · rename_i hq
        cases hg
        exact ⟨g₀, hq ▸ hg₀, rfl, fun hh => Or.inl hh⟩
      · exact ⟨g, (Option.filter_eq_some_iff.mp hg).1, rfl, Or.inl⟩
  | unlock token =>
    obtain ⟨answer, t', hok, hwf, -, -, hgr⟩ := MemLs.unlock_spec h now token
    exact ⟨answer, t', hok, hwf, (Sub.of_filter hgr).within _,
      fun q g _ ht => absurd ht (by simp [undoes]), fun q g _ hq => absurd hq (by simp [frees])⟩
  | unlockAt at' token =>
    obtain ⟨answer, t', hok, hwf, -, -, hgr⟩ := MemLs.unlock_spec h at' token
    refine ⟨answer, t', hok, hwf, (Sub.of_filter hgr).within _, fun q g hg ht => ?_,
      fun q g _ hq => absurd hq (by simp [frees])⟩
    rw [hgr] at hg
    obtain ⟨hg₀, hout⟩ := Option.filter_eq_some_iff.mp hg
    refine ⟨hg₀, ?_⟩
    have := (Bool.and_eq_true_iff.mp hout).2
    simpa [List.mem_singleton.mp ht] using this
  | stat path =>
    exact ⟨seen, t, rfl, h, fun q g hg => Or.inr ⟨g, hg, rfl, Or.inl⟩,
      fun q g _ ht => absurd ht (by simp [undoes]), fun q g _ hq => absurd hq (by simp [frees])⟩

end Rustorr
