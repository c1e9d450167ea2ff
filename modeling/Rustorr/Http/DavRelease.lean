import Rustorr.Http.DavPool

/-! Every WebDAV handler undoes what it locked, so that requests that are neither
dropped with locks nor kept from unlocking them leave no lock behind. -/

namespace Rustorr

open Function (update)
open Prog (wp)
open DavCall (guard guard_monotone)
open DavAnswer (Settled)
open MemLs (Within)

/-! ### The handlers -/

section Handlers

variable (c : Context) {owed : Held}

/-- Steps that only look at the file system, with a result in `R`. -/
def Looks {α : Type} (p : Dav α) (R : α → Prop) : Prop :=
  ∀ owed, wp guard p owed fun r owed' => owed' = owed ∧ ∀ a, r = .ok a → R a

theorem looks_ret {α : Type} {a : α} {R : α → Prop} (h : R a) : Looks (pure a : Dav α) R := by
  refine fun owed => ⟨rfl, fun a' ha => ?_⟩
  cases ha
  exact h

theorem looks_stat {α : Type} {path : Path} {f : Stat → Dav α} {R : α → Prop}
    (hf : ∀ info, Looks (f info) R) : Looks (Context.stat path >>= f) R :=
  fun owed => ⟨trivial, fun info => hf info owed⟩

theorem looks_copyCode (destination : Path) (depth : DepthHeader) (overwrite : List Char) :
    Looks (c.copyCode destination depth overwrite) fun _ => True := by
  unfold Context.copyCode
  split
  · exact looks_ret trivial
  · refine looks_stat fun info => ?_
    cases info with
    | notFound => exact looks_ret trivial
    | invalid => exact looks_ret trivial
    | found =>
      refine looks_stat fun info => ?_
      split <;> exact looks_ret trivial

theorem looks_moveCode (destination : Path) (depth : DepthHeader) (overwrite : List Char) :
    Looks (Context.moveCode destination depth overwrite) fun _ => True := by
  unfold Context.moveCode
  split
  · exact looks_ret trivial
  · refine looks_stat fun info => ?_
    split <;> exact looks_ret trivial

theorem looks_proppatchLocked (names : Option (List Bool)) :
    Looks (c.proppatchLocked names) fun a => a.granted = [] := by
  refine looks_stat fun info => ?_
  cases info with
  | notFound => exact looks_ret rfl
  | invalid => exact looks_ret rfl
  | found =>
    cases names with
    | none => exact looks_ret rfl
    | some names =>
      show Looks (pure (if names.any id then DavAnswer.multiStatus else .status 500)) _
      refine looks_ret ?_
      split <;> rfl

/-- An answer that grants no lock, with nothing to undo. -/
theorem settled_pure {answer : DavAnswer} (hg : answer.granted = []) :
    wp guard (pure answer : Dav DavAnswer) .nothing Settled := ⟨hg.symm, rfl⟩

/-- The locks are confirmed, the file system is looked at, the locks are released. -/
theorem settled_locked {α : Type} {source destination : Path} (p : Dav α) {R : α → Prop}
    (answer : α → DavAnswer) (hp : Looks p R) (ha : ∀ a, R a → (answer a).granted = []) :
    wp guard (c.confirmLocks source destination >>= fun
      | .error code => pure (.status code)
      | .ok held => p >>= fun a => Context.release held >>= fun _ => pure (answer a))
      .nothing Settled := by
  refine ⟨Held.empty_nothing, fun x => ?_⟩
  cases x with
  | error code => exact settled_pure rfl
  | ok held =>
    show wp guard (p >>= fun a => Context.release held >>= fun _ => pure (answer a)) held Settled
    rw [Prog.wp_bind]
    refine Prog.wp_mono guard_monotone (fun r owed hr => ?_) (hp held)
    cases r with
    | error e => exact nomatch e
    | ok a =>
      obtain ⟨rfl, hR⟩ := hr
      exact ⟨rfl, fun _ => settled_pure (ha a (hR a rfl))⟩

theorem settled_copyMove (copy : Bool) (header : Option (Option (List Char × Path)))
    (depth : DepthHeader) (overwrite : List Char) :
    wp guard (c.copyMove copy header depth overwrite) .nothing Settled := by
  unfold Context.copyMove
  split
  · exact settled_pure rfl
  · exact settled_pure rfl
  · rename_i host path
    split
    · exact settled_pure rfl
    split
    · exact settled_pure rfl
    split
    · exact settled_pure rfl
    split
    · exact settled_pure rfl
    rename_i destination _ _ _
    cases copy with
    | true =>
      exact settled_locked c _ .status (looks_copyCode c destination depth overwrite) fun _ _ => rfl
    | false =>
      exact settled_locked c _ .status (looks_moveCode destination depth overwrite) fun _ _ => rfl

theorem settled_refreshLock (now : ℕ) (duration : Option ℕ) :
    wp guard (c.refreshLock now duration) .nothing Settled := by
  -- whatever the refreshed lock is answered with
  have hrefreshing : ∀ (token : List Char) (next : Except LockError LockDetails → Dav DavAnswer),
      (∀ x, wp guard (next x) .nothing Settled) →
      wp guard (if token = [] then pure (.status 400)
        else Prog.perform (DavCall.refresh now token duration) >>= next) .nothing Settled := by
    intro token next hnext
    split
    · exact settled_pure rfl
    · exact ⟨trivial, hnext⟩
  unfold Context.refreshLock
  split
  · exact settled_pure rfl
  · refine hrefreshing _ _ fun x => ?_
    rcases x with (_ | _ | _) | _ <;> exact settled_pure rfl
  · refine hrefreshing [] _ fun x => ?_
    rcases x with (_ | _ | _) | _ <;> exact settled_pure rfl

theorem settled_newLock (now : ℕ) (details : LockDetails) :
    wp guard (c.newLock now details) .nothing Settled := by
  refine ⟨Held.empty_nothing, fun x => ?_⟩
  cases x with
  | error e => cases e <;> exact settled_pure rfl
  | ok token =>
    refine ⟨trivial, fun info => ?_⟩
    cases info with
    | found => exact ⟨rfl, rfl⟩
    | notFound => exact ⟨rfl, fun _ => settled_pure rfl⟩
    | invalid => exact ⟨rfl, fun _ => settled_pure rfl⟩

theorem settled_lock (now : ℕ) (timeout : Option (Option ℕ)) (info : Option LockInfo)
    (depth : DepthHeader) : wp guard (c.lock now timeout info depth) .nothing Settled := by
  unfold Context.lock
  split
  · exact settled_pure rfl
  split
  · exact settled_pure rfl
  · exact settled_pure rfl
  · exact settled_refreshLock c now _
  · split
    · exact settled_pure rfl
    · exact settled_newLock c now _

theorem settled_unlock (token : Option (List Char)) :
    wp guard (Context.unlock token) .nothing Settled := by
  cases token with
  | none => exact settled_pure rfl
  | some token =>
    refine ⟨trivial, fun x => ?_⟩
    cases x with
    | ok u => exact settled_pure rfl
    | error e => cases e <;> exact settled_pure rfl

/-- Every handler ends with nothing to undo but the lock it grants. -/
theorem settled_body (request : DavRequest) :
    wp guard (request.body c) .nothing Settled := by
  cases request with
  | delete =>
    exact settled_locked c (Context.stat c.path)
      (fun info => .status (if info = .notFound then 404 else 405)) (R := fun _ => True)
      (looks_stat fun info => looks_ret trivial) fun _ _ => rfl
  | put =>
    exact settled_locked c (pure ()) (fun _ => .status 404) (R := fun _ => True)
      (looks_ret trivial) fun _ _ => rfl
  | mkcol empty =>
    exact settled_locked c (pure ()) (fun _ => .status (if empty then 405 else 415))
      (R := fun _ => True) (looks_ret trivial) fun _ _ => rfl
  | copyMove copy header depth overwrite => exact settled_copyMove c copy header depth overwrite
  | proppatch names => exact settled_locked c _ id (looks_proppatchLocked c names) fun _ h => h
  | lock now timeout info depth => exact settled_lock c now timeout info depth
  | unlock token => exact settled_unlock token

end Handlers

/-! ### The pool -/

namespace DavPool

structure Inv (p : DavPool) : Prop where
  wf : p.locks.Wf
  settled : ∀ i task, p.tasks i = some task → wp guard task.body task.owed Settled
  owned : ∀ q g, p.locks.granted q = some g → g.token ∈ p.granted ∨
    ∃ i task, p.tasks i = some task ∧ g.token ∈ task.owed.tokens
  held : ∀ q g, p.locks.granted q = some g → g.held = true →
    ∃ i task, p.tasks i = some task ∧ q ∈ task.owed.roots

theorem inv_start (generation : ℕ) : (start generation).Inv := by
  have hnone : ∀ q g, (start generation).locks.granted q ≠ some g := fun q g h => nomatch h
  have hidle : ∀ i task, (start generation).tasks i ≠ some task := fun i task h => nomatch h
  exact ⟨MemLs.wf_new generation, fun i task h => absurd h (hidle i task),
    fun q g h => absurd h (hnone q g), fun q g h => absurd h (hnone q g)⟩

/-- What a call leaves of what was owed is owed still, or the call is to undo it. -/
theorem owes_cases {c : DavCall} {owed : Held} (h : c.Asks owed) (x : c.Ans) :
    (∀ token ∈ (c.owes x .nothing).tokens, token ∈ (c.owes x owed).tokens) ∧
      (∀ q ∈ (c.owes x .nothing).roots, q ∈ (c.owes x owed).roots) ∧
      (∀ token ∈ owed.tokens, token ∈ (c.owes x owed).tokens ∨ token ∈ c.undoes) ∧
      ∀ q ∈ owed.roots, q ∈ (c.owes x owed).roots ∨ q ∈ c.frees := by
  cases c with
  | confirmLocks header host source destination =>
    obtain ⟨ht, hr⟩ := (h : owed.Empty)
    cases x <;> simp [DavCall.owes, ht, hr]
  | release held =>
    have hh : held = owed := h
    simp [DavCall.owes, DavCall.undoes, DavCall.frees, hh]
  | create now details =>
    obtain ⟨ht, hr⟩ := (h : owed.Empty)
    cases x <;> simp [DavCall.owes, ht, hr]
  | unlockAt now token =>
    have hh : owed = .temporary [token] := h
    simp [DavCall.owes, DavCall.undoes, hh]
  | refresh now token duration =>
    have hsame : ∀ owed, (DavCall.refresh now token duration).owes x owed = owed := fun _ => rfl
    simp only [hsame, Held.tokens_nothing, Held.roots_nothing, List.not_mem_nil, false_implies,
      implies_true, true_and]
    exact ⟨fun _ => Or.inl, fun _ => Or.inl⟩
  | unlock token =>
    have hsame : ∀ owed, (DavCall.unlock token).owes x owed = owed := fun _ => rfl
    simp only [hsame, Held.tokens_nothing, Held.roots_nothing, List.not_mem_nil, false_implies,
      implies_true, true_and]
    exact ⟨fun _ => Or.inl, fun _ => Or.inl⟩
  | stat path =>
    have hsame : ∀ owed, (DavCall.stat path).owes x owed = owed := fun _ => rfl
    simp only [hsame, Held.tokens_nothing, Held.roots_nothing, List.not_mem_nil, false_implies,
      implies_true, true_and]
    exact ⟨fun _ => Or.inl, fun _ => Or.inl⟩

/-- A step that is no slip keeps the locks of requests apart from those granted. -/
theorem Inv.step {p p' : DavPool} {e : DavEvent} (h : p.Inv) (hs : Step p e p') (hslip : ¬Slip p e) :
    p'.Inv := by
  cases hs with
  | request context request hi =>
    rename_i i
    set p' : DavPool :=
      { p with tasks := update p.tasks i (some ⟨request.body context, .nothing⟩) } with hp'
    have hself : p'.tasks i = some ⟨request.body context, .nothing⟩ := Function.update_self ..
    have hother : ∀ j task, p.tasks j = some task → p'.tasks j = some task := by
      intro j task hj
      have hne : j ≠ i := fun e => by rw [e, hi] at hj; cases hj
      exact (Function.update_of_ne hne ..).trans hj
    refine ⟨h.wf, fun j task hj => ?_, fun q g hg => ?_, fun q g hg hh => ?_⟩
    · by_cases hji : j = i
      · subst hji
        rw [hself] at hj
        cases hj
        exact settled_body context request
      · refine h.settled j task ?_
        rw [← hj]
        exact (Function.update_of_ne hji ..).symm
    · refine (h.owned q g hg).imp_right fun ⟨j, task, hj, ht⟩ => ?_
      exact ⟨j, task, hother j task hj, ht⟩
    · obtain ⟨j, task, hj, hq⟩ := h.held q g hg hh
      exact ⟨j, task, hother j task hj, hq⟩
  | call now seen hi hrun =>
    rename_i i c k owed x locks
    obtain ⟨hasks, hk⟩ := h.settled i _ hi
    obtain ⟨x', locks', hok, hwf, hwithin, hundone, hfreed⟩ := c.run_spec now seen h.wf
    obtain ⟨rfl, rfl⟩ := Prod.mk.inj (Except.ok.inj (hrun.symm.trans hok))
    obtain ⟨htake, htakeRoot, hkeep, hkeepRoot⟩ := owes_cases hasks x
    set p' : DavPool := { p with
      locks, tasks := update p.tasks i (some ⟨k x, c.owes x owed⟩) } with hp'
    have hself : p'.tasks i = some ⟨k x, c.owes x owed⟩ := Function.update_self ..
    have hother : ∀ {j}, j ≠ i → p'.tasks j = p.tasks j := fun hne => Function.update_of_ne hne ..
    have hnoneHeld : ∀ q g, locks.granted q = some g → g.token ∉ c.undoes := by
      intro q g hg ht
      obtain ⟨hold, hh⟩ := hundone q g hg ht
      exact hslip ⟨c, k, owed, hi, q, g, hold, ht, hh⟩
    refine ⟨hwf, fun j task hj => ?_, fun q g hg => ?_, fun q g hg hh => ?_⟩
    · by_cases hji : j = i
      · subst hji
        rw [hself] at hj
        cases hj
        exact hk x
      · rw [hother hji] at hj
        exact h.settled j task hj
    · rcases hwithin q g hg with ⟨ht, -⟩ | ⟨g₀, hg₀, he, -⟩
      · exact Or.inr ⟨i, _, hself, htake _ ht⟩
      · refine (h.owned q g₀ hg₀).imp (fun ht => he ▸ ht) fun ⟨j, task, hj, ht⟩ => ?_
        rw [he] at ht
        by_cases hji : j = i
        · subst hji
          rw [hi] at hj
          cases hj
          exact ⟨j, _, hself, (hkeep _ ht).resolve_right (hnoneHeld q g hg)⟩
        · exact ⟨j, task, by rw [hother hji, hj], ht⟩
    · rcases hwithin q g hg with ⟨-, hfree⟩ | ⟨g₀, hg₀, -, hheld⟩
      · rw [hh] at hfree
        cases hfree
      · rcases hheld hh with hh₀ | hq
        · obtain ⟨j, task, hj, hq⟩ := h.held q g₀ hg₀ hh₀
          by_cases hji : j = i
          · subst hji
            rw [hi] at hj
            cases hj
            refine ⟨j, _, hself, (hkeepRoot q hq).resolve_right fun hf => ?_⟩
            rw [hfreed q g hg hf] at hh
            cases hh
          · exact ⟨j, task, by rw [hother hji, hj], hq⟩
        · exact ⟨i, _, hself, htakeRoot q hq⟩
  | answer hi =>
    rename_i i a owed
    obtain ⟨htokens, hroots⟩ : owed.tokens = a.granted ∧ owed.roots = [] := h.settled i _ hi
    set p' : DavPool := { p with
      tasks := update p.tasks i none, granted := a.granted ++ p.granted } with hp'
    have hself : p'.tasks i = none := Function.update_self ..
    have hother : ∀ {j}, j ≠ i → p'.tasks j = p.tasks j := fun hne => Function.update_of_ne hne ..
    refine ⟨h.wf, fun j task hj => ?_, fun q g hg => ?_, fun q g hg hh => ?_⟩
    · have hji : j ≠ i := fun e => by rw [e, hself] at hj; cases hj
      rw [hother hji] at hj
      exact h.settled j task hj
    · rcases h.owned q g hg with ht | ⟨j, task, hj, ht⟩
      · exact Or.inl (List.mem_append_right _ ht)
      · by_cases hji : j = i
        · subst hji
          rw [hi] at hj
          cases hj
          exact Or.inl (List.mem_append_left _ (htokens ▸ ht))
        · exact Or.inr ⟨j, task, by rw [hother hji, hj], ht⟩
    · obtain ⟨j, task, hj, hq⟩ := h.held q g hg hh
      have hji : j ≠ i := by
        rintro rfl
        rw [hi] at hj
        cases hj
        rw [hroots] at hq
        cases hq
      exact ⟨j, task, by rw [hother hji, hj], hq⟩
  | abandon hi =>
    rename_i i c k owed
    have hempty : owed.Empty := by
      by_contra hne
      exact hslip ⟨_, hi, hne⟩
    set p' : DavPool := { p with tasks := update p.tasks i none } with hp'
    have hself : p'.tasks i = none := Function.update_self ..
    have hother : ∀ {j}, j ≠ i → p'.tasks j = p.tasks j := fun hne => Function.update_of_ne hne ..
    refine ⟨h.wf, fun j task hj => ?_, fun q g hg => ?_, fun q g hg hh => ?_⟩
    · have hji : j ≠ i := fun e => by rw [e, hself] at hj; cases hj
      rw [hother hji] at hj
      exact h.settled j task hj
    · refine (h.owned q g hg).imp_right fun ⟨j, task, hj, ht⟩ => ?_
      have hji : j ≠ i := by
        rintro rfl
        rw [hi] at hj
        cases hj
        rw [hempty.1] at ht
        cases ht
      exact ⟨j, task, by rw [hother hji, hj], ht⟩
    · obtain ⟨j, task, hj, hq⟩ := h.held q g hg hh
      have hji : j ≠ i := by
        rintro rfl
        rw [hi] at hj
        cases hj
        rw [hempty.2] at hq
        cases hq
      exact ⟨j, task, by rw [hother hji, hj], hq⟩

theorem inv_of_reachable {generation : ℕ} {p : DavPool}
    (h : Reachable (fun p e => ¬Slip p e) generation p) : p.Inv := by
  induction h with
  | start => exact inv_start generation
  | step _ hs hslip ih => exact ih.step hs hslip

/-- Requests that do not slip leave no lock but those granted, and none held. -/
theorem clear_of_no_slip {generation : ℕ} {p : DavPool}
    (h : Reachable (fun p e => ¬Slip p e) generation p) (hidle : ∀ i, p.tasks i = none) :
    ∀ q g, p.locks.granted q = some g → g.token ∈ p.granted ∧ g.held = false := by
  have hinv := inv_of_reachable h
  intro q g hg
  constructor
  · refine (hinv.owned q g hg).resolve_right ?_
    rintro ⟨i, task, hi, -⟩
    rw [hidle i] at hi
    cases hi
  · refine Bool.eq_false_iff.mpr fun hh => ?_
    obtain ⟨i, task, hi, -⟩ := hinv.held q g hg hh
    rw [hidle i] at hi
    cases hi

/-- A granted `LOCK`, seen to its answer. -/
theorem clear_of_no_slip_lock : ∃ p, Reachable (fun p e => ¬Slip p e) 0 p ∧
    (p.locks.granted ['/', 'a']).isSome ∧
    ∀ q g, p.locks.granted q = some g → g.token ∈ p.granted ∧ g.held = false := by
  let context : Context := ⟨['/', 'a'], [], .absent⟩
  let details : LockDetails := ⟨['/', 'a'], none, [], true⟩
  obtain ⟨t, hcreate, hgranted⟩ : ∃ t, (DavCall.create 0 details).run 0 .found (MemLs.new 0) =
      .ok (.ok ['1'], t) ∧ (t.granted ['/', 'a']).isSome := ⟨_, rfl, rfl⟩
  have hstart : Reachable (fun p e => ¬Slip p e) 0 (start 0) := .start
  have hrequest := hstart.step (.request (i := 0) context (.lock 0 (some none) (some (.exclusive [])) .zero) rfl) id
  have hcreated := hrequest.step (.call (i := 0) 0 .found rfl hcreate) (by
    rintro ⟨c, k, owed, hi, q, g, -, ht, -⟩
    cases hi
    cases ht)
  have hseen := hcreated.step (.call (i := 0) 0 .found rfl rfl) (by
    rintro ⟨c, k, owed, hi, q, g, -, ht, -⟩
    cases hi
    cases ht)
  have hanswer := hseen.step (.answer (i := 0) rfl) id
  refine ⟨_, hanswer, hgranted, clear_of_no_slip hanswer fun i => ?_⟩
  by_cases hi : i = 0
  · rw [hi]
    rfl
  · simp [Function.update_of_ne hi, start]

/-- A `DELETE` whose client disconnects during the look at the resource leaves the
resource locked for ever. -/
theorem abandoned_delete_stays_locked : ∃ p, Reachable (fun _ _ => True) 0 p ∧
    (∀ i, p.tasks i = none) ∧
    ∃ q g, p.locks.granted q = some g ∧ g.expiry = none ∧ g.token ∉ p.granted := by
  let context : Context := ⟨['/', 'a'], [], .absent⟩
  obtain ⟨t, hconfirm, hgranted⟩ :
      ∃ t, (DavCall.confirmLocks .absent [] ['/', 'a'] []).run 0 .found (MemLs.new 0) =
        .ok (.ok (.temporary [['1']]), t) ∧
        t.granted ['/', 'a'] = some ⟨⟨['/', 'a'], none, [], true⟩, ['1'], none, false⟩ :=
    ⟨_, rfl, rfl⟩
  have hstart : Reachable (fun _ _ => True) 0 (start 0) := .start
  have hrequest := hstart.step (.request (i := 0) context .delete rfl) trivial
  have hlocked := hrequest.step (.call (i := 0) 0 .found rfl hconfirm) trivial
  have habandon := hlocked.step (.abandon (i := 0) rfl) trivial
  refine ⟨_, habandon, fun i => ?_, _, _, hgranted, rfl, List.not_mem_nil⟩
  by_cases hi : i = 0
  · rw [hi]
    rfl
  · simp [Function.update_of_ne hi, start]

end DavPool

end Rustorr
