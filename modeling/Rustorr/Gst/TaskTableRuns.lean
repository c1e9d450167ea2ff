import Mathlib.Tactic.Common
import Rustorr.Gst.TaskTable

/-! No transcoder task is lost: what leaves the table is disposed of by the call that took it
out, and the table is empty once `Dispose` has swept it. -/

namespace Rustorr.Gst

open Function (update)

/-! ### The eviction -/

namespace TaskTable

variable (s : TaskTable) (order : IterationOrder) (protectedId : Option String)

theorem oldest_eq_some {tasks : TaskMap} {id : String}
    (h : s.oldest order protectedId tasks = some id) : id ∈ tasks ∧ some id ≠ protectedId := by
  unfold oldest at h
  obtain ⟨entry, hmin, rfl⟩ := Option.map_eq_some_iff.mp h
  obtain ⟨hmem, hne⟩ := List.mem_filter.mp (List.argmin_mem hmin)
  have hentry : entry ∈ tasks.entries := (order.perm tasks.entries).mem_iff.mp hmem
  exact ⟨List.mem_keys_of_mem hentry, of_decide_eq_true hne⟩

theorem oldest_eq_none {tasks : TaskMap} (h : s.oldest order protectedId tasks = none) :
    ∀ id ∈ tasks, some id = protectedId := by
  intro id hid
  unfold oldest at h
  have hempty := List.argmin_eq_none.mp (Option.map_eq_none_iff.mp h)
  obtain ⟨t, ht⟩ := List.exists_of_mem_keys hid
  have hmem : (⟨id, t⟩ : TaskEntry) ∈ order.apply tasks.entries :=
    (order.perm tasks.entries).mem_iff.mpr ht
  have hnot := List.filter_eq_nil_iff.mp hempty _ hmem
  simpa using hnot

/-- A task of the table stays in it or is among those taken out. -/
theorem lookup_evictLoop (limit rounds : ℕ) {tasks : TaskMap} {evicted : List ℕ} {t : ℕ}
    (h : (∃ id, tasks.lookup id = some t) ∨ t ∈ evicted) :
    (∃ id, (s.evictLoop order protectedId limit rounds tasks evicted).1.lookup id = some t) ∨
      t ∈ (s.evictLoop order protectedId limit rounds tasks evicted).2 := by
  induction rounds generalizing tasks evicted with
  | zero => exact h
  | succ rounds ih =>
    unfold evictLoop
    split
    · cases s.oldest order protectedId tasks with
      | none => exact h
      | some oldest =>
        apply ih
        rcases h with ⟨id, hid⟩ | ht
        · by_cases he : id = oldest
          · subst he
            right
            rw [hid]
            exact List.mem_append_right _ List.mem_cons_self
          · left
            exact ⟨id, (AList.lookup_erase_ne he).trans hid⟩
        · exact Or.inr (List.mem_append_left _ ht)
    · exact h

theorem lookup_evictLoop_protected (limit rounds : ℕ) (tasks : TaskMap) (evicted : List ℕ)
    {id : String} (h : some id = protectedId) :
    (s.evictLoop order protectedId limit rounds tasks evicted).1.lookup id = tasks.lookup id := by
  induction rounds generalizing tasks evicted with
  | zero => rfl
  | succ rounds ih =>
    unfold evictLoop
    split
    · cases hold : s.oldest order protectedId tasks with
      | none => rfl
      | some oldest =>
        have hne : id ≠ oldest := fun e =>
          (s.oldest_eq_some order protectedId hold).2 (e ▸ h)
        exact (ih _ _).trans (AList.lookup_erase_ne hne)
    · rfl

theorem length_erase {tasks : TaskMap} {id : String} (h : id ∈ tasks) :
    (tasks.erase id).entries.length + 1 = tasks.entries.length := by
  have hkeys : (tasks.erase id).keys.length + 1 = tasks.keys.length := by
    rw [AList.keys_erase]
    exact List.length_erase_add_one h
  simpa [AList.keys, List.keys] using hkeys

theorem length_evictLoop (limit rounds : ℕ) (tasks : TaskMap) (evicted : List ℕ)
    (h : tasks.entries.length ≤ rounds + limit) :
    (s.evictLoop order protectedId limit rounds tasks evicted).1.entries.length ≤ limit ∨
      ∀ id ∈ (s.evictLoop order protectedId limit rounds tasks evicted).1,
        some id = protectedId := by
  induction rounds generalizing tasks evicted with
  | zero =>
    left
    simpa [evictLoop] using h
  | succ rounds ih =>
    unfold evictLoop
    split
    · cases hold : s.oldest order protectedId tasks with
      | none => exact Or.inr (s.oldest_eq_none order protectedId hold)
      | some oldest =>
        have hlength := length_erase (s.oldest_eq_some order protectedId hold).1
        have hless : (tasks.erase oldest).entries.length ≤ rounds + limit := by omega
        exact ih _ _ hless
    · next hle => exact Or.inl (not_lt.mp hle)

/-- What an eviction does: the protected task stays, and no more than the limit is left unless
it is the protected task alone. -/
structure EvictsTo (limit : ℤ) (tasks : TaskMap) (evicted : List ℕ) : Prop where
  kept : ∀ id, some id = protectedId → tasks.lookup id = s.tasks.lookup id
  bounded : 0 < limit →
    (tasks.entries.length : ℤ) ≤ limit ∨ ∀ id ∈ tasks, some id = protectedId
  taken : ∀ id t, s.tasks.lookup id = some t → (∃ id, tasks.lookup id = some t) ∨ t ∈ evicted

theorem evictsTo_evictForLimit (limit : ℤ) :
    s.EvictsTo protectedId limit (s.evictForLimit order protectedId limit).1
      (s.evictForLimit order protectedId limit).2 := by
  unfold evictForLimit
  split
  · next hlimit =>
    exact ⟨fun _ _ => rfl, fun hpos => absurd hpos (not_lt.mpr hlimit),
      fun id t h => Or.inl ⟨id, h⟩⟩
  · next hlimit =>
    refine ⟨fun id h => s.lookup_evictLoop_protected order protectedId _ _ _ _ h, fun _ => ?_,
      fun id t h => s.lookup_evictLoop order protectedId _ _ (Or.inl ⟨id, h⟩)⟩
    have hbound := s.length_evictLoop order protectedId limit.toNat s.tasks.entries.length
      s.tasks [] (Nat.le_add_right _ _)
    exact hbound.imp_left fun hle => by omega

end TaskTable

/-! ### What a statement leaves to be done -/

namespace TaskTable

/-- A task is disposed of, in the table, about to be disposed of on a blocking thread, or among
those a method has yet to deal with. -/
def Covered (s : TaskTable) (owed : List ℕ) (t : ℕ) : Prop :=
  s.isDisposed t = true ∨ (∃ id, s.tasks.lookup id = some t) ∨ t ∈ s.spawned ∨ t ∈ owed

variable {s : TaskTable} {owed : List ℕ} {t : ℕ}

theorem isDisposed_modify {f : TaskCell → TaskCell} (hf : ∀ cell, cell.disposed → (f cell).disposed)
    (u : ℕ) (h : s.isDisposed t = true) :
    ({ s with cells := s.cells.modify u f } : TaskTable).isDisposed t = true := by
  unfold isDisposed at h ⊢
  rw [List.getElem?_modify]
  cases hcell : s.cells[t]? with
  | none => simp
  | some cell =>
    rw [hcell] at h
    by_cases hu : u = t
    · simpa [hu] using hf cell h
    · simpa [hu] using h

theorem isDisposed_dispose (u : ℕ) (h : s.isDisposed t = true) : (s.dispose u).isDisposed t = true :=
  isDisposed_modify (fun _ _ => rfl) u h

theorem isDisposed_dispose_self (t : ℕ) : (s.dispose t).isDisposed t = true := by
  unfold isDisposed dispose
  rw [List.getElem?_modify]
  cases s.cells[t]? <;> simp

theorem Covered.dispose (u : ℕ) (h : s.Covered owed t) : (s.dispose u).Covered (owed.erase u) t := by
  by_cases hu : t = u
  · subst hu
    exact Or.inl (isDisposed_dispose_self t)
  · refine h.imp (isDisposed_dispose u) (Or.imp_right (Or.imp_right fun ht => ?_))
    exact (List.mem_erase_of_ne hu).mpr ht

theorem Covered.mono {owed' : List ℕ} (hsub : owed ⊆ owed') (h : s.Covered owed t) :
    s.Covered owed' t :=
  h.imp_right (Or.imp_right (Or.imp_right fun ht => hsub ht))

/-- What leaves the table is owed. -/
theorem Covered.of_taken {tasks : TaskMap} {taken : List ℕ}
    (htaken : ∀ id t, s.tasks.lookup id = some t → (∃ id, tasks.lookup id = some t) ∨ t ∈ taken)
    (h : s.Covered owed t) : ({ s with tasks := tasks } : TaskTable).Covered (owed ++ taken) t := by
  rcases h with hdisposed | ⟨id, hid⟩ | hspawned | howed
  · exact Or.inl hdisposed
  · rcases htaken id t hid with hstays | ht
    · exact Or.inr (Or.inl hstays)
    · exact Or.inr (Or.inr (Or.inr (List.mem_append_right _ ht)))
  · exact Or.inr (Or.inr (Or.inl hspawned))
  · exact Or.inr (Or.inr (Or.inr (List.mem_append_left _ howed)))

theorem taken_erase (tasks : TaskMap) (id : String) :
    ∀ id' t, tasks.lookup id' = some t →
      (∃ id', (tasks.erase id).lookup id' = some t) ∨ t ∈ (tasks.lookup id).toList := by
  intro id' t h
  by_cases he : id' = id
  · subst he
    right
    simp [h]
  · exact Or.inl ⟨id', (AList.lookup_erase_ne he).trans h⟩

theorem Covered.insert (id : String) (u : ℕ) (h : s.Covered owed t) :
    ({ s with tasks := s.tasks.insert id u } : TaskTable).Covered
      (owed.erase u ++ (s.tasks.lookup id).toList) t := by
  by_cases hu : t = u
  · subst hu
    exact Or.inr (Or.inl ⟨id, AList.lookup_insert _⟩)
  · have htaken : ∀ id' t', s.tasks.lookup id' = some t' →
        (∃ id', (s.tasks.insert id u).lookup id' = some t') ∨
          t' ∈ (s.tasks.lookup id).toList := by
      intro id' t' h'
      by_cases he : id' = id
      · subst he
        right
        simp [h']
      · exact Or.inl ⟨id', (AList.lookup_insert_ne he).trans h'⟩
    have hless : s.Covered (owed.erase u) t :=
      h.imp_right (Or.imp_right (Or.imp_right (List.mem_erase_of_ne hu).mpr))
    exact hless.of_taken htaken

theorem covered_create (cell : TaskCell)
    (h : s.Covered owed t) :
    ({ s with cells := s.cells ++ [cell] } : TaskTable).Covered (owed ++ [s.cells.length]) t := by
  by_cases ht : t = s.cells.length
  · exact Or.inr (Or.inr (Or.inr (by simp [ht])))
  · rcases h with hdisposed | hrest
    · left
      unfold isDisposed at hdisposed ⊢
      rw [List.getElem?_append]
      split
      · exact hdisposed
      · rw [List.getElem?_singleton, if_neg (by omega)]
        rfl
    · exact Covered.mono (List.subset_append_left _ _) (Or.inr hrest)

/-- No statement loses sight of a task. -/
theorem covered_answer (input : TableInput) (c : TableCall) {debt : TableDebt}
    (h : s.Covered debt.tasks t) :
    (s.answer input c).2.Covered (c.owes (s.answer input c).1 debt).tasks t := by
  cases c with
  | touch u =>
    refine h.imp_left fun hd => ?_
    exact isDisposed_modify (f := fun cell => { cell with lastActive := input.now })
      (fun _ hd => hd) u hd
  | create fileId audio =>
    unfold answer
    cases input.created with
    | error e => exact h
    | ok u => exact covered_create _ h
  | insert id u => exact h.insert id u
  | evict protectedId limit =>
    exact h.of_taken (s.evictsTo_evictForLimit input.order protectedId limit).taken
  | remove id => exact h.of_taken (taken_erase s.tasks id)
  | take =>
    have htaken : ∀ id t, s.tasks.lookup id = some t →
        (∃ id, (∅ : TaskMap).lookup id = some t) ∨
          t ∈ (input.order.apply s.tasks.entries).map Sigma.snd := by
      intro id t hid
      right
      have hentry : (⟨id, t⟩ : TaskEntry) ∈ s.tasks.entries := AList.mem_lookup_iff.mp hid
      exact List.mem_map_of_mem ((input.order.perm _).mem_iff.mpr hentry)
    exact h.of_taken htaken
  | removeInactive id u cutoff =>
    by_cases hcurrent : s.tasks.lookup id = some u ∧ s.lastActive u < cutoff
    · have hanswer : s.answer input (.removeInactive id u cutoff) =
          (true, { s with tasks := s.tasks.erase id }) := if_pos hcurrent
      have hremoved := h.of_taken (taken_erase s.tasks id)
      rw [hcurrent.1] at hremoved
      rw [hanswer]
      exact hremoved
    · have hanswer : s.answer input (.removeInactive id u cutoff) = (false, s) := if_neg hcurrent
      rw [hanswer]
      exact h
  | dispose u => exact h.dispose u
  | disposeBlocking u =>
    show Covered (if input.onRuntime then _ else _) (debt.tasks.erase u) t
    split
    · by_cases hu : t = u
      · subst hu
        exact Or.inr (Or.inr (Or.inl (List.mem_append_right _ List.mem_cons_self)))
      · refine h.imp_right (Or.imp_right (Or.imp (fun ht => ?_) (List.mem_erase_of_ne hu).mpr))
        exact List.mem_append_left _ ht
    · exact h.dispose u
  | isClosed => exact h
  | close => exact h
  | lookUp id => exact h
  | fits u fileId audio => exact h
  | lockCreating => exact h
  | unlockCreating => exact h
  | prepare hash fileId => exact h
  | limit => exact h
  | setConfig maxTasks inactiveMinutes => exact h
  | now => exact h
  | inactiveMinutes => exact h
  | snapshot => exact h
  | lastActive u => exact h

end TaskTable

/-! ### The methods -/

/-- A method that has closed the service takes the table next. -/
def TableCall.guard : Prog.Spec TableCall TableCall.Ans TableDebt :=
  fun c debt Q => (debt.sweep = true → c = .take) ∧ ∀ x, Q x (c.owes x debt)

theorem TableCall.guard_monotone : Prog.Spec.Monotone guard :=
  fun _ _ _ _ hQ h => ⟨h.1, fun x => hQ _ _ (h.2 x)⟩

namespace TableM

open Prog (wp)
open TableCall (guard guard_monotone)

/-- A method that starts with nothing to do and leaves nothing to do. -/
def Clears {α : Type} (p : TableM α) : Prop :=
  wp guard p .nothing fun _ debt => debt = .nothing

section clears

variable {α β : Type}

theorem clears_pure (a : α) : Clears (pure a) := rfl

theorem clears_fail (e : ServiceError) : Clears (Prog.fail e : TableM α) := rfl

theorem clears_bind {p : TableM α} {f : α → TableM β} (hp : Clears p)
    (hf : ∀ a, Clears (f a)) : Clears (p >>= f) := by
  unfold Clears at hp ⊢
  rw [Prog.wp_bind]
  apply Prog.wp_mono guard_monotone _ hp
  intro r debt hdebt
  subst hdebt
  cases r with
  | ok a => exact hf a
  | error e => rfl

theorem clears_attempt {p : TableM α} (hp : Clears p) : Clears p.attempt := by
  unfold Clears
  rw [Prog.wp_attempt]
  exact hp

theorem clears_ofExcept (r : Except ServiceError α) : Clears (Prog.ofExcept r : TableM α) := by
  cases r <;> rfl

theorem clears_ask {c : TableCall} (hc : ∀ x, c.owes x .nothing = .nothing) : Clears (ask c) :=
  ⟨fun h => Bool.noConfusion h, hc⟩

theorem clears_forM {ι : Type} {f : ι → TableM PUnit} (hf : ∀ i, Clears (f i)) (l : List ι) :
    Clears (l.forM f) := by
  induction l with
  | nil => exact clears_pure _
  | cons i l ih => exact clears_bind (hf i) fun _ => ih

end clears

/-- Every task that is owed is disposed of. -/
theorem wp_disposeAll (l : List ℕ) {Q : Except ServiceError PUnit → TableDebt → Prop}
    (h : Q (.ok ⟨⟩) .nothing) : wp guard (disposeAll l) ⟨l, false⟩ Q := by
  induction l with
  | nil => exact h
  | cons t l ih =>
    have hround : disposeAll (t :: l) = Prog.call (.disposeBlocking t) fun _ => disposeAll l := rfl
    rw [hround]
    refine ⟨fun h => Bool.noConfusion h, fun _ => ?_⟩
    have hpaid : TableCall.owes (.disposeBlocking t) () ⟨t :: l, false⟩ = ⟨l, false⟩ := by
      show TableDebt.mk ((t :: l).erase t) false = _
      rw [List.erase_cons_head]
    rw [hpaid]
    exact ih

theorem wp_disposeAll_bind {α : Type} (l : List ℕ) {f : PUnit → TableM α}
    {Q : Except ServiceError α → TableDebt → Prop} (h : wp guard (f ⟨⟩) .nothing Q) :
    wp guard (disposeAll l >>= f) ⟨l, false⟩ Q := by
  rw [Prog.wp_bind]
  exact wp_disposeAll l h

theorem clears_matchingTask (hash fileId : String) (audio : ℤ) :
    Clears (matchingTask hash fileId audio) := by
  unfold matchingTask
  apply clears_bind (clears_ask fun _ => rfl)
  intro found
  cases found with
  | none => exact clears_pure none
  | some t =>
    apply clears_bind (clears_ask fun _ => rfl)
    intro fits
    cases fits with
    | false => exact clears_pure none
    | true => exact clears_bind (clears_ask fun _ => rfl) fun _ => clears_pure (some t)

theorem clears_evictForLimit (protectedId : Option String) :
    Clears (evictForLimit protectedId) := by
  unfold evictForLimit
  apply clears_bind (clears_ask fun _ => rfl)
  intro limit
  refine ⟨fun h => Bool.noConfusion h, fun evicted => ?_⟩
  exact wp_disposeAll evicted rfl

/-- The new task is put into the table or disposed of. -/
theorem wp_addTask (hash : String) (t : ℕ) :
    wp guard (addTask hash t) ⟨[t], false⟩ fun _ debt => debt = .nothing := by
  refine ⟨fun h => Bool.noConfusion h, fun closed => ?_⟩
  cases closed with
  | true => exact wp_disposeAll_bind [t] (clears_fail _)
  | false =>
    refine ⟨fun h => Bool.noConfusion h, fun replaced => ?_⟩
    have hpaid : TableCall.owes (.insert hash t) replaced ⟨[t], false⟩ =
        ⟨replaced.toList, false⟩ := by
      show TableDebt.mk ([t].erase t ++ replaced.toList) false = _
      rw [List.erase_cons_head, List.nil_append]
    show wp guard _ (TableCall.owes (.insert hash t) replaced ⟨[t], false⟩) _
    rw [hpaid]
    apply wp_disposeAll_bind
    exact clears_bind (clears_evictForLimit (some hash)) fun _ => clears_pure t

theorem clears_createTask (hash fileId : String) (audio : ℤ) :
    Clears (createTask hash fileId audio) := by
  unfold createTask
  apply clears_bind (clears_matchingTask hash fileId audio)
  intro found
  cases found with
  | some t => exact clears_pure t
  | none =>
    apply clears_bind (clears_ask fun _ => rfl)
    intro prepared
    cases prepared with
    | error e => exact clears_fail e
    | ok u =>
      refine ⟨fun h => Bool.noConfusion h, fun created => ?_⟩
      cases created with
      | error e => exact clears_fail e
      | ok t => exact wp_addTask hash t

theorem clears_getOrAdd (hash fileId : String) (audio : ℤ) :
    Clears (getOrAdd hash fileId audio) := by
  unfold getOrAdd
  split
  · exact clears_fail _
  · apply clears_bind (clears_ask fun h => ?_)
    · intro closed
      cases closed with
      | true => exact clears_fail _
      | false =>
        apply clears_bind (clears_matchingTask hash fileId audio)
        intro found
        cases found with
        | some t => exact clears_pure t
        | none =>
          apply clears_bind (clears_ask fun _ => rfl)
          intro _
          apply clears_bind (clears_attempt (clears_createTask hash fileId audio))
          intro result
          apply clears_bind (clears_ask fun _ => rfl)
          intro _
          exact clears_ofExcept result
    · rfl

theorem clears_tryRemove (id : String) : Clears (tryRemove id) := by
  unfold tryRemove
  split
  · exact clears_pure false
  · refine ⟨fun h => Bool.noConfusion h, fun removed => ?_⟩
    cases removed with
    | none => exact clears_pure false
    | some t => exact wp_disposeAll_bind [t] (clears_pure true)

theorem clears_updateConfig (maxTasks inactiveMinutes : ℤ) :
    Clears (updateConfig maxTasks inactiveMinutes) := by
  unfold updateConfig
  apply clears_bind (clears_ask fun _ => rfl)
  intro closed
  cases closed with
  | true => exact clears_pure _
  | false => exact clears_bind (clears_ask fun _ => rfl) fun _ => clears_evictForLimit none

theorem clears_cleanupTask (removeCutoff : Option ℕ) (entry : TaskEntry) :
    Clears (cleanupTask removeCutoff entry) := by
  unfold cleanupTask
  apply clears_bind (clears_ask fun _ => rfl)
  intro lastActive
  cases removeCutoff with
  | none => exact clears_pure _
  | some cutoff =>
    by_cases hold : lastActive < cutoff
    · simp only [if_pos hold]
      refine ⟨fun h => Bool.noConfusion h, fun removed => ?_⟩
      cases removed with
      | false => exact clears_pure _
      | true =>
        refine ⟨fun h => Bool.noConfusion h, fun _ => ?_⟩
        show TableDebt.mk ([entry.2].erase entry.2) false = .nothing
        rw [List.erase_cons_head]
        rfl
    · simp only [if_neg hold]
      exact clears_pure _

theorem clears_cleanupInactive : Clears cleanupInactive := by
  unfold cleanupInactive
  apply clears_bind (clears_ask fun _ => rfl)
  intro closed
  cases closed with
  | true => exact clears_pure _
  | false =>
    apply clears_bind (clears_ask fun _ => rfl)
    intro now
    apply clears_bind (clears_ask fun _ => rfl)
    intro inactiveMinutes
    apply clears_bind (clears_ask fun _ => rfl)
    intro snapshot
    exact clears_forM (fun entry => clears_cleanupTask _ entry) snapshot

theorem clears_dispose : Clears dispose := by
  refine ⟨fun h => Bool.noConfusion h, fun closed => ?_⟩
  cases closed with
  | true => exact clears_pure _
  | false =>
    refine ⟨fun _ => rfl, fun tasks => ?_⟩
    exact wp_disposeAll tasks rfl

end TableM

open TableM (Clears) in
theorem TableRequest.clears_body (r : TableRequest) : Clears r.body := by
  cases r with
  | getOrAdd hash fileId audio =>
    exact TableM.clears_bind (TableM.clears_getOrAdd hash fileId audio) fun _ =>
      TableM.clears_pure _
  | tryRemove id =>
    exact TableM.clears_bind (TableM.clears_tryRemove id) fun _ => TableM.clears_pure _
  | updateConfig maxTasks inactiveMinutes =>
    exact TableM.clears_updateConfig maxTasks inactiveMinutes
  | cleanupInactive => exact TableM.clears_cleanupInactive
  | dispose => exact TableM.clears_dispose

/-! ### The pool -/

namespace TaskTable

variable {s : TaskTable} (input : TableInput) {c : TableCall}

theorem closed_answer (h : (s.answer input c).2.closed = true) : s.closed = true ∨ c = .close := by
  cases c with
  | close => exact Or.inr rfl
  | create fileId audio =>
    unfold answer at h
    cases hcreated : input.created <;> simp only [hcreated] at h <;> exact Or.inl h
  | removeInactive id t cutoff =>
    unfold answer at h
    simp only at h
    split at h <;> exact Or.inl h
  | disposeBlocking t =>
    unfold answer at h
    simp only at h
    split at h <;> exact Or.inl h
  | _ => exact Or.inl h

theorem swept_answer_iff :
    (s.answer input c).2.swept = true ↔ s.swept = true ∨ c = .take := by
  cases c with
  | take => simp [answer]
  | create fileId audio => cases hcreated : input.created <;> simp [answer, hcreated]
  | removeInactive id t cutoff =>
    simp only [answer, reduceCtorEq, or_false]
    split <;> rfl
  | disposeBlocking t =>
    simp only [answer, reduceCtorEq, or_false]
    split <;> rfl
  | _ => simp [answer, dispose]

/-- Only an insertion fills an empty table. -/
theorem tasks_answer_of_empty (h : s.tasks = ∅) (hc : ∀ id t, c ≠ .insert id t) :
    (s.answer input c).2.tasks = ∅ := by
  cases c with
  | insert id t => exact absurd rfl (hc id t)
  | create fileId audio =>
    unfold answer
    cases input.created <;> exact h
  | evict protectedId limit =>
    unfold answer evictForLimit
    simp only
    split
    · exact h
    · rw [h]
      rfl
  | remove id =>
    unfold answer
    rw [h]
    rfl
  | take => rfl
  | removeInactive id t cutoff =>
    unfold answer
    simp only
    rw [h]
    split <;> first | rfl | exact h
  | disposeBlocking t =>
    unfold answer
    simp only
    split <;> exact h
  | _ => exact h

theorem covered_iff {owed : List ℕ} {t : ℕ} : s.Covered owed t ↔ s.Covered [] t ∨ t ∈ owed := by
  unfold Covered
  simp only [List.not_mem_nil, or_false]
  tauto

end TaskTable

namespace TablePool

/-- No method is under way, nor a disposal on a blocking thread. -/
def Idle (p : TablePool) : Prop := (∀ i, p.calls i = none) ∧ p.state.spawned = []

structure Inv (p : TablePool) : Prop where
  clears : ∀ i task, p.calls i = some task →
    Prog.wp TableCall.guard task.body task.debt fun _ debt => debt = .nothing
  covered : ∀ t, p.state.Covered [] t ∨ ∃ i task, p.calls i = some task ∧ t ∈ task.debt.tasks
  sweeping : p.state.closed = true → p.state.swept = true ∨
    ∃ i task, p.calls i = some task ∧ task.debt.sweep = true
  empty : p.state.swept = true → p.state.tasks = ∅

theorem inv_start (maxTasks inactiveMinutes : ℤ) : (start maxTasks inactiveMinutes).Inv := by
  refine ⟨(fun i task h => nomatch h), fun t => Or.inl (Or.inl rfl), ?_, ?_⟩
  · intro h
    cases h
  · intro h
    cases h

theorem Inv.request {p : TablePool} (h : p.Inv) {i : ℕ} (r : TableRequest)
    (hi : p.calls i = none) :
    ({ p with calls := update p.calls i (some ⟨r.body, .nothing⟩) } : TablePool).Inv := by
  have hother : ∀ j task, p.calls j = some task →
      update p.calls i (some ⟨r.body, .nothing⟩) j = some task := by
    intro j task hj
    have hne : j ≠ i := fun e => by rw [e, hi] at hj; cases hj
    exact (Function.update_of_ne hne ..).trans hj
  refine ⟨fun j task hj => ?_, fun t => ?_, fun hclosed => ?_, h.empty⟩
  · simp only [Function.update_apply] at hj
    split at hj
    · cases hj
      exact r.clears_body
    · exact h.clears j task hj
  · refine (h.covered t).imp_right ?_
    rintro ⟨j, task, hj, ht⟩
    exact ⟨j, task, hother j task hj, ht⟩
  · refine (h.sweeping hclosed).imp_right ?_
    rintro ⟨j, task, hj, hsweep⟩
    exact ⟨j, task, hother j task hj, hsweep⟩

theorem Inv.call {p : TablePool} (h : p.Inv) {i : ℕ} {c : TableCall} {k : c.Ans → TableM PUnit}
    {debt : TableDebt} (input : TableInput) (hi : p.calls i = some ⟨.call c k, debt⟩)
    (hslip : ¬Slip p (.call i)) :
    ({ state := (p.state.answer input c).2
       calls := update p.calls i
         (some ⟨k (p.state.answer input c).1, c.owes (p.state.answer input c).1 debt⟩) } :
      TablePool).Inv := by
  obtain ⟨hguard, hk⟩ := h.clears i _ hi
  set x := (p.state.answer input c).1 with hx
  set calls := update p.calls i (some ⟨k x, c.owes x debt⟩) with hcalls
  have hself : calls i = some ⟨k x, c.owes x debt⟩ := Function.update_self ..
  have hother : ∀ j, j ≠ i → calls j = p.calls j := fun j hne => Function.update_of_ne hne ..
  refine ⟨fun j task hj => ?_, fun t => ?_, fun hclosed => ?_, fun hswept => ?_⟩
  · by_cases hji : j = i
    · subst hji
      cases hself.symm.trans hj
      exact hk x
    · exact h.clears j task ((hother j hji).symm.trans hj)
  · -- a task that another method is to deal with is left to it
    have hmine : p.state.Covered debt.tasks t →
        (p.state.answer input c).2.Covered [] t ∨
          ∃ j task, calls j = some task ∧ t ∈ task.debt.tasks := by
      intro hcovered
      refine (TaskTable.covered_iff.mp (TaskTable.covered_answer input c hcovered)).imp_right ?_
      exact fun ht => ⟨i, _, hself, ht⟩
    rcases h.covered t with hcovered | ⟨j, task, hj, ht⟩
    · exact hmine (TaskTable.covered_iff.mpr (Or.inl hcovered))
    · by_cases hji : j = i
      · subst hji
        cases hi.symm.trans hj
        exact hmine (TaskTable.covered_iff.mpr (Or.inr ht))
      · exact Or.inr ⟨j, task, (hother j hji).trans hj, ht⟩
  · have hstill : p.state.closed = true → (p.state.answer input c).2.swept = true ∨
        ∃ j task, calls j = some task ∧ task.debt.sweep = true := by
      intro hbefore
      rcases h.sweeping hbefore with hswept | ⟨j, task, hj, hsweep⟩
      · exact Or.inl ((TaskTable.swept_answer_iff input).mpr (Or.inl hswept))
      · by_cases hji : j = i
        · subst hji
          cases hi.symm.trans hj
          exact Or.inl ((TaskTable.swept_answer_iff input).mpr (Or.inr (hguard hsweep)))
        · exact Or.inr ⟨j, task, (hother j hji).trans hj, hsweep⟩
    cases hbefore : p.state.closed with
    | true => exact hstill hbefore
    | false =>
      rcases TaskTable.closed_answer input hclosed with htrue | rfl
      · rw [hbefore] at htrue
        cases htrue
      · refine Or.inr ⟨i, _, hself, ?_⟩
        show (!p.state.closed) = true
        rw [hbefore]
        rfl
  · rcases (TaskTable.swept_answer_iff input).mp hswept with hbefore | rfl
    · apply TaskTable.tasks_answer_of_empty input (h.empty hbefore)
      intro id t hc
      subst hc
      exact hslip ⟨id, t, k, debt, hi, hbefore⟩
    · rfl

/-- A method that has ended has nothing to do. -/
theorem debt_of_finished {task : TableTask}
    (h : Prog.wp TableCall.guard task.body task.debt fun _ debt => debt = .nothing)
    (hend : task.body.finished) : task.debt = .nothing := by
  obtain ⟨body, debt⟩ := task
  cases body with
  | ret a => exact h
  | fail e => exact h
  | call c k => cases hend

theorem Inv.finish {p : TablePool} (h : p.Inv) {i : ℕ} {task : TableTask}
    (hi : p.calls i = some task) (hend : task.body.finished) :
    ({ p with calls := update p.calls i none } : TablePool).Inv := by
  have hnothing := debt_of_finished (h.clears i task hi) hend
  have hother : ∀ j, j ≠ i → update p.calls i none j = p.calls j :=
    fun j hne => Function.update_of_ne hne ..
  refine ⟨fun j task' hj => ?_, fun t => ?_, fun hclosed => ?_, h.empty⟩
  · simp only [Function.update_apply] at hj
    split at hj
    · cases hj
    · exact h.clears j task' hj
  · refine (h.covered t).imp_right ?_
    rintro ⟨j, task', hj, ht⟩
    by_cases hji : j = i
    · subst hji
      cases hi.symm.trans hj
      rw [hnothing] at ht
      cases ht
    · exact ⟨j, task', (hother j hji).trans hj, ht⟩
  · refine (h.sweeping hclosed).imp_right ?_
    rintro ⟨j, task', hj, hsweep⟩
    by_cases hji : j = i
    · subst hji
      cases hi.symm.trans hj
      rw [hnothing] at hsweep
      cases hsweep
    · exact ⟨j, task', (hother j hji).trans hj, hsweep⟩

theorem Inv.spawned {p : TablePool} (h : p.Inv) (t : ℕ) :
    ({ p with state := { p.state.dispose t with spawned := p.state.spawned.erase t } } :
      TablePool).Inv := by
  refine ⟨h.clears, fun u => ?_, h.sweeping, h.empty⟩
  refine (h.covered u).imp_left fun hcovered => ?_
  by_cases hu : u = t
  · subst hu
    exact Or.inl (TaskTable.isDisposed_dispose_self u)
  · refine hcovered.imp (TaskTable.isDisposed_dispose t) (Or.imp_right (Or.imp_left fun hmem => ?_))
    exact (List.mem_erase_of_ne hu).mpr hmem

theorem Inv.step {p p' : TablePool} {e : TableEvent} (h : p.Inv) (hs : Step p e p')
    (hslip : ¬Slip p e) : p'.Inv := by
  cases hs with
  | request r hi => exact h.request r hi
  | call input hi hlock => exact h.call input hi hslip
  | finish hi hend => exact h.finish hi hend
  | spawned ht => exact h.spawned _

variable {maxTasks inactiveMinutes : ℤ} {p : TablePool}

theorem inv_reachable
    (h : Reachable (fun p e => ¬Slip p e) maxTasks inactiveMinutes p) : p.Inv := by
  induction h with
  | start => exact inv_start maxTasks inactiveMinutes
  | step hp hs hslip ih => exact ih.step hs hslip

section trace

variable {allowed : TablePool → TableEvent → Prop}

theorem Reachable.ask (h : Reachable allowed maxTasks inactiveMinutes p) {i : ℕ} {c : TableCall}
    {k : c.Ans → TableM PUnit} {debt : TableDebt} (input : TableInput)
    (hallowed : allowed p (.call i)) (hi : p.calls i = some ⟨.call c k, debt⟩)
    (hlock : c = .lockCreating → p.state.creating = false) :
    Reachable allowed maxTasks inactiveMinutes
      { state := (p.state.answer input c).2
        calls := update p.calls i
          (some ⟨k (p.state.answer input c).1, c.owes (p.state.answer input c).1 debt⟩) } :=
  h.step (.call input hi hlock) hallowed

end trace

theorem not_slip_of_open (h : p.state.swept = false) (e : TableEvent) : ¬Slip p e := by
  cases e with
  | call i =>
    rintro ⟨id, t, k, debt, -, hswept⟩
    rw [h] at hswept
    cases hswept
  | request i r => exact id
  | finish i => exact id
  | spawned t => exact id

theorem not_slip_of_call {i : ℕ} {c : TableCall} {k : c.Ans → TableM PUnit} {debt : TableDebt}
    (hi : p.calls i = some ⟨.call c k, debt⟩) (hc : ∀ id t, c ≠ .insert id t) :
    ¬Slip p (.call i) := by
  rintro ⟨id, t, k', debt', hi', -⟩
  cases hi.symm.trans hi'
  exact hc id t rfl

/-- What is outside while a task is made: the first second, on the runtime, all goes well. -/
def calm : TableInput := ⟨0, true, .ok (), .ok (), ⟨id, fun _ => .refl _⟩⟩

/-- Unless a task is put into the table after `Dispose` has taken it, no task is lost: one that
is neither disposed of nor in the table is to be dealt with by a method or a thread, and a closed
table is empty in the end, with every task disposed of. -/
theorem tasks_bounded_and_disposed
    (h : Reachable (fun p e => ¬Slip p e) maxTasks inactiveMinutes p) :
    (∀ input protectedId limit, p.state.EvictsTo protectedId limit
      (p.state.answer input (.evict protectedId limit)).2.tasks
      (p.state.answer input (.evict protectedId limit)).1) ∧
    (∀ t cell, p.state.cells[t]? = some cell → cell.disposed = true ∨
      (∃ id, p.state.tasks.lookup id = some t) ∨ t ∈ p.state.spawned ∨
      ∃ i task, p.calls i = some task ∧ t ∈ task.debt.tasks) ∧
    (p.Idle → ∀ t cell, p.state.cells[t]? = some cell → cell.disposed = true ∨
      ∃ id, p.state.tasks.lookup id = some t) ∧
    (p.Idle → p.state.closed = true →
      p.state.tasks = ∅ ∧ ∀ cell ∈ p.state.cells, cell.disposed = true) := by
  have hinv := inv_reachable h
  have hcells : ∀ t cell, p.state.cells[t]? = some cell → cell.disposed = true ∨
      (∃ id, p.state.tasks.lookup id = some t) ∨ t ∈ p.state.spawned ∨
      ∃ i task, p.calls i = some task ∧ t ∈ task.debt.tasks := by
    intro t cell hcell
    have hdisposed : p.state.isDisposed t = cell.disposed := by simp [TaskTable.isDisposed, hcell]
    rcases hinv.covered t with (hd | hin | hspawned | hnone) | howed
    · exact Or.inl (hdisposed.symm.trans hd)
    · exact Or.inr (Or.inl hin)
    · exact Or.inr (Or.inr (Or.inl hspawned))
    · cases hnone
    · exact Or.inr (Or.inr (Or.inr howed))
  have hidle : p.Idle → ∀ t cell, p.state.cells[t]? = some cell → cell.disposed = true ∨
      ∃ id, p.state.tasks.lookup id = some t := by
    rintro ⟨hcalls, hthreads⟩ t cell hcell
    rcases hcells t cell hcell with hd | hin | hspawned | ⟨i, task, hi, -⟩
    · exact Or.inl hd
    · exact Or.inr hin
    · rw [hthreads] at hspawned
      cases hspawned
    · rw [hcalls i] at hi
      cases hi
  refine ⟨fun input protectedId limit => ?_, hcells, hidle, fun hend hclosed => ?_⟩
  · exact p.state.evictsTo_evictForLimit input.order protectedId limit
  · have hswept : p.state.swept = true := by
      rcases hinv.sweeping hclosed with hswept | ⟨i, task, hi, -⟩
      · exact hswept
      · rw [hend.1 i] at hi
        cases hi
    have hempty := hinv.empty hswept
    refine ⟨hempty, fun cell hcell => ?_⟩
    obtain ⟨t, ht⟩ := List.getElem?_of_mem hcell
    rcases hidle hend t cell ht with hd | ⟨id, hid⟩
    · exact hd
    · rw [hempty] at hid
      cases hid

/-- A task is made, and `Dispose` takes it. -/
theorem tasks_bounded_and_disposed_swept :
    ∃ p, Reachable (fun p e => ¬Slip p e) 0 5 p ∧ p.state.cells ≠ [] ∧ p.state.tasks = ∅ ∧
      ∀ cell ∈ p.state.cells, cell.disposed = true := by
  have h : Reachable (fun p e => ¬Slip p e) 0 5 _ := .start
  have h := h.step (.request (i := 0) (.getOrAdd "a" "0" 0) rfl) (not_slip_of_open rfl _)
  have h := h.ask calm (not_slip_of_open rfl _) (i := 0) rfl (fun h => nomatch h)
  have h := h.ask calm (not_slip_of_open rfl _) (i := 0) rfl (fun h => nomatch h)
  have h := h.ask calm (not_slip_of_open rfl _) (i := 0) rfl (fun _ => rfl)
  have h := h.ask calm (not_slip_of_open rfl _) (i := 0) rfl (fun h => nomatch h)
  have h := h.ask calm (not_slip_of_open rfl _) (i := 0) rfl (fun h => nomatch h)
  have h := h.ask calm (not_slip_of_open rfl _) (i := 0) rfl (fun h => nomatch h)
  have h := h.ask calm (not_slip_of_open rfl _) (i := 0) rfl (fun h => nomatch h)
  have h := h.ask calm (not_slip_of_open rfl _) (i := 0) rfl (fun h => nomatch h)
  have h := h.ask calm (not_slip_of_open rfl _) (i := 0) rfl (fun h => nomatch h)
  have h := h.ask calm (not_slip_of_open rfl _) (i := 0) rfl (fun h => nomatch h)
  have h := h.ask calm (not_slip_of_open rfl _) (i := 0) rfl (fun h => nomatch h)
  have h := h.step (.finish (i := 0) rfl rfl) (not_slip_of_open rfl _)
  have h := h.step (.request (i := 0) .dispose rfl) (not_slip_of_open rfl _)
  have h := h.ask calm (not_slip_of_open rfl _) (i := 0) rfl (fun h => nomatch h)
  have h := h.ask calm (not_slip_of_open rfl _) (i := 0) rfl (fun h => nomatch h)
  have h := h.ask calm (not_slip_of_call rfl (fun _ _ h => nomatch h)) (i := 0) rfl (fun h => nomatch h)
  have h := h.step (.finish (i := 0) rfl rfl) id
  have h := h.step (.spawned (t := 0) List.mem_cons_self) id
  refine ⟨_, h, List.cons_ne_nil _ _, (tasks_bounded_and_disposed h).2.2.2 ⟨fun i => ?_, rfl⟩ rfl⟩
  by_cases h0 : i = 0
  · subst h0
    rfl
  · repeat refine (Function.update_of_ne h0 ..).trans ?_
    rfl

/-- A request makes a task and sees the service open, the service is closed and its table taken,
and then the task is put into the table. -/
theorem late_task_stays :
    ∃ p, Reachable (fun _ _ => True) 0 5 p ∧ p.Idle ∧ p.state.closed = true ∧
      p.state.tasks.lookup "a" = some 0 ∧
      p.state.cells[0]?.map TaskCell.disposed = some false := by
  have h : Reachable (fun _ _ => True) 0 5 _ := .start
  have h := h.step (.request (i := 0) (.getOrAdd "a" "0" 0) rfl) trivial
  have h := h.ask calm trivial (i := 0) rfl (fun h => nomatch h)
  have h := h.ask calm trivial (i := 0) rfl (fun h => nomatch h)
  have h := h.ask calm trivial (i := 0) rfl (fun _ => rfl)
  have h := h.ask calm trivial (i := 0) rfl (fun h => nomatch h)
  have h := h.ask calm trivial (i := 0) rfl (fun h => nomatch h)
  have h := h.ask calm trivial (i := 0) rfl (fun h => nomatch h)
  have h := h.ask calm trivial (i := 0) rfl (fun h => nomatch h)
  have h := h.step (.request (i := 1) .dispose rfl) trivial
  have h := h.ask calm trivial (i := 1) rfl (fun h => nomatch h)
  have h := h.ask calm trivial (i := 1) rfl (fun h => nomatch h)
  have h := h.step (.finish (i := 1) rfl rfl) trivial
  have h := h.ask calm trivial (i := 0) rfl (fun h => nomatch h)
  have h := h.ask calm trivial (i := 0) rfl (fun h => nomatch h)
  have h := h.ask calm trivial (i := 0) rfl (fun h => nomatch h)
  have h := h.ask calm trivial (i := 0) rfl (fun h => nomatch h)
  have h := h.step (.finish (i := 0) rfl rfl) trivial
  refine ⟨_, h, ⟨fun i => ?_, rfl⟩, rfl, rfl, rfl⟩
  by_cases h0 : i = 0
  · subst h0
    rfl
  · by_cases h1 : i = 1
    · subst h1
      rfl
    · repeat first
        | refine (Function.update_of_ne h0 ..).trans ?_
        | refine (Function.update_of_ne h1 ..).trans ?_
      rfl

end TablePool

end Rustorr.Gst
