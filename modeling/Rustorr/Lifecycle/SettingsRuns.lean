import Mathlib.Tactic.ByContra
import Rustorr.Lifecycle.SettingsPool

/-! Settings calls whose updates do not overlap leave the document, the cap and the
copy in memory in agreement, with no update lost. -/

namespace Rustorr

open Function (update)
open Prog (wp)

namespace SettingsPool

/-- What a statement asks of the phase its call is in. -/
def Asks (u : SettingsUpdate) : SettingsCall → SettingsPhase → Prop
  | .settings, phase => phase = .outside
  | .persist s, phase => (phase = .outside ∧ ∀ r, u.apply r = s) ∨
    ∃ r, phase = .read r ∧ s = u.apply r ∧ s.cacheCap = r.cacheCap
  | .setCapBytes n, phase => ∃ s, phase = .persisted s ∧ n = s.cacheCap
  | .replace s, phase => phase = .capped s
  | .settle, phase => phase = .outside

def guard (u : SettingsUpdate) : Prog.Spec SettingsCall SettingsCall.Ans SettingsPhase :=
  fun c phase Q => Asks u c phase ∧ ∀ x, Q x (c.next x phase)

/-- What is left of a call ends outside an update. -/
def Orderly (u : SettingsUpdate) (body : SettingsM Unit) (phase : SettingsPhase) : Prop :=
  wp (guard u) body phase fun _ phase => phase = .outside

theorem orderly_setSettings {u : SettingsUpdate} {settings : Settings} (readOnly : Bool)
    (hu : ∀ r, u.apply r = settings.normalized) :
    Orderly u (SettingsUpdate.setSettings readOnly settings) .outside := by
  unfold SettingsUpdate.setSettings
  split
  · exact rfl
  · refine ⟨Or.inl ⟨rfl, hu⟩, fun saved => ?_⟩
    cases saved with
    | error e => exact rfl
    | ok _ =>
      refine ⟨⟨_, rfl, rfl⟩, fun _ => ⟨rfl, fun _ => ⟨rfl, fun settled => ?_⟩⟩⟩
      cases settled <;> exact rfl

theorem orderly_setStoragePreferences (readOnly : Bool) (a b : Option Bool) :
    Orderly (.storage a b) (SettingsUpdate.setStoragePreferences readOnly a b) .outside := by
  unfold SettingsUpdate.setStoragePreferences
  split
  · exact rfl
  · refine ⟨rfl, fun r => ⟨Or.inr ⟨r, rfl, rfl, rfl⟩, fun saved => ?_⟩⟩
    cases saved with
    | error e => exact rfl
    | ok _ => exact ⟨rfl, fun _ => rfl⟩

theorem orderly_body (readOnly : Bool) (u : SettingsUpdate) :
    Orderly u (u.body readOnly) .outside := by
  cases u with
  | set settings => exact orderly_setSettings readOnly fun _ => rfl
  | reset => exact orderly_setSettings readOnly fun _ => rfl
  | storage a b => exact orderly_setStoragePreferences readOnly a b

/-- Where the shared settings are while a call is in a phase, `current` being the
settings after the updates saved so far. -/
def During (p : SettingsPool) (current : Settings) : SettingsPhase → Prop
  | .outside => Agrees p current
  | .read r => r = current ∧ Agrees p current
  | .persisted s => s = current ∧ p.state.settings = some current
  | .capped s => s = current ∧ p.state.settings = some current ∧ p.capBytes = current.cacheCap

structure Inv (settings : Settings) (p : SettingsPool) : Prop where
  orderly : ∀ i task, p.tasks i = some task → Orderly task.update task.body task.phase
  alone : ∀ i j task task', p.tasks i = some task → p.tasks j = some task' →
    task.phase ≠ .outside → task'.phase ≠ .outside → i = j
  idle : (∀ i task, p.tasks i = some task → task.phase = .outside) →
    Agrees p (replay settings p.history)
  busy : ∀ i task, p.tasks i = some task → task.phase ≠ .outside →
    During p (replay settings p.history) task.phase

theorem inv_start (readOnly : Bool) (state : State Settings) (settings : Settings) :
    Inv settings (start readOnly state settings) := by
  have hnone : ∀ i task, (start readOnly state settings).tasks i ≠ some task :=
    fun i task h => nomatch h
  exact ⟨fun i task h => absurd h (hnone i task), fun i j task task' h => absurd h (hnone i task),
    fun _ => ⟨rfl, rfl, rfl⟩, fun i task h => absurd h (hnone i task)⟩

variable {settings : Settings} {p p' : SettingsPool}

/-- A step that leaves task `i` in a phase of which `During` holds. -/
theorem Inv.move (h : Inv settings p) {i : ℕ} {task : SettingsTask}
    (hother : ∀ j task', p.tasks j = some task' → j ≠ i → task'.phase ≠ .outside →
      task.phase = .outside ∧ p'.history = p.history ∧
        ∀ s, During p s task'.phase → During p' s task'.phase)
    (htasks : p'.tasks = update p.tasks i (some task))
    (horderly : Orderly task.update task.body task.phase)
    (hduring : (∀ j task', p.tasks j = some task' → j ≠ i → task'.phase = .outside) →
      During p' (replay settings p'.history) task.phase) :
    Inv settings p' := by
  have hself : p'.tasks i = some task := by rw [htasks, Function.update_self]
  have hne : ∀ {j}, j ≠ i → p'.tasks j = p.tasks j := by
    intro j hj
    rw [htasks, Function.update_of_ne hj]
  have hcases : ∀ {j task'}, p'.tasks j = some task' →
      (j = i ∧ task' = task) ∨ (j ≠ i ∧ p.tasks j = some task') := by
    intro j task' hj
    by_cases hji : j = i
    · rw [hji, hself, Option.some.injEq] at hj
      exact Or.inl ⟨hji, hj.symm⟩
    · exact Or.inr ⟨hji, by rw [← hne hji, hj]⟩
  refine ⟨fun j task' hj => ?_, fun j k task₁ task₂ hj hk h₁ h₂ => ?_, fun hall => ?_,
    fun j task' hj hp => ?_⟩
  · rcases hcases hj with ⟨-, rfl⟩ | ⟨-, hj⟩
    · exact horderly
    · exact h.orderly j task' hj
  · rcases hcases hj with ⟨rfl, rfl⟩ | ⟨hji, hj⟩
    · rcases hcases hk with ⟨rfl, -⟩ | ⟨hki, hk⟩
      · rfl
      · exact absurd (hother k task₂ hk hki h₂).1 h₁
    · rcases hcases hk with ⟨rfl, rfl⟩ | ⟨hki, hk⟩
      · exact absurd (hother j task₁ hj hji h₁).1 h₂
      · exact h.alone j k task₁ task₂ hj hk h₁ h₂
  · have hout : task.phase = .outside := hall i task hself
    have := hduring fun j task' hj hji => hall j task' (by rw [hne hji, hj])
    rw [hout] at this
    exact this
  · rcases hcases hj with ⟨rfl, rfl⟩ | ⟨hji, hj⟩
    · refine hduring fun k task'' hk hki => ?_
      by_contra hne'
      exact hp (hother k task'' hk hki hne').1
    · obtain ⟨-, hhist, hkeep⟩ := hother j task' hj hji hp
      rw [hhist]
      exact hkeep _ (h.busy j task' hj hp)

theorem replay_append (settings : Settings) (history : List SettingsUpdate) (u : SettingsUpdate) :
    replay settings (history ++ [u]) = u.apply (replay settings history) := by
  rw [replay, List.foldl_append]
  rfl

/-- A statement of a call that is inside an update or begins one alone. -/
theorem Inv.call (h : Inv settings p) {i : ℕ} {u : SettingsUpdate} {c : SettingsCall}
    {k : c.Ans → SettingsM Unit} {phase : SettingsPhase} (fails : Bool)
    (settled : Except Lifecycle.Error Unit) (hi : p.tasks i = some ⟨u, .call c k, phase⟩)
    (hslip : ¬Slip p (.call i)) :
    Inv settings
      (let (x, p') := p.answer fails settled c
       { p' with
         tasks := update p.tasks i (some ⟨u, k x, c.next x phase⟩)
         history := p.history ++ saves u c x }) := by
  obtain ⟨hasks, hk⟩ := h.orderly i _ hi
  -- a call inside its update is alone there, and so is one that begins without a slip
  have halone : (phase ≠ .outside ∨ c = .settings ∨ ∃ s, c = .persist s) →
      ∀ j task, p.tasks j = some task → j ≠ i → task.phase = .outside := by
    intro hc j task hj hji
    by_contra hne
    rcases Classical.em (phase = .outside) with rfl | hphase
    · exact hslip ⟨u, c, k, hi, hc.resolve_left (fun e => e rfl), j, task, hj, hne⟩
    · exact hji (h.alone j i task _ hj hi hne hphase)
  have hagrees : phase = .outside → (∀ j task, p.tasks j = some task → j ≠ i → task.phase = .outside) →
      Agrees p (replay settings p.history) := by
    intro hphase hout
    refine h.idle fun j task hj => ?_
    by_cases hji : j = i
    · rw [hji, hi, Option.some.injEq] at hj
      rw [← hj]
      exact hphase
    · exact hout j task hj hji
  have hquiet : ∀ {q : SettingsPool} {task : SettingsTask},
      (phase ≠ .outside ∨ c = .settings ∨ ∃ s, c = .persist s) →
      ∀ j task', p.tasks j = some task' → j ≠ i → task'.phase ≠ .outside →
        task.phase = .outside ∧ q.history = p.history ∧
          ∀ s, During p s task'.phase → During q s task'.phase :=
    fun hc j task' hj hji hne => absurd (halone hc j task' hj hji) hne
  cases c with
  | settings =>
    have hphase : phase = .outside := hasks
    refine h.move (hquiet (Or.inr (Or.inl rfl))) rfl (hk _) fun hout => ?_
    obtain ⟨hdoc, hcap, hmem⟩ := hagrees hphase hout
    show During _ (replay settings (p.history ++ [])) _
    rw [List.append_nil]
    exact ⟨hmem, hdoc, hcap, hmem⟩
  | persist s =>
    have hc : phase ≠ .outside ∨ SettingsCall.persist s = .settings ∨ ∃ s', SettingsCall.persist s = .persist s' :=
      Or.inr (Or.inr ⟨s, rfl⟩)
    cases fails with
    | true =>
      refine h.move (hquiet hc) rfl (hk _) fun hout => ?_
      show Agrees p (replay settings (p.history ++ []))
      rw [List.append_nil]
      rcases hasks with ⟨hphase, -⟩ | ⟨r, hphase, -, -⟩
      · exact hagrees hphase hout
      · have := h.busy i _ hi (by rw [hphase]; exact SettingsPhase.noConfusion)
        rw [show (SettingsTask.mk u _ phase).phase = .read r from hphase] at this
        exact this.2
    | false =>
      refine h.move (hquiet hc) rfl (hk _) fun hout => ?_
      show During _ (replay settings (p.history ++ [u])) _
      rw [replay_append]
      rcases hasks with ⟨rfl, hs⟩ | ⟨r, rfl, hs, hcap⟩
      · rw [hs]
        exact ⟨rfl, rfl⟩
      · obtain ⟨hr, -, hcap', -⟩ := h.busy i _ hi SettingsPhase.noConfusion
        rw [← hr, ← hs]
        refine ⟨rfl, rfl, ?_⟩
        show p.capBytes = s.cacheCap
        rw [hcap, hr]
        exact hcap'
  | setCapBytes n =>
    obtain ⟨s, rfl, rfl⟩ := hasks
    refine h.move (hquiet (Or.inl SettingsPhase.noConfusion)) rfl (hk _) fun hout => ?_
    obtain ⟨hs, hdoc⟩ := h.busy i _ hi SettingsPhase.noConfusion
    show During _ (replay settings (p.history ++ [])) _
    rw [List.append_nil]
    exact ⟨hs, hdoc, by rw [← hs]; rfl⟩
  | replace s =>
    have hphase : phase = .capped s := hasks
    subst hphase
    refine h.move (hquiet (Or.inl SettingsPhase.noConfusion)) rfl (hk _) fun hout => ?_
    obtain ⟨hs, hdoc, hcap⟩ := h.busy i _ hi SettingsPhase.noConfusion
    show During _ (replay settings (p.history ++ [])) _
    rw [List.append_nil]
    exact ⟨hdoc, hcap, hs⟩
  | settle =>
    have hphase : phase = .outside := hasks
    subst hphase
    refine h.move (fun j task' hj hji hne => ⟨rfl, ?_, fun s hs => hs⟩) rfl (hk _) fun hout => ?_
    · exact List.append_nil _
    · show Agrees p (replay settings (p.history ++ []))
      rw [List.append_nil]
      exact hagrees rfl hout

/-- A call that is outside an update goes. -/
theorem Inv.finish (h : Inv settings p) {i : ℕ} {task : SettingsTask} {results}
    (hi : p.tasks i = some task) (hphase : task.phase = .outside) :
    Inv settings { p with tasks := update p.tasks i none, results } := by
  have hold : ∀ {j task'}, update p.tasks i none j = some task' → p.tasks j = some task' := by
    intro j task' hj
    by_cases hji : j = i
    · rw [hji, Function.update_self] at hj
      cases hj
    · rwa [Function.update_of_ne hji] at hj
  refine ⟨fun j task' hj => h.orderly j task' (hold hj),
    fun j k task₁ task₂ hj hk => h.alone j k task₁ task₂ (hold hj) (hold hk), fun hall => ?_,
    fun j task' hj => h.busy j task' (hold hj)⟩
  refine h.idle fun j task' hj => ?_
  by_cases hji : j = i
  · rw [hji, hi, Option.some.injEq] at hj
    rw [← hj, hphase]
  · refine hall j task' ?_
    show update p.tasks i none j = _
    rw [Function.update_of_ne hji, hj]

/-- A step that is no slip. -/
theorem Inv.step {e : SettingsEvent} (h : Inv settings p) (hs : Step p e p') (hslip : ¬Slip p e) :
    Inv settings p' := by
  cases hs with
  | request u hi =>
    rename_i i
    refine h.move (fun j task' hj hji hne => ⟨rfl, rfl, fun s hs => hs⟩) rfl
      (orderly_body p.readOnly u) fun hout => ?_
    refine h.idle fun j task hj => hout j task hj ?_
    rintro rfl
    rw [hi] at hj
    cases hj
  | call fails settled hi => exact h.call fails settled hi hslip
  | answer hi => exact h.finish hi (h.orderly _ _ hi)
  | refuse hi => exact h.finish hi (h.orderly _ _ hi)

theorem inv_of_reachable {readOnly : Bool} {state : State Settings}
    (h : Reachable (fun p e => ¬Slip p e) readOnly state settings p) : Inv settings p := by
  induction h with
  | start => exact inv_start readOnly state settings
  | step _ hs hslip ih => exact ih.step hs hslip

/-- Calls whose updates do not overlap: once none is under way, the document, the cap
and the copy in memory are those of the settings with every saved update in turn. -/
theorem agrees_of_no_slip {readOnly : Bool} {state : State Settings}
    (h : Reachable (fun p e => ¬Slip p e) readOnly state settings p)
    (hidle : ∀ i, p.tasks i = none) : Agrees p (replay settings p.history) := by
  refine (inv_of_reachable h).idle fun i task hi => ?_
  rw [hidle i] at hi
  cases hi

/-- A call alone, seen to its end. -/
theorem agrees_of_no_slip_storage : ∃ p, Reachable (fun p e => ¬Slip p e) false State.empty
    Settings.default p ∧ p.history = [.storage (some false) none] ∧
    Agrees p (replay Settings.default p.history) := by
  have hstart : Reachable (fun p e => ¬Slip p e) false State.empty Settings.default
    (start false State.empty Settings.default) := .start
  have hslip : ∀ {p : SettingsPool} {task}, p.tasks = update (fun _ => none) 0 (some task) →
      ∀ {u c k}, p.tasks 0 = some ⟨u, .call c k, .outside⟩ → ¬Slip p (.call 0) := by
    rintro p task htasks u c k h0 ⟨u', c', k', h0', -, j, task', hj, hne⟩
    rw [htasks] at h0 hj
    by_cases hj0 : j = 0
    · subst hj0
      rw [h0, Option.some.injEq] at hj
      exact hne (hj ▸ rfl)
    · rw [Function.update_of_ne hj0] at hj
      cases hj
  have hinside : ∀ {p : SettingsPool} {u body phase}, p.tasks 0 = some ⟨u, body, phase⟩ →
      phase ≠ .outside → ¬Slip p (.call 0) := by
    rintro p u body phase h0 hne ⟨u', c', k', h0', -⟩
    rw [h0, Option.some.injEq] at h0'
    cases h0'
    exact hne rfl
  have hrequest := hstart.step (.request (i := 0) (.storage (some false) none) rfl) id
  have hread := hrequest.step (.call (i := 0) false (.ok ()) rfl) (hslip rfl rfl)
  have hsaved := hread.step (.call (i := 0) false (.ok ()) rfl) (hinside rfl SettingsPhase.noConfusion)
  have hreplaced := hsaved.step (.call (i := 0) false (.ok ()) rfl)
    (hinside rfl SettingsPhase.noConfusion)
  have hanswer := hreplaced.step (.answer (i := 0) rfl) id
  refine ⟨_, hanswer, rfl, agrees_of_no_slip hanswer fun i => ?_⟩
  by_cases hi : i = 0
  · rw [hi]
    rfl
  · simp [Function.update_of_ne hi, start, answer]

/-- A storage preference saved over settings set meanwhile: both calls return `Ok`, the
cap is that of the settings set, and the settings themselves are lost. -/
theorem set_lost_by_storage : ∃ p, Reachable (fun _ _ => True) false State.empty
    Settings.default p ∧ (∀ i, p.tasks i = none) ∧ (∀ r ∈ p.results, r = .ok ()) ∧
    p.history = [.set { Settings.default with cacheSize := 1 }, .storage (some false) none] ∧
    p.capBytes ≠ p.settings.cacheCap ∧ p.settings ≠ replay Settings.default p.history := by
  have hstart : Reachable (fun _ _ => True) false State.empty Settings.default
    (start false State.empty Settings.default) := .start
  have hstorage := hstart.step (.request (i := 0) (.storage (some false) none) rfl) trivial
  have hset := hstorage.step
    (.request (i := 1) (.set { Settings.default with cacheSize := 1 }) rfl) trivial
  have hread := hset.step (.call (i := 0) false (.ok ()) rfl) trivial
  have hpersist := hread.step (.call (i := 1) false (.ok ()) rfl) trivial
  have hcap := hpersist.step (.call (i := 1) false (.ok ()) rfl) trivial
  have hreplace := hcap.step (.call (i := 1) false (.ok ()) rfl) trivial
  have hsettle := hreplace.step (.call (i := 1) false (.ok ()) rfl) trivial
  have hreturned := hsettle.step (.answer (i := 1) rfl) trivial
  have hsaved := hreturned.step (.call (i := 0) false (.ok ()) rfl) trivial
  have hreplaced := hsaved.step (.call (i := 0) false (.ok ()) rfl) trivial
  have hanswer := hreplaced.step (.answer (i := 0) rfl) trivial
  refine ⟨_, hanswer, fun i => ?_, ?_, rfl, ?_, ?_⟩
  · by_cases h0 : i = 0
    · rw [h0]
      rfl
    · by_cases h1 : i = 1
      · rw [h1]
        rfl
      · simp [Function.update_of_ne h0, Function.update_of_ne h1, start, answer]
  · intro r hr
    have hr' : r ∈ [Except.ok (), Except.ok ()] := hr
    simpa using hr'
  · show (1 : ℤ).toNat ≠ (64 <<< 20 : ℤ).toNat
    decide
  · intro h
    have hsize := congrArg Settings.cacheSize h
    exact absurd hsize (by decide)

end SettingsPool

end Rustorr
