import Rustorr.Lifecycle.Agreement
import Rustorr.Lifecycle.SoftCap

/-! Runs of a service keep the engine and the live map in agreement as long as
no operation slips. -/

namespace Rustorr

open Lifecycle (Error)
open Prog (followed_ok followed_error)

/-! ### Programs that leave both alone -/

/-- An act that neither loads nor unloads a torrent and keeps the live map. -/
def Act.Steady : Act → Prop
  | .call _ (.add _ _) | .call _ (.forget _ _) => False
  | .atomically _ f => ∀ t, (f t).2.live = t.live
  | _ => True

/-- A steady act that writes no row of the catalog, and no settings. -/
def Act.Tame : Act → Prop
  | .call _ (.add _ _) | .call _ (.forget _ _) => False
  | .call _ (.saveTorrent _ _) | .call _ (.removeTorrent _) => False
  | .call _ (.setSettings _) | .call _ (.setWafLists _) => False
  | .atomically _ f => ∀ t, (f t).2.live = t.live ∧ (f t).2.settings = t.settings
  | _ => True

theorem Act.Tame.steady {a : Act} (ha : a.Tame) : a.Steady := by
  cases a with
  | call caller c => cases c <;> first | exact ha.elim | trivial
  | atomically β f => exact fun t => (ha t).1
  | _ => trivial

namespace Coordinator

variable {α β : Type}

def Steady (p : M α) : Prop := Prog.Every Act.Steady p

def Tame (p : M α) : Prop := Prog.Every Act.Tame p

theorem Tame.steady {p : M α} (hp : Tame p) : Steady p :=
  Prog.every_mono (fun _ ha => ha.steady) hp

theorem tame_bind {p : M α} {f : α → M β} (hp : Tame p) (hf : ∀ a, Tame (f a)) :
    Tame (p >>= f) := Prog.every_bind hp hf

theorem tame_atomically {f : TorrentCoordinator → β × TorrentCoordinator}
    (hf : ∀ t, (f t).2.live = t.live ∧ (f t).2.settings = t.settings) : Tame (atomically f) :=
  ⟨hf, fun _ => trivial⟩

theorem tame_fields (f : TorrentCoordinator → β) : Tame (fields f) :=
  tame_atomically fun _ => ⟨rfl, rfl⟩

theorem tame_isLoaded (caller : Activation) (hash : InfoHash) :
    Tame (call caller (.isLoaded hash)) := ⟨trivial, fun _ => trivial⟩

theorem tame_act {a : Act} (ha : a.Tame) : Tame (act a) := ⟨ha, fun _ => trivial⟩

theorem tame_okOr (e : Lifecycle.Error) (a : Option α) : Tame (okOr e a) := by
  cases a <;> trivial

theorem tame_stopPrefetchLocked (hash : InfoHash) : Tame (stopPrefetchLocked hash) := by
  refine tame_bind (tame_atomically fun _ => ⟨rfl, rfl⟩) ?_
  rintro (_ | task)
  · trivial
  · exact tame_act trivial

theorem tame_stopIdleDetachLocked (hash : InfoHash) : Tame (stopIdleDetachLocked hash) := by
  refine tame_bind (tame_atomically fun _ => ⟨rfl, rfl⟩) ?_
  rintro (_ | task)
  · trivial
  · exact tame_act trivial

theorem tame_ensureUnpinned (caller : Activation) (hash : InfoHash) :
    Tame (ensureUnpinned caller hash) := by
  refine tame_bind ⟨trivial, fun _ => trivial⟩ fun r => ?_
  split <;> trivial

theorem tame_engineFile (hash : InfoHash) (index : ℕ) : Tame (engineFile hash index) := by
  refine tame_bind (tame_fields _) fun found => ?_
  exact tame_bind (tame_okOr _ _) fun live => tame_bind (tame_okOr _ _) fun file => trivial

theorem tame_startPrefetchLocked (hash : InfoHash) (file : FileIndex) (offset : ℕ) :
    Tame (startPrefetchLocked hash file offset) := by
  refine tame_bind (tame_stopPrefetchLocked _) fun _ => ?_
  refine tame_bind (tame_atomically fun _ => ⟨rfl, rfl⟩) fun id => ?_
  exact tame_bind (tame_act trivial) fun _ => tame_atomically fun _ => ⟨rfl, rfl⟩

/-- What `play` does once the torrent is loaded. -/
theorem tame_open (hash : InfoHash) (index offset : ℕ) (stop prefetchOffset : Option ℕ) :
    Tame (openReader hash index offset stop prefetchOffset) := by
  refine tame_bind (tame_engineFile _ _) fun file => ?_
  refine tame_bind (tame_bind ⟨trivial, fun _ => trivial⟩ fun r => ?_) fun length => ?_
  · split <;> trivial
  · refine tame_bind ⟨trivial, fun _ => trivial⟩ fun r => ?_
    refine tame_bind (Prog.every_ofExcept _) fun pin => ?_
    refine tame_bind ?_ fun _ => tame_bind (tame_act trivial) fun _ => trivial
    cases prefetchOffset with
    | some offset => exact tame_startPrefetchLocked _ _ _
    | none => trivial

theorem tame_withGate {p : M α} (hp : Tame p) : Tame (withGate p) := by
  refine tame_bind (tame_act trivial) fun _ => ?_
  refine tame_bind ((Prog.every_attempt _).mpr hp) fun r => ?_
  exact tame_bind (tame_act trivial) fun _ => Prog.every_ofExcept r

theorem tame_schedulePrefetch (hash : InfoHash) (index offset : ℕ) :
    Tame (schedulePrefetch hash index offset) := by
  refine tame_withGate (tame_bind ((Prog.every_attempt _).mpr (tame_engineFile _ _)) ?_)
  rintro (e | file)
  · trivial
  · exact tame_startPrefetchLocked _ _ _

theorem tame_prefetchPrepare (id : ℕ) (hash : InfoHash) (file : FileIndex) (offset : ℕ) :
    Tame (prefetchPrepare id hash file offset) := by
  refine tame_bind (tame_fields _) fun budget => ?_
  split
  · trivial
  · trivial
  · refine tame_bind ⟨trivial, fun _ => trivial⟩ fun r => ?_
    split
    · trivial
    · split
      · trivial
      · refine tame_bind ⟨trivial, fun _ => trivial⟩ fun r => ?_
        split <;> trivial

theorem tame_scheduleIdleDetach (hash : InfoHash) : Tame (scheduleIdleDetach hash) := by
  refine tame_bind ((Prog.every_attempt _).mpr (tame_ensureUnpinned _ _)) ?_
  rintro (e | _)
  · trivial
  · refine tame_bind (tame_isLoaded _ _) fun loaded => ?_
    split
    · refine tame_bind (tame_stopIdleDetachLocked _) fun _ => ?_
      refine tame_bind (tame_atomically fun _ => ⟨rfl, rfl⟩) fun id => ?_
      exact tame_bind (tame_act trivial) fun _ => tame_atomically fun _ => ⟨rfl, rfl⟩
    · trivial

end Coordinator

namespace Service

variable {ε σ α : Type} {ops : PieceStore ε σ} {o : Activation → Answers ε} {s : Service σ}

theorem agree_act {a : Act} (ha : a.Steady) (h : Agree s) : Agree (act ops o a s).2 := by
  cases a with
  | lock =>
    rw [act_lock]
    split
    · exact h
    · exact h.of_eq rfl rfl
  | call caller c => cases c <;> first | exact ha.elim | exact h.of_eq rfl rfl
  | atomically β f => exact h.of_eq rfl (ha s.world.fields)
  | _ => exact h.of_eq rfl rfl

variable (ops o) in
theorem wp_steady {p : Coordinator.M α} (hp : Coordinator.Steady p) (h : Agree s) :
    Prog.wp (spec ops o Agree) p s fun _ => Agree :=
  Prog.wp_of_every (act ops o) (fun _ _ ha hs => agree_act ha hs) hp h

theorem agree_perform {p : Coordinator.M α}
    (hp : Prog.wp (spec ops o Agree) p s fun _ => Agree) : Agree (perform ops o p s).2 := by
  have h := (Prog.wp_iff_run (act ops o)).mp hp
  unfold perform
  split at h
  · next r s' hs' => rwa [hs']
  · next s' hs' => rwa [hs']

/-! ### Playing and evicting to the cap -/

theorem LoadSlips.of_kept {hash : InfoHash} {s' : Service σ} (hk : Kept s s')
    (h : LoadSlips o hash s') : LoadSlips o hash s := by
  obtain ⟨hl, hm, hrow, metadata, id, ha, hdead, hsame⟩ := h
  rw [hk.isLoaded] at hl
  rw [hk.state] at hrow
  rw [hk.isLive] at hdead
  exact ⟨hl, hm, hrow, metadata, id, ha, hdead, hsame⟩

theorem wp_playWithPrefetch_agree (hash : InfoHash) (index offset : ℕ)
    (stop prefetchOffset : Option ℕ) (h : Agree s)
    (hns : ¬(s.gate = false ∧ LoadSlips o hash s.locked)) :
    Prog.wp (spec ops o Agree)
      (Coordinator.playWithPrefetch hash index offset stop prefetchOffset) s fun _ => Agree := by
  refine wp_withGate_agree h fun hgate => ?_
  have hk := kept_stopIdleDetach hash s.locked
  unfold Coordinator.playLocked
  rw [Prog.wp_bind, wp_stopIdleDetach, followed_ok, Prog.wp_bind]
  refine Prog.wp_mono (spec_monotone ops o Agree) (fun r s' hs' => ?_)
    (wp_load_agree hash (hk.agree (h.of_eq rfl rfl)) fun hslip =>
      hns ⟨hgate, hslip.of_kept hk⟩)
  cases r with
  | error e => exact hs'
  | ok _ => exact wp_steady ops o (Coordinator.tame_open _ _ _ _ _).steady hs'

/-- A candidate's eviction slips during `evict_to_cap`. -/
def CapSlips (ops : PieceStore ε σ) (o : Activation → Answers ε) (s : Service σ) : Prop :=
  s.gate = false ∧ Prog.SomeRound (act ops o)
    (fun hash => Coordinator.logged (Coordinator.evictLocked hash)) (EvictSlips ops o)
    s.world.cache.evictionCandidates s.locked

theorem wp_evictToCap_agree (h : Agree s) (hns : ¬CapSlips ops o s) :
    Prog.wp (spec ops o Agree) Coordinator.evictToCap s fun _ => Agree := by
  refine wp_withGate_agree h fun hgate => ?_
  rw [Prog.wp_bind, wp_call, followed_ok]
  refine Prog.wp_forM_of_not_someRound (act ops o) (fun hash s' hs' hb => ?_)
    (h.of_eq rfl rfl) fun hslip => hns ⟨hgate, hslip⟩
  unfold Coordinator.logged
  rw [Prog.wp_bind, Prog.wp_attempt]
  exact wp_evictLocked_agree hash hs' hb

/-! ### Settings -/

theorem wp_filterLoaded {W : Service σ → Prop} (hashes : List InfoHash)
    (Q : Except Error (List InfoHash) → Service σ → Prop) :
    Prog.wp (spec ops o W) (Coordinator.filterLoaded hashes) s Q =
      Q (.ok (hashes.filter s.isLoaded)) s := by
  induction hashes generalizing Q with
  | nil => rfl
  | cons hash rest ih =>
    unfold Coordinator.filterLoaded
    rw [Prog.wp_bind, wp_call, followed_ok, Prog.wp_bind]
    show Prog.wp _ _ s _ = _
    rw [ih, followed_ok, List.filter_cons]
    rfl

/-- A live torrent is dropped with a slip. -/
def RoundSlips (ops : PieceStore ε σ) (o : Activation → Answers ε) (hash : InfoHash)
    (s : Service σ) : Prop := s.gate = false ∧ DropSlips ops o hash s.locked

/-- The torrents `drop_all_live` goes through, if the catalog can be listed. -/
def dropped (s : Service σ) (saved : List CatalogEntry) : List InfoHash :=
  Coordinator.inTextOrder
    (s.world.fields.live.keys ++ (saved.map CatalogEntry.hash).filter s.isLoaded)

def DropAllSlips (ops : PieceStore ε σ) (o : Activation → Answers ε) (s : Service σ) : Prop :=
  ∃ saved, s.world.state.listTorrents ((o .dropAllLive).fails .listTorrents) = .ok saved ∧
    Prog.SomeRound (act ops o) Coordinator.dropUnlessPinned (RoundSlips ops o) (s.dropped saved) s

theorem wp_dropLive_agree (hash : InfoHash) (h : Agree s) (hns : ¬RoundSlips ops o hash s) :
    Prog.wp (spec ops o Agree) (Coordinator.dropLive hash) s fun _ => Agree := by
  refine wp_withGate_agree h fun hgate => ?_
  exact wp_dropLocked_agree hash (h.of_eq rfl rfl) fun hslip => hns ⟨hgate, hslip⟩

theorem wp_dropUnlessPinned_agree (hash : InfoHash) (h : Agree s)
    (hns : ¬RoundSlips ops o hash s) :
    Prog.wp (spec ops o Agree) (Coordinator.dropUnlessPinned hash) s fun _ => Agree := by
  unfold Coordinator.dropUnlessPinned
  rw [Prog.wp_bind, Prog.wp_attempt]
  refine Prog.wp_mono (spec_monotone ops o Agree) (fun r s' hs' => ?_)
    (wp_dropLive_agree hash h hns)
  rw [followed_ok]
  split <;> exact hs'

theorem wp_dropAllLive_agree (h : Agree s) (hns : ¬DropAllSlips ops o s) :
    Prog.wp (spec ops o Agree) Coordinator.dropAllLive s fun _ => Agree := by
  unfold Coordinator.dropAllLive
  rw [Prog.wp_bind, wp_fields, followed_ok, Prog.wp_bind, wp_call, followed_ok, Prog.wp_bind,
    wp_state]
  simp only [World.answer]
  cases hl : s.world.state.listTorrents ((o .dropAllLive).fails .listTorrents) with
  | error e => exact h
  | ok saved =>
    simp only [Except.mapError, followed_ok]
    rw [Prog.wp_bind, wp_filterLoaded, followed_ok]
    exact Prog.wp_forM_of_not_someRound (act ops o)
      (fun hash s' hs' hb => wp_dropUnlessPinned_agree hash hs' hb) (h.of_eq rfl rfl)
      fun hslip => hns ⟨saved, hl, hslip⟩

/-- The service with new settings in effect. -/
def withSettings (settings : Settings) (s : Service σ) : Service σ :=
  (s.setWorld { s.world with
      state := (s.world.state.setSettings false settings).2
      cache := s.world.cache.setCapBytes settings.cacheCap }).setFields
    { s.world.fields with settings := settings }

def SettingsSlips (ops : PieceStore ε σ) (o : Activation → Answers ε) (settings : Settings)
    (s : Service σ) : Prop :=
  s.world.fields.readOnly = false ∧ (o .setSettings).fails .setSettings = false ∧
    (DropAllSlips ops o (s.withSettings settings.normalized) ∨
      ∃ s', Coordinator.dropAllLive.run (act ops o) (s.withSettings settings.normalized) =
        (some (.ok ()), s') ∧ CapSlips ops o s')

theorem wp_setSettings_agree (settings : Settings) (h : Agree s)
    (hns : ¬SettingsSlips ops o settings s) :
    Prog.wp (spec ops o Agree) (Coordinator.setSettings settings) s fun _ => Agree := by
  unfold Coordinator.setSettings
  rw [Prog.wp_bind, wp_fields, followed_ok]
  split
  · exact h
  · next hro =>
    unfold Coordinator.applySettings
    rw [Prog.wp_bind, wp_call, followed_ok, Prog.wp_bind, wp_state]
    simp only [World.answer, State.setSettings]
    cases hf : (o .setSettings).fails .setSettings with
    | true => exact h
    | false =>
      simp only [Bool.false_eq_true, if_false, Except.mapError, followed_ok]
      rw [Prog.wp_bind, wp_call, followed_ok, Prog.wp_bind, wp_update, followed_ok]
      show Prog.wp _ (Coordinator.dropAllLive >>= fun _ => Coordinator.evictToCap)
        (s.withSettings settings.normalized) _
      have hslips : ¬(DropAllSlips ops o (s.withSettings settings.normalized) ∨ _) :=
        fun hslip => hns ⟨Bool.eq_false_iff.mpr hro, hf, hslip⟩
      rw [not_or] at hslips
      have hdrop := (Prog.wp_iff_run (act ops o)).mp
        (wp_dropAllLive_agree (s := s.withSettings settings.normalized) (h.of_eq rfl rfl) hslips.1)
      refine Prog.wp_bind_run (act ops o) (fun s' hs' => ?_) (fun e s' hs' => ?_) fun _ s' hs' => ?_
      · rwa [hs'] at hdrop
      · rwa [hs'] at hdrop
      · rw [hs'] at hdrop
        exact wp_evictToCap_agree hdrop fun hslip => hslips.2 ⟨s', hs', hslip⟩

/-! ### Operations -/

/-- The service once a prefetch task has given up what it held. -/
def finished (id : ℕ) (hash : InfoHash) (prepared : Option Cache.Pin) (s : Service σ) : Service σ :=
  let s := match prepared with
    | some pin => s.setCache (s.world.cache.dropPin pin)
    | none => s
  s.setFields (if (s.world.fields.prefetches.lookup hash).any fun task => task.id = id then
    { s.world.fields with prefetches := s.world.fields.prefetches.erase hash } else s.world.fields)

/-- An operation slips: one of its calls fails, or answers for another torrent,
after the engine has taken or given up a torrent and before the live map follows. -/
def Slips (ops : PieceStore ε σ) (s : Service σ) : (Activation → Answers ε) × Op → Prop
  | (o, .addSource request source) => s.gate = false ∧ AddSlips o request source s.locked
  | (o, .play hash _ _ _ _) => s.gate = false ∧ LoadSlips o hash s.locked
  | (o, .dropLive hash) => RoundSlips ops o hash s
  | (o, .removeTorrent hash) =>
    s.world.fields.readOnly = false ∧ s.gate = false ∧ RemoveSlips ops o hash s.locked
  | (o, .evict hash) => s.gate = false ∧ EvictSlips ops o hash s.locked
  | (o, .evictToCap) => CapSlips ops o s
  | (o, .release hash) => (Background.release hash, none) ∈ s.tasks ∧
    CapSlips ops o { s with tasks := s.tasks.erase (.release hash, none) }
  | (o, .prefetchFinish id hash file offset prepared) =>
    (Background.prefetch id hash file offset, prepared) ∈ s.tasks ∧
      CapSlips ops o (finished id hash prepared
        { s with tasks := s.tasks.erase (.prefetch id hash file offset, prepared) })
  | (o, .idleDetach id hash) => (Background.idleDetach id hash, none) ∈ s.tasks ∧
    ((s.world.fields.idleDetaches.lookup hash).any fun task => task.id = id) ∧
      RoundSlips ops o hash
        ({ s with tasks := s.tasks.erase (.idleDetach id hash, none) }.unregisterIdle hash)
  | (o, .setSettings settings) => SettingsSlips ops o settings s
  | _ => False

theorem wp_logged_agree {p : Coordinator.M α} (hp : Prog.wp (spec ops o Agree) p s fun _ => Agree) :
    Prog.wp (spec ops o Agree) (Coordinator.logged p) s fun _ => Agree := by
  unfold Coordinator.logged
  rw [Prog.wp_bind, Prog.wp_attempt]
  exact hp

theorem wp_idleDetach_agree (id : ℕ) (hash : InfoHash) (h : Agree s)
    (hns : ((s.world.fields.idleDetaches.lookup hash).any fun task => task.id = id) →
      ¬RoundSlips ops o hash (s.unregisterIdle hash)) :
    Prog.wp (spec ops o Agree) (Coordinator.idleDetach id hash) s fun _ => Agree := by
  unfold Coordinator.idleDetach
  rw [Prog.wp_bind, wp_atomically, followed_ok]
  by_cases hdue : ((s.world.fields.idleDetaches.lookup hash).any fun task => task.id = id) = true
  · simp only [hdue, if_true]
    exact wp_logged_agree (wp_dropLive_agree (s := s.unregisterIdle hash) hash (h.of_eq rfl rfl)
      (hns hdue))
  · simp only [hdue]
    exact h.of_eq rfl rfl

theorem wp_prefetchFinish_agree (id : ℕ) (hash : InfoHash) (prepared : Option Cache.Pin)
    (h : Agree s) (hns : ¬CapSlips ops o (s.finished id hash prepared)) :
    Prog.wp (spec ops o Agree) (Coordinator.prefetchFinish id hash prepared) s fun _ => Agree := by
  unfold Coordinator.prefetchFinish
  have hfinished : Agree (s.finished id hash prepared) := by
    unfold finished
    cases prepared <;> dsimp only <;> split <;> exact h.of_eq rfl rfl
  cases prepared <;> exact wp_logged_agree (wp_evictToCap_agree hfinished hns)

theorem wp_release_agree (hash : InfoHash) (h : Agree s) (hns : ¬CapSlips ops o s) :
    Prog.wp (spec ops o Agree) (Coordinator.release hash) s fun _ => Agree := by
  unfold Coordinator.release
  rw [Prog.wp_bind]
  refine Prog.wp_mono (spec_monotone ops o Agree) (fun r s' hs' => ?_)
    (wp_logged_agree (wp_evictToCap_agree h hns))
  cases r with
  | ok _ => exact wp_steady ops o (Coordinator.tame_scheduleIdleDetach hash).steady hs'
  | error e => exact hs'

theorem wp_removeTorrent_agree (hash : InfoHash) (h : Agree s)
    (hns : ¬(s.world.fields.readOnly = false ∧ s.gate = false ∧ RemoveSlips ops o hash s.locked)) :
    Prog.wp (spec ops o Agree) (Coordinator.removeTorrent hash) s fun _ => Agree := by
  unfold Coordinator.removeTorrent
  rw [Prog.wp_bind, wp_fields, followed_ok]
  split
  · exact h
  · next hro =>
    refine wp_withGate_agree h fun hgate => ?_
    exact wp_removeLocked_agree hash (h.of_eq rfl rfl)
      fun hslip => hns ⟨Bool.eq_false_iff.mpr hro, hgate, hslip⟩

theorem agree_resume {task : Background × Option Cache.Pin} {p : Coordinator.M α} (h : Agree s)
    (hp : task ∈ s.tasks → Prog.wp (spec ops o Agree) p { s with tasks := s.tasks.erase task }
      fun _ => Agree) : Agree (resume ops o task p s).2 := by
  unfold resume
  split
  · next hmem => exact agree_perform (hp hmem)
  · exact h

theorem agree_prepare (id : ℕ) (hash : InfoHash) (file : FileIndex) (offset : ℕ) (h : Agree s) :
    Agree (prepare ops o (.prefetch id hash file offset)
      (Coordinator.prefetchPrepare id hash file offset) s).2 := by
  unfold prepare
  split
  · have hrun := (Prog.wp_iff_run (act ops o)).mp (wp_steady ops o
      (Coordinator.tame_prefetchPrepare id hash file offset).steady
      (s := { s with tasks := s.tasks.erase (.prefetch id hash file offset, none) })
      (h.of_eq rfl rfl))
    split
    · next pin s' hs' =>
      rw [hs'] at hrun
      exact Agree.of_eq hrun rfl rfl
    · next e s' hs' => rwa [hs'] at hrun
    · next s' hs' => rwa [hs'] at hrun
  · exact h

/-- An operation that does not slip keeps the agreement. -/
theorem agree_step (h : Agree s) (op : (Activation → Answers ε) × Op) (hns : ¬Slips ops s op) :
    Agree (step ops s op).2 := by
  obtain ⟨o, op⟩ := op
  cases op with
  | addSource request source => exact agree_perform (wp_addSource_agree request source h hns)
  | play hash index offset stop prefetchOffset =>
    exact agree_perform (wp_playWithPrefetch_agree hash index offset stop prefetchOffset h hns)
  | dropReader reader =>
    show Agree (s.dropReader reader)
    unfold dropReader
    split
    · exact h.of_eq rfl rfl
    · exact h
  | release hash =>
    exact agree_resume h fun hmem => wp_release_agree hash (h.of_eq rfl rfl)
      fun hslip => hns ⟨hmem, hslip⟩
  | schedulePrefetch hash index offset =>
    exact agree_perform (wp_steady ops _ (Coordinator.tame_schedulePrefetch hash index offset).steady h)
  | prefetchPrepare id hash file offset => exact agree_prepare id hash file offset h
  | prefetchFinish id hash file offset prepared =>
    exact agree_resume h fun hmem => wp_prefetchFinish_agree id hash prepared (h.of_eq rfl rfl)
      fun hslip => hns ⟨hmem, hslip⟩
  | idleDetach id hash =>
    exact agree_resume h fun hmem => wp_idleDetach_agree id hash (h.of_eq rfl rfl)
      fun hdue hslip => hns ⟨hmem, hdue, hslip⟩
  | dropLive hash => exact agree_perform (wp_dropLive_agree hash h hns)
  | removeTorrent hash => exact agree_perform (wp_removeTorrent_agree hash h hns)
  | evict hash =>
    refine agree_perform (wp_withGate_agree h fun hgate => ?_)
    exact wp_evictLocked_agree hash (h.of_eq rfl rfl) fun hslip => hns ⟨hgate, hslip⟩
  | evictToCap => exact agree_perform (wp_evictToCap_agree h hns)
  | setSettings settings => exact agree_perform (wp_setSettings_agree settings h hns)
  | traffic hash t => cases t <;> exact h.of_eq rfl rfl

/-- In a run from a fresh coordinator in which no operation slips, the engine and
the live map agree after every operation. -/
theorem agree_of_no_slip (ops : PieceStore ε σ) (fails : Bool × Bool) (store : σ) (capBytes : ℕ)
    (state : State Settings) (readOnly : Bool) (history : List ((Activation → Answers ε) × Op)) :
    let start := new (TorrentCoordinator.new fails store capBytes state readOnly)
    (∀ k op, history[k]? = some op →
      ¬Slips ops (Mealy.after (step ops) start (history.take k)) op) →
    ∀ k, Agree (Mealy.after (step ops) start (history.take k)) := by
  intro start hgood
  exact Mealy.forall_after_of_not_bad (step ops) (P := Agree) (B := Slips ops)
    (fun _ op h hns => agree_step h op hns) (fun _ => rfl) hgood

/-- A torrent is opened, added without being saved, and dropped. -/
def unsavedHistory : List ((Activation → Answers Unit) × Op) :=
  [(calm, .traffic savedTorrent (.openTorrent savedLayout)),
    (calm, .addSource ⟨"", "", "", "", false⟩ (.magnet "")),
    (calm, .dropLive savedTorrent)]

theorem agree_of_no_slip_unsavedHistory :
    ∀ k, Agree (Mealy.after (step MemoryStore.pieceStore) smallService (unsavedHistory.take k)) := by
  refine agree_of_no_slip MemoryStore.pieceStore (false, false) MemoryStore.new 1 State.empty false
    unsavedHistory fun k op hop => ?_
  match k, hop with
  | 0, rfl => exact id
  | 1, rfl =>
    rintro ⟨-, -, -, metadata, id, -, -, hfails | hsave⟩
    · cases hfails
    · cases hsave.1
  | 2, rfl =>
    rintro ⟨-, -, -, -, -, -, e, he, -⟩
    have hok : (Cache.remove MemoryStore.pieceStore () savedTorrent
        ((Mealy.after (step MemoryStore.pieceStore) smallService
          (unsavedHistory.take 2)).locked.stopped savedTorrent).world.cache).1 = .ok 0 := rfl
    cases hok.symm.trans he
  | k + 3, hop => cases hop

/-- In the second operation the database fails to remove the row. -/
def failedRemoval : List ((Activation → Answers Unit) × Op) :=
  [(calm, .addSource ⟨"", "", "", "", true⟩ (.magnet "")),
    (fun a => { calm a with fails := fun q => q = .removeTorrent }, .removeTorrent savedTorrent)]

/-- The engine has given the torrent up, the live map has not, and adding it again
is answered from the live map. -/
theorem failedRemoval_disagrees :
    let s := Mealy.after (step MemoryStore.pieceStore) smallService failedRemoval
    let again := step MemoryStore.pieceStore s (calm, .addSource ⟨"", "", "", "", true⟩ (.magnet ""))
    s.gate = false ∧ s.isLoaded savedTorrent = false ∧ s.isLive savedTorrent = true ∧ ¬Agree s ∧
      again.1 = some (.ok ()) ∧ again.2.isLoaded savedTorrent = false := by
  intro s again
  have hloaded : s.isLoaded savedTorrent = false := by decide
  have hlive : s.isLive savedTorrent = true := by decide
  refine ⟨by decide, hloaded, hlive, fun h => ?_, rfl, by decide⟩
  rw [h savedTorrent, hlive] at hloaded
  cases hloaded

end Service

end Rustorr
