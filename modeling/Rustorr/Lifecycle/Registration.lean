import Rustorr.Lifecycle.Service
import Rustorr.Cache.Tally

/-! The task a torrent is registered with is a task of that torrent, and a task
that reads ahead pins its own torrent. -/

namespace Rustorr

open Prog

def Background.hash : Background → InfoHash
  | .prefetch _ hash _ _ | .idleDetach _ hash | .release hash => hash

structure TorrentCoordinator.Registered (t : TorrentCoordinator) : Prop where
  prefetches : ∀ hash task, t.prefetches.lookup hash = some task → task.handle.hash = hash
  idleDetaches : ∀ hash task, t.idleDetaches.lookup hash = some task → task.handle.hash = hash

/-- An act that leaves the registered tasks with their torrents. -/
def Act.Registers : Act → Prop
  | .atomically _ f => ∀ t, t.Registered → (f t).2.Registered
  | _ => True

theorem registered_insert {m : AList fun _ : InfoHash => PrefetchTask} {hash : InfoHash}
    {task : PrefetchTask} (htask : task.handle.hash = hash)
    (hm : ∀ h t, m.lookup h = some t → t.handle.hash = h) :
    ∀ h t, (m.insert hash task).lookup h = some t → t.handle.hash = h := by
  intro h t ht
  by_cases hh : h = hash
  · subst hh
    rw [AList.lookup_insert] at ht
    cases ht
    exact htask
  · rw [AList.lookup_insert_ne hh] at ht
    exact hm h t ht

theorem registered_erase {m : AList fun _ : InfoHash => PrefetchTask} {hash : InfoHash}
    (hm : ∀ h t, m.lookup h = some t → t.handle.hash = h) :
    ∀ h t, (m.erase hash).lookup h = some t → t.handle.hash = h := by
  intro h t ht
  by_cases hh : h = hash
  · subst hh
    rw [AList.lookup_erase] at ht
    cases ht
  · rw [AList.lookup_erase_ne hh] at ht
    exact hm h t ht

namespace Coordinator

variable {α β : Type}

/-- A program whose every act leaves the registered tasks with their torrents. -/
def Registers (p : M α) : Prop := Every Act.Registers p

theorem registers_bind {p : M α} {f : α → M β} (hp : Registers p) (hf : ∀ a, Registers (f a)) :
    Registers (p >>= f) := every_bind hp hf

@[simp] theorem registers_pure (a : α) : Registers (pure a : M α) := trivial

@[simp] theorem registers_fail (e : Lifecycle.Error) : Registers (fail e : M α) := trivial

@[simp] theorem registers_call (caller : Activation) (c : Call) : Registers (call caller c) :=
  ⟨trivial, fun _ => trivial⟩

@[simp] theorem registers_cancel (task : Background) : Registers (act (.cancel task)) :=
  ⟨trivial, fun _ => trivial⟩

@[simp] theorem registers_spawn (task : Background) : Registers (act (.spawn task)) :=
  ⟨trivial, fun _ => trivial⟩

theorem registers_atomically {f : TorrentCoordinator → β × TorrentCoordinator}
    (hf : ∀ t, t.Registered → (f t).2.Registered) : Registers (atomically f) :=
  ⟨hf, fun _ => trivial⟩

@[simp] theorem registers_fields (f : TorrentCoordinator → β) : Registers (fields f) :=
  registers_atomically fun _ h => h

@[simp] theorem registers_engine (r : Except Engine.Error α) : Registers (engine r) :=
  every_ofExcept _

@[simp] theorem registers_state (r : Except State.Error α) : Registers (state r) :=
  every_ofExcept _

@[simp] theorem registers_cache (r : Except Cache.Error α) : Registers (cache r) :=
  every_ofExcept _

@[simp] theorem registers_okOr (e : Lifecycle.Error) (a : Option α) : Registers (okOr e a) := by
  cases a <;> trivial

theorem registers_attempt {p : M α} (hp : Registers p) : Registers p.attempt :=
  (every_attempt p).mpr hp

theorem registers_withGate {p : M α} (hp : Registers p) : Registers (withGate p) := by
  refine registers_bind ⟨trivial, fun _ => trivial⟩ fun _ => ?_
  refine registers_bind (registers_attempt hp) fun r => ?_
  exact registers_bind ⟨trivial, fun _ => trivial⟩ fun _ => every_ofExcept r

theorem registers_logged {p : M α} (hp : Registers p) : Registers (logged p) :=
  registers_bind (registers_attempt hp) fun _ => registers_pure _

@[simp] theorem registers_keepPeers (hash : InfoHash) (livePeers : List SocketAddr) :
    Registers (keepPeers hash livePeers) := by
  refine registers_atomically fun t h => ?_
  dsimp only
  split
  · exact h
  · exact ⟨h.1, h.2⟩

@[simp] theorem registers_forgetLive (hash : InfoHash) : Registers (forgetLive hash) :=
  registers_atomically fun _ h => ⟨h.1, h.2⟩

@[simp] theorem registers_forgetPeers (hash : InfoHash) : Registers (forgetPeers hash) :=
  registers_atomically fun _ h => ⟨h.1, h.2⟩

@[simp] theorem registers_insertLive (hash : InfoHash) (live : LiveTorrent) :
    Registers (insertLive hash live) := registers_atomically fun _ h => ⟨h.1, h.2⟩

@[simp] theorem registers_peersOf (hash : InfoHash) : Registers (peersOf hash) :=
  registers_fields _

@[simp] theorem registers_persist (caller : Activation) (live : LiveTorrent) :
    Registers (persist caller live) := by
  refine registers_bind (registers_fields _) fun readOnly => ?_
  split
  · exact registers_pure _
  · exact registers_bind (registers_call _ _) fun _ => registers_state _

@[simp] theorem registers_stopPrefetchLocked (hash : InfoHash) :
    Registers (stopPrefetchLocked hash) := by
  refine registers_bind (registers_atomically fun t h => ⟨registered_erase h.1, h.2⟩) ?_
  rintro (_ | task)
  · exact registers_pure _
  · exact registers_cancel _

@[simp] theorem registers_stopIdleDetachLocked (hash : InfoHash) :
    Registers (stopIdleDetachLocked hash) := by
  refine registers_bind (registers_atomically fun t h => ⟨h.1, registered_erase h.2⟩) ?_
  rintro (_ | task)
  · exact registers_pure _
  · exact registers_cancel _

@[simp] theorem registers_ensureUnpinned (caller : Activation) (hash : InfoHash) :
    Registers (ensureUnpinned caller hash) := by
  refine registers_bind (registers_call _ _) fun r => ?_
  split <;> trivial

@[simp] theorem registers_engineDelete (caller : Activation) (hash : InfoHash) :
    Registers (engineDelete caller hash) := by
  refine registers_bind (registers_call _ _) fun r => ?_
  split
  · trivial
  · exact registers_bind (registers_call _ _) fun _ => registers_pure _

@[simp] theorem registers_removeCache (caller : Activation) (hash : InfoHash) :
    Registers (removeCache caller hash) := by
  refine registers_bind (registers_call _ _) fun r => ?_
  split <;> trivial

/-! ### Adding and loading -/

@[simp] theorem registers_addLive (request : AddTorrent) (hash : InfoHash) (live : LiveTorrent) :
    Registers (addLive request hash live) := by
  unfold addLive
  split
  · refine registers_bind (registers_call _ _) fun r => registers_bind (registers_state _) fun e => ?_
    split
    · exact registers_bind (registers_persist _ _) fun _ => ⟨trivial, fun x => nomatch x⟩
    · exact registers_pure _
  · exact registers_pure _

@[simp] theorem registers_savedSource (source : TorrentSource) (hash : Option InfoHash) :
    Registers (savedSource source hash) := by
  unfold savedSource
  split
  · exact registers_pure _
  · split
    · exact registers_pure _
    · refine registers_bind (registers_call _ _) fun r => registers_bind (registers_state _) ?_
      rintro (_ | metainfo) <;> exact registers_pure _

@[simp] theorem registers_storedOf (request : AddTorrent) (live : LiveTorrent) :
    Registers (storedOf request live) := by
  unfold storedOf
  split
  · exact registers_bind (registers_persist _ _) fun _ => registers_pure _
  · exact registers_pure _

theorem registers_addNew (request : AddTorrent) (source : TorrentSource) (hash : Option InfoHash) :
    Registers (addNew request source hash) := by
  refine registers_bind (registers_savedSource _ _) fun source => ?_
  refine registers_bind (registers_fields _) fun peers => ?_
  refine registers_bind (registers_call _ _) fun trackers => ?_
  refine registers_bind (registers_call _ _) fun added => ?_
  refine registers_bind (registers_engine _) fun metadata => ?_
  refine registers_bind (registers_forgetPeers _) fun _ => ?_
  refine registers_bind (registers_call _ _) fun found => ?_
  refine registers_bind (registers_state _) fun existing => ?_
  refine registers_bind (registers_call _ _) fun now => ?_
  refine registers_bind (registers_storedOf _ _) fun stored => ?_
  exact registers_bind (registers_insertLive _ _) fun _ => registers_pure _

theorem registers_addSource (request : AddTorrent) (source : TorrentSource) :
    Registers (addSource request source) := by
  refine registers_withGate (registers_bind (registers_call _ _) fun hash => ?_)
  refine registers_bind (registers_fields _) ?_
  rintro (_ | ⟨hash, live⟩)
  · exact registers_addNew _ _ _
  · exact registers_addLive _ _ _

@[simp] theorem registers_revive (hash : InfoHash) (metadata : TorrentMetadata) :
    Registers (revive hash metadata) := by
  refine registers_bind (registers_fields _) fun known => ?_
  split
  · exact registers_pure _
  · refine registers_bind (registers_call _ _) fun r => registers_bind (registers_state _) fun e => ?_
    exact registers_bind (registers_okOr _ _) fun _ => registers_insertLive _ _

@[simp] theorem registers_load (hash : InfoHash) : Registers (load hash) := by
  refine registers_bind (registers_call _ _) fun loaded => ?_
  split
  · exact registers_pure _
  · refine registers_bind (registers_call _ _) fun r => registers_bind (registers_state _) fun m => ?_
    refine registers_bind (registers_okOr _ _) fun metainfo => ?_
    refine registers_bind (registers_peersOf _) fun peers => ?_
    refine registers_bind (registers_call _ _) fun trackers => ?_
    refine registers_bind (registers_call _ _) fun added => ?_
    refine registers_bind (registers_engine _) fun metadata => ?_
    split
    · exact registers_fail _
    · exact registers_bind (registers_revive _ _) fun _ => registers_forgetPeers _

/-! ### Releasing -/

theorem registers_dropLive (hash : InfoHash) : Registers (dropLive hash) := by
  refine registers_withGate (registers_bind (registers_stopIdleDetachLocked _) fun _ => ?_)
  refine registers_bind (registers_call _ _) fun r => registers_bind (registers_state _) fun e => ?_
  refine registers_bind (registers_stopPrefetchLocked _) fun _ => ?_
  refine registers_bind (registers_ensureUnpinned _ _) fun _ => ?_
  refine registers_bind (registers_bind (registers_call _ _) fun loaded => ?_) fun _ => ?_
  · split
    · refine registers_bind (registers_engineDelete _ _) fun deleted => ?_
      exact registers_bind (registers_engine _) fun _ => registers_keepPeers _ _
    · exact registers_pure _
  · refine registers_bind (registers_bind (registers_fields _) fun drop => ?_) fun _ => ?_
    · split
      · exact registers_removeCache _ _
      · exact registers_pure _
    · exact registers_bind (registers_forgetLive _) fun _ => registers_pure _

theorem registers_removeTorrent (hash : InfoHash) : Registers (removeTorrent hash) := by
  refine registers_bind (registers_fields _) fun readOnly => ?_
  split
  · exact registers_pure _
  refine registers_withGate (registers_bind (registers_stopIdleDetachLocked _) fun _ => ?_)
  refine registers_bind (registers_bind (registers_call _ _) fun loaded => ?_) fun _ => ?_
  · split
    · exact registers_pure _
    · refine registers_bind (registers_call _ _) fun r => registers_bind (registers_state _) ?_
      rintro (_ | entry)
      · exact registers_pure _
      · exact registers_load _
  · unfold removeAttached
    refine registers_bind (registers_stopPrefetchLocked _) fun _ => ?_
    refine registers_bind (registers_ensureUnpinned _ _) fun _ => ?_
    refine registers_bind (registers_bind (registers_engineDelete _ _) fun r => ?_) fun _ => ?_
    · split <;> trivial
    · unfold forgetTorrent
      refine registers_bind (registers_removeCache _ _) fun _ => ?_
      refine registers_bind (registers_call _ _) fun r => registers_bind (registers_state _) fun b => ?_
      refine registers_bind (registers_forgetLive _) fun _ => ?_
      exact registers_bind (registers_forgetPeers _) fun _ => registers_pure _

theorem registers_evictLocked (hash : InfoHash) : Registers (evictLocked hash) := by
  refine registers_bind (registers_stopIdleDetachLocked _) fun _ => ?_
  refine registers_bind (registers_stopPrefetchLocked _) fun _ => ?_
  refine registers_bind (registers_ensureUnpinned _ _) fun _ => ?_
  refine registers_bind (registers_engineDelete _ _) fun deleted => ?_
  refine registers_bind (registers_engine _) fun livePeers => ?_
  refine registers_bind (registers_keepPeers _ _) fun _ => ?_
  refine registers_bind (registers_call _ _) fun r => registers_bind (registers_cache _) fun freed => ?_
  exact registers_bind (registers_forgetLive _) fun _ => registers_pure _

theorem registers_evictToCap : Registers evictToCap :=
  registers_withGate (registers_bind (registers_call _ _) fun candidates =>
    every_forM (fun hash => registers_logged (registers_evictLocked hash)) candidates)

/-! ### Playing, idle torrents and settings -/

@[simp] theorem registers_engineFile (hash : InfoHash) (index : ℕ) :
    Registers (engineFile hash index) := by
  refine registers_bind (registers_fields _) fun found => ?_
  refine registers_bind (registers_okOr _ _) fun live => ?_
  exact registers_bind (registers_okOr _ _) fun file => registers_pure _

/-- The task that is registered is one of the torrent it is registered for. -/
@[simp] theorem registers_startPrefetchLocked (hash : InfoHash) (file : FileIndex) (offset : ℕ) :
    Registers (startPrefetchLocked hash file offset) := by
  refine registers_bind (registers_stopPrefetchLocked _) fun _ => ?_
  refine registers_bind (registers_atomically fun t h => ⟨h.1, h.2⟩) fun id => ?_
  refine registers_bind (registers_spawn _) fun _ => ?_
  exact registers_atomically fun t h => ⟨registered_insert rfl h.1, h.2⟩

theorem registers_playWithPrefetch (hash : InfoHash) (index offset : ℕ)
    (stop prefetchOffset : Option ℕ) :
    Registers (playWithPrefetch hash index offset stop prefetchOffset) := by
  refine registers_withGate (registers_bind (registers_stopIdleDetachLocked _) fun _ => ?_)
  refine registers_bind (registers_load _) fun _ => ?_
  unfold openReader
  refine registers_bind (registers_engineFile _ _) fun file => ?_
  refine registers_bind (registers_bind (registers_call _ _) fun r => ?_) fun length => ?_
  · split <;> trivial
  · refine registers_bind (registers_call _ _) fun r => registers_bind (registers_cache _) fun pin => ?_
    refine registers_bind ?_ fun _ => ⟨trivial, fun _ => registers_pure _⟩
    cases prefetchOffset with
    | some offset => exact registers_startPrefetchLocked _ _ _
    | none => exact registers_pure _

theorem registers_schedulePrefetch (hash : InfoHash) (index offset : ℕ) :
    Registers (schedulePrefetch hash index offset) := by
  refine registers_withGate (registers_bind (registers_attempt (registers_engineFile _ _)) ?_)
  rintro (e | file)
  · exact registers_pure _
  · exact registers_startPrefetchLocked _ _ _

theorem registers_prefetchPrepare (id : ℕ) (hash : InfoHash) (file : FileIndex) (offset : ℕ) :
    Registers (prefetchPrepare id hash file offset) := by
  refine registers_bind (registers_fields _) fun budget => ?_
  split
  · exact registers_pure _
  · exact registers_pure _
  · refine registers_bind (registers_call _ _) fun r => ?_
    split
    · exact registers_pure _
    · split
      · exact registers_pure _
      · refine registers_bind (registers_call _ _) fun r => ?_
        split <;> trivial

theorem registers_prefetchFinish (id : ℕ) (hash : InfoHash) (prepared : Option Cache.Pin) :
    Registers (prefetchFinish id hash prepared) := by
  refine registers_bind ?_ fun _ => registers_bind (registers_atomically fun t h => ?_) fun _ =>
    registers_logged registers_evictToCap
  · cases prepared with
    | some pin => exact registers_call _ _
    | none => exact registers_pure _
  · dsimp only
    split
    · exact ⟨registered_erase h.1, h.2⟩
    · exact h

theorem registers_scheduleIdleDetach (hash : InfoHash) : Registers (scheduleIdleDetach hash) := by
  refine registers_bind (registers_attempt (registers_ensureUnpinned _ _)) ?_
  rintro (e | _)
  · exact registers_pure _
  · refine registers_bind (registers_call _ _) fun loaded => ?_
    split
    · refine registers_bind (registers_stopIdleDetachLocked _) fun _ => ?_
      refine registers_bind (registers_atomically fun t h => ⟨h.1, h.2⟩) fun id => ?_
      refine registers_bind (registers_spawn _) fun _ => ?_
      exact registers_atomically fun t h => ⟨h.1, registered_insert rfl h.2⟩
    · exact registers_pure _

theorem registers_idleDetach (id : ℕ) (hash : InfoHash) : Registers (idleDetach id hash) := by
  refine registers_bind (registers_atomically fun t h => ?_) fun due => ?_
  · split
    · exact ⟨h.1, registered_erase h.2⟩
    · exact h
  · split
    · exact registers_logged (registers_dropLive _)
    · exact registers_pure _

theorem registers_release (hash : InfoHash) : Registers (release hash) :=
  registers_bind (registers_logged registers_evictToCap) fun _ => registers_scheduleIdleDetach _

theorem registers_filterLoaded (hashes : List InfoHash) : Registers (filterLoaded hashes) := by
  induction hashes with
  | nil => exact registers_pure _
  | cons hash rest ih =>
    exact registers_bind (registers_call _ _) fun _ => registers_bind ih fun _ => registers_pure _

theorem registers_dropUnlessPinned (hash : InfoHash) : Registers (dropUnlessPinned hash) := by
  refine registers_bind (registers_attempt (registers_dropLive _)) fun r => ?_
  split <;> trivial

theorem registers_dropAllLive : Registers dropAllLive := by
  refine registers_bind (registers_fields _) fun live => ?_
  refine registers_bind (registers_call _ _) fun r => registers_bind (registers_state _) fun saved => ?_
  refine registers_bind (registers_filterLoaded _) fun loaded => ?_
  exact every_forM registers_dropUnlessPinned _

theorem registers_setSettings (settings : Settings) : Registers (setSettings settings) := by
  refine registers_bind (registers_fields _) fun readOnly => ?_
  split
  · exact registers_pure _
  · refine registers_bind (registers_call _ _) fun r => registers_bind (registers_state _) fun _ => ?_
    refine registers_bind (registers_call _ _) fun _ => ?_
    refine registers_bind (registers_atomically fun t h => ⟨h.1, h.2⟩) fun _ => ?_
    exact registers_bind registers_dropAllLive fun _ => registers_evictToCap

end Coordinator

/-! ### Runs of a service -/

variable {ε σ α : Type} (ops : PieceStore ε σ) (o : Activation → Answers ε)

@[simp] theorem World.answer_fields (a : Answers ε) (c : Call) (w : World σ) :
    (w.answer ops a c).2.fields = w.fields := by
  cases c <;> try rfl
  case add =>
    show (w.add a).2.fields = w.fields
    unfold World.add
    split <;> rfl
  case forget hash id =>
    show (w.forget hash id).fields = w.fields
    unfold World.forget
    split <;> rfl

@[simp] theorem World.traffic_fields (env : ε) (hash : InfoHash) (t : World.Traffic)
    (w : World σ) : (w.traffic ops env hash t).fields = w.fields := by
  cases t <;> rfl

namespace Service

structure Registered (s : Service σ) : Prop where
  fields : s.world.fields.Registered
  pins : ∀ task pin, (task, some pin) ∈ s.tasks → pin.torrent = task.hash

theorem Registered.of_tasks {s s' : Service σ} (h : Registered s)
    (hfields : s'.world.fields = s.world.fields)
    (htasks : ∀ t ∈ s'.tasks, t ∈ s.tasks ∨ t.2 = none) : Registered s' := by
  refine ⟨hfields ▸ h.fields, fun task pin hmem => ?_⟩
  rcases htasks _ hmem with hold | hnone
  · exact h.pins task pin hold
  · cases hnone

theorem registered_act {a : Act} {s : Service σ} (ha : a.Registers) (h : Registered s) :
    Registered (act ops o a s).2 := by
  cases a with
  | lock =>
    show Registered (if s.gate then (none, s) else (some (), { s with gate := true })).2
    split
    · exact h
    · exact h.of_tasks rfl fun _ => Or.inl
  | unlock => exact h.of_tasks rfl fun _ => Or.inl
  | call caller c =>
    exact h.of_tasks (World.answer_fields ops (o caller) c s.world) fun _ => Or.inl
  | atomically β f => exact ⟨ha _ h.fields, h.pins⟩
  | spawn task =>
    refine h.of_tasks rfl fun t ht => ?_
    rcases List.mem_append.mp ht with hold | hnew
    · exact Or.inl hold
    · exact Or.inr (List.mem_singleton.mp hnew ▸ rfl)
  | cancel task => exact h.of_tasks rfl fun t ht => Or.inl (List.mem_of_mem_filter ht)
  | handOver reader => exact h.of_tasks rfl fun _ => Or.inl
  | waitForever => exact h

theorem registered_run {p : Coordinator.M α} (hp : Coordinator.Registers p) {s : Service σ}
    (h : Registered s) : Registered (p.run (act ops o) s).2 :=
  Prog.run_invariant (act ops o) (fun _ _ ha hs => registered_act ops o ha hs) hp h

theorem registered_resume {p : Coordinator.M α} (hp : Coordinator.Registers p)
    (task : Background × Option Cache.Pin) {s : Service σ} (h : Registered s) :
    Registered (resume ops o task p s).2 := by
  unfold resume
  split
  · exact registered_run ops o hp (h.of_tasks rfl fun t ht => Or.inl (List.mem_of_mem_erase ht))
  · exact h

/-- The pin a task prepares is one of its torrent. -/
theorem wp_prefetchPrepare (id : ℕ) (hash : InfoHash) (file : FileIndex) (offset : ℕ)
    (s : Service σ) :
    Prog.wp (spec ops o fun _ => True) (Coordinator.prefetchPrepare id hash file offset) s
      fun r _ => ∀ pin, r = .ok (some pin) → pin.torrent = hash := by
  unfold Coordinator.prefetchPrepare Coordinator.prefetchPin
  simp only [wp_bind, wp_fields, followed_ok]
  split
  · rintro pin ⟨⟩
  · rintro pin ⟨⟩
  · simp only [wp_bind, wp_call, followed_ok]
    split
    · rintro pin ⟨⟩
    · split
      · rintro pin ⟨⟩
      · simp only [wp_bind, wp_call, followed_ok]
        split
        · next pin hpin =>
          rintro pin' ⟨⟩
          exact Cache.pinInner_torrent hpin
        · rintro pin ⟨⟩

theorem registered_prepare (id : ℕ) (hash : InfoHash) (file : FileIndex) (offset : ℕ)
    {s : Service σ} (h : Registered s) :
    Registered (prepare ops o (.prefetch id hash file offset)
      (Coordinator.prefetchPrepare id hash file offset) s).2 := by
  unfold prepare
  split
  · have herased : Registered { s with tasks := s.tasks.erase (.prefetch id hash file offset, none) } :=
      h.of_tasks rfl fun t ht => Or.inl (List.mem_of_mem_erase ht)
    have hrun := registered_run ops o (Coordinator.registers_prefetchPrepare id hash file offset)
      herased
    have hpin := (wp_iff_run _).mp (wp_prefetchPrepare ops o id hash file offset
      { s with tasks := s.tasks.erase (.prefetch id hash file offset, none) })
    split
    · next pin s' hs' =>
      rw [hs'] at hrun hpin
      refine ⟨hrun.fields, fun task p hmem => ?_⟩
      rcases List.mem_append.mp hmem with hold | hnew
      · exact hrun.pins task p hold
      · obtain ⟨rfl, rfl⟩ := Prod.mk.inj (List.mem_singleton.mp hnew)
        exact hpin p rfl
    · next e s' hs' =>
      rw [hs'] at hrun
      exact hrun
    · next s' hs' =>
      rw [hs'] at hrun
      exact hrun
  · exact h

/-- Every operation keeps the registered tasks and the pins with their torrents. -/
theorem registered_step {s : Service σ} (h : Registered s)
    (op : (Activation → Answers ε) × Op) : Registered (step ops s op).2 := by
  obtain ⟨o, op⟩ := op
  cases op with
  | addSource request source =>
    exact registered_run ops o (Coordinator.registers_addSource request source) h
  | play hash index offset stop prefetchOffset =>
    exact registered_run ops o (Coordinator.registers_playWithPrefetch _ _ _ _ _) h
  | dropReader reader =>
    show Registered (s.dropReader reader)
    unfold dropReader
    split
    · refine h.of_tasks rfl fun t ht => ?_
      rcases List.mem_append.mp ht with hold | hnew
      · exact Or.inl hold
      · exact Or.inr (List.mem_singleton.mp hnew ▸ rfl)
    · exact h
  | release hash => exact registered_resume ops o (Coordinator.registers_release hash) _ h
  | schedulePrefetch hash index offset =>
    exact registered_run ops o (Coordinator.registers_schedulePrefetch hash index offset) h
  | prefetchPrepare id hash file offset => exact registered_prepare ops o id hash file offset h
  | prefetchFinish id hash file offset prepared =>
    exact registered_resume ops o (Coordinator.registers_prefetchFinish id hash prepared) _ h
  | idleDetach id hash =>
    exact registered_resume ops o (Coordinator.registers_idleDetach id hash) _ h
  | dropLive hash => exact registered_run ops o (Coordinator.registers_dropLive hash) h
  | removeTorrent hash => exact registered_run ops o (Coordinator.registers_removeTorrent hash) h
  | evict hash =>
    exact registered_run ops o (Coordinator.registers_withGate (Coordinator.registers_evictLocked hash)) h
  | evictToCap => exact registered_run ops o Coordinator.registers_evictToCap h
  | setSettings settings =>
    exact registered_run ops o (Coordinator.registers_setSettings settings) h
  | traffic hash t =>
    exact h.of_tasks (World.traffic_fields ops (o .engine).store hash t s.world) fun _ => Or.inl

theorem registered_new (fails : Bool × Bool) (store : σ) (capBytes : ℕ) (state : State Settings)
    (readOnly : Bool) : Registered (new (TorrentCoordinator.new fails store capBytes state readOnly)) := by
  refine ⟨⟨fun hash task ht => ?_, fun hash task ht => ?_⟩, fun task pin ht => ?_⟩ <;> cases ht

end Service

end Rustorr
