import Rustorr.Cache.Memory
import Rustorr.Lifecycle.Pool
import Rustorr.Lifecycle.Registration

/-! Read-only mode: every way to the database is behind a check of the flag, so no
command changes a document, in whatever order and company it runs. -/

namespace Rustorr

open Lifecycle (Error)

/-- The calls that leave the database as it is. -/
def Call.Reads : Call → Prop
  | .saveTorrent _ _ | .removeTorrent _ | .setSettings _ | .setViewed _ | .removeViewed _ _
  | .setWafLists _ => False
  | _ => True

/-- What each act asks of a task of a read-only coordinator. -/
def readOnlySpec : Prog.Spec Act Act.Ans Unit
  | .call _ c, _, Q => c.Reads ∧ ∀ x, Q x ()
  | .atomically _ f, _, Q => ∀ t, t.readOnly = true → (f t).2.readOnly = true ∧ Q (f t).1 ()
  | .lock, _, Q | .unlock, _, Q | .spawn _, _, Q | .cancel _, _, Q | .handOver _, _, Q => Q () ()
  | .waitForever, _, _ => True

theorem readOnlySpec_monotone : Prog.Spec.Monotone readOnlySpec := by
  intro a s Q Q' hQ h
  cases a with
  | call caller c => exact ⟨h.1, fun x => hQ _ _ (h.2 x)⟩
  | atomically β f => exact fun t ht => ⟨(h t ht).1, hQ _ _ (h t ht).2⟩
  | waitForever => trivial
  | _ => exact hQ _ _ h

namespace Coordinator

variable {α β : Type}

/-- A program that writes nothing while the coordinator is read-only. -/
def ReadsOnly (p : M α) : Prop := Prog.wp readOnlySpec p () fun _ _ => True

theorem ReadsOnly.bind {p : M α} {f : α → M β} (hp : ReadsOnly p) (hf : ∀ a, ReadsOnly (f a)) :
    ReadsOnly (p >>= f) := by
  unfold ReadsOnly
  rw [Prog.wp_bind]
  refine Prog.wp_mono readOnlySpec_monotone (fun r s _ => ?_) hp
  cases r with
  | ok a => exact hf a
  | error e => trivial

theorem readsOnly_pure (a : α) : ReadsOnly (pure a : M α) := trivial

theorem readsOnly_fail (e : Error) : ReadsOnly (Prog.fail e : M α) := trivial

theorem readsOnly_call {caller : Activation} {c : Call} (hc : c.Reads) :
    ReadsOnly (call caller c) := ⟨hc, fun _ => trivial⟩

theorem readsOnly_atomically {f : TorrentCoordinator → β × TorrentCoordinator}
    (hf : ∀ t, (f t).2.readOnly = t.readOnly) : ReadsOnly (atomically f) :=
  fun t ht => ⟨(hf t).trans ht, trivial⟩

theorem readsOnly_fields (f : TorrentCoordinator → β) : ReadsOnly (fields f) :=
  readsOnly_atomically fun _ => rfl

theorem readsOnly_update {f : TorrentCoordinator → TorrentCoordinator}
    (hf : ∀ t, (f t).readOnly = t.readOnly) : ReadsOnly (update f) :=
  readsOnly_atomically hf

theorem readsOnly_ofExcept (r : Except Error α) : ReadsOnly (Prog.ofExcept r : M α) := by
  cases r <;> trivial

theorem readsOnly_okOr (e : Error) (a : Option α) : ReadsOnly (okOr e a) := by
  cases a <;> trivial

/-- What stands behind the check of the flag is not run. -/
theorem readsOnly_unless {a p : M α} (ha : ReadsOnly a) :
    ReadsOnly (fields TorrentCoordinator.readOnly >>= fun readOnly => if readOnly then a else p) := by
  intro t ht
  refine ⟨ht, ?_⟩
  show Prog.wp readOnlySpec (if t.readOnly then a else p) () _
  rw [ht]
  exact ha

theorem ReadsOnly.attempt {p : M α} (hp : ReadsOnly p) : ReadsOnly p.attempt := by
  unfold ReadsOnly
  rw [Prog.wp_attempt]
  exact hp

theorem ReadsOnly.logged {p : M α} (hp : ReadsOnly p) : ReadsOnly (logged p) :=
  hp.attempt.bind fun _ => trivial

theorem ReadsOnly.discard {p : M α} (hp : ReadsOnly p) : ReadsOnly (do let _ ← p : M Unit) :=
  hp.bind fun _ => trivial

theorem ReadsOnly.forM {ι : Type} {f : ι → M Unit} (hf : ∀ i, ReadsOnly (f i)) (l : List ι) :
    ReadsOnly (l.forM f) := by
  induction l with
  | nil => trivial
  | cons i l ih => exact (hf i).bind fun _ => ih

theorem ReadsOnly.withGate {body : M α} (hbody : ReadsOnly body) : ReadsOnly (withGate body) :=
  ReadsOnly.bind (p := act .lock) trivial fun _ =>
    hbody.attempt.bind fun _ => ReadsOnly.bind (p := act .unlock) trivial fun _ => readsOnly_ofExcept _

/-- A query of the database that writes nothing. -/
theorem readsOnly_query {caller : Activation} {c : Call} {f : c.Ans → Except State.Error α}
    {g : α → M β} (hc : c.Reads) (hg : ∀ a, ReadsOnly (g a)) :
    ReadsOnly (call caller c >>= fun r => state (f r) >>= g) :=
  (readsOnly_call hc).bind fun _ => (readsOnly_ofExcept _).bind hg

/-! ### The coordinator's functions -/

theorem readsOnly_persist (caller : Activation) (live : LiveTorrent) :
    ReadsOnly (persist caller live) := readsOnly_unless trivial

theorem readsOnly_stopPrefetchLocked (hash : InfoHash) : ReadsOnly (stopPrefetchLocked hash) := by
  refine (readsOnly_atomically fun _ => rfl).bind fun task => ?_
  cases task <;> trivial

theorem readsOnly_stopIdleDetachLocked (hash : InfoHash) : ReadsOnly (stopIdleDetachLocked hash) := by
  refine (readsOnly_atomically fun _ => rfl).bind fun task => ?_
  cases task <;> trivial

theorem readsOnly_ensureUnpinned (caller : Activation) (hash : InfoHash) :
    ReadsOnly (ensureUnpinned caller hash) := by
  refine (readsOnly_call (by trivial)).bind fun r => ?_
  split <;> trivial

theorem readsOnly_engineDelete (caller : Activation) (hash : InfoHash) :
    ReadsOnly (engineDelete caller hash) := by
  refine (readsOnly_call (by trivial)).bind fun r => ?_
  split
  · trivial
  · exact (readsOnly_call (by trivial)).bind fun _ => trivial

theorem readsOnly_keepPeers (hash : InfoHash) (livePeers : List SocketAddr) :
    ReadsOnly (keepPeers hash livePeers) := by
  refine readsOnly_update fun t => ?_
  split <;> rfl

theorem readsOnly_removeCache (caller : Activation) (hash : InfoHash) :
    ReadsOnly (removeCache caller hash) := by
  refine (readsOnly_call (by trivial)).bind fun r => ?_
  split <;> trivial

theorem readsOnly_forgetLive (hash : InfoHash) : ReadsOnly (forgetLive hash) :=
  readsOnly_update fun _ => rfl

theorem readsOnly_forgetPeers (hash : InfoHash) : ReadsOnly (forgetPeers hash) :=
  readsOnly_update fun _ => rfl

theorem readsOnly_insertLive (hash : InfoHash) (live : LiveTorrent) :
    ReadsOnly (insertLive hash live) := readsOnly_update fun _ => rfl

theorem readsOnly_addLive (request : AddTorrent) (hash : InfoHash) (live : LiveTorrent) :
    ReadsOnly (addLive request hash live) := by
  unfold addLive
  split
  · refine readsOnly_query (by trivial) fun found => ?_
    split
    · exact (readsOnly_persist _ _).bind fun _ => trivial
    · trivial
  · trivial

theorem readsOnly_savedSource (source : TorrentSource) (hash : Option InfoHash) :
    ReadsOnly (savedSource source hash) := by
  unfold savedSource
  split
  · trivial
  · split
    · trivial
    · refine readsOnly_query (by trivial) fun found => ?_
      split <;> trivial

theorem readsOnly_storedOf (request : AddTorrent) (live : LiveTorrent) :
    ReadsOnly (storedOf request live) := by
  unfold storedOf
  split
  · exact (readsOnly_persist _ _).bind fun _ => trivial
  · trivial

theorem readsOnly_addNew (request : AddTorrent) (source : TorrentSource) (hash : Option InfoHash) :
    ReadsOnly (addNew request source hash) := by
  refine (readsOnly_savedSource _ _).bind fun source => (readsOnly_fields _).bind fun peers => ?_
  refine (readsOnly_call (by trivial)).bind fun trackers => (readsOnly_call (by trivial)).bind fun r => ?_
  refine (readsOnly_ofExcept _).bind fun metadata => (readsOnly_forgetPeers _).bind fun _ => ?_
  refine readsOnly_query (by trivial) fun existing => (readsOnly_call (by trivial)).bind fun now => ?_
  refine (readsOnly_storedOf _ _).bind fun stored => ?_
  exact (readsOnly_insertLive _ _).bind fun _ => trivial

theorem readsOnly_addSource (request : AddTorrent) (source : TorrentSource) :
    ReadsOnly (addSource request source) := by
  refine ReadsOnly.withGate ((readsOnly_call (by trivial)).bind fun hash => ?_)
  refine (readsOnly_fields _).bind fun found => ?_
  split
  · exact readsOnly_addLive _ _ _
  · exact readsOnly_addNew _ _ _

theorem readsOnly_revive (hash : InfoHash) (metadata : TorrentMetadata) :
    ReadsOnly (revive hash metadata) := by
  refine (readsOnly_fields _).bind fun known => ?_
  split
  · trivial
  · refine readsOnly_query (by trivial) fun found => (readsOnly_okOr _ _).bind fun entry => ?_
    exact readsOnly_insertLive _ _

theorem readsOnly_load (hash : InfoHash) : ReadsOnly (load hash) := by
  refine (readsOnly_call (by trivial)).bind fun loaded => ?_
  split
  · trivial
  · refine readsOnly_query (by trivial) fun found => (readsOnly_okOr _ _).bind fun metainfo => ?_
    refine (readsOnly_fields _).bind fun peers => (readsOnly_call (by trivial)).bind fun trackers => ?_
    refine (readsOnly_call (by trivial)).bind fun r => (readsOnly_ofExcept _).bind fun metadata => ?_
    split
    · trivial
    · exact (readsOnly_revive _ _).bind fun _ => readsOnly_forgetPeers _

theorem readsOnly_dropLocked (hash : InfoHash) : ReadsOnly (dropLocked hash) := by
  refine (readsOnly_stopIdleDetachLocked hash).bind fun _ => readsOnly_query (by trivial) fun saved => ?_
  refine (readsOnly_stopPrefetchLocked hash).bind fun _ => ?_
  refine (readsOnly_ensureUnpinned _ _).bind fun _ => ReadsOnly.bind ?_ fun _ => ReadsOnly.bind ?_ fun _ => ?_
  · refine (readsOnly_call (by trivial)).bind fun loaded => ?_
    split
    · refine (readsOnly_engineDelete _ _).bind fun r => (readsOnly_ofExcept _).bind fun peers => ?_
      exact readsOnly_keepPeers _ _
    · trivial
  · refine (readsOnly_fields _).bind fun remove => ?_
    split
    · exact readsOnly_removeCache _ _
    · trivial
  · exact (readsOnly_forgetLive _).bind fun _ => trivial

theorem readsOnly_dropLive (hash : InfoHash) : ReadsOnly (dropLive hash) :=
  (readsOnly_dropLocked hash).withGate

theorem readsOnly_removeTorrent (hash : InfoHash) : ReadsOnly (removeTorrent hash) :=
  readsOnly_unless trivial

theorem readsOnly_evictLocked (hash : InfoHash) : ReadsOnly (evictLocked hash) := by
  refine (readsOnly_stopIdleDetachLocked hash).bind fun _ => ?_
  refine (readsOnly_stopPrefetchLocked hash).bind fun _ => (readsOnly_ensureUnpinned _ _).bind fun _ => ?_
  refine (readsOnly_engineDelete _ _).bind fun r => (readsOnly_ofExcept _).bind fun peers => ?_
  refine (readsOnly_keepPeers _ _).bind fun _ => (readsOnly_call (by trivial)).bind fun r => ?_
  exact (readsOnly_ofExcept _).bind fun freed => (readsOnly_forgetLive _).bind fun _ => trivial

theorem readsOnly_evictToCap : ReadsOnly evictToCap :=
  ReadsOnly.withGate ((readsOnly_call (by trivial)).bind fun _ =>
    ReadsOnly.forM (fun hash => (readsOnly_evictLocked hash).logged) _)

theorem readsOnly_engineFile (hash : InfoHash) (index : ℕ) : ReadsOnly (engineFile hash index) := by
  refine (readsOnly_fields _).bind fun found => (readsOnly_okOr _ _).bind fun live => ?_
  exact (readsOnly_okOr _ _).bind fun file => trivial

theorem readsOnly_startPrefetchLocked (hash : InfoHash) (file : FileIndex) (offset : ℕ) :
    ReadsOnly (startPrefetchLocked hash file offset) := by
  refine (readsOnly_stopPrefetchLocked hash).bind fun _ => ?_
  refine (readsOnly_atomically fun _ => rfl).bind fun id => ReadsOnly.bind (p := act _) trivial fun _ => ?_
  exact readsOnly_update fun _ => rfl

theorem readsOnly_playWithPrefetch (hash : InfoHash) (index offset : ℕ)
    (stop prefetchOffset : Option ℕ) :
    ReadsOnly (playWithPrefetch hash index offset stop prefetchOffset) := by
  refine ReadsOnly.withGate ((readsOnly_stopIdleDetachLocked hash).bind fun _ => ?_)
  refine (readsOnly_load hash).bind fun _ => (readsOnly_engineFile hash index).bind fun file => ?_
  refine ReadsOnly.bind ?_ fun length => (readsOnly_call (by trivial)).bind fun r => ?_
  · refine (readsOnly_call (by trivial)).bind fun r => ?_
    split <;> trivial
  · refine (readsOnly_ofExcept _).bind fun pin => ReadsOnly.bind ?_ fun _ => ?_
    · cases prefetchOffset with
      | none => trivial
      | some offset => exact readsOnly_startPrefetchLocked _ _ _
    · exact ReadsOnly.bind (p := act _) trivial fun _ => trivial

theorem readsOnly_schedulePrefetch (hash : InfoHash) (index offset : ℕ) :
    ReadsOnly (schedulePrefetch hash index offset) := by
  refine ReadsOnly.withGate ((readsOnly_engineFile hash index).attempt.bind fun r => ?_)
  split
  · exact readsOnly_startPrefetchLocked _ _ _
  · trivial

theorem readsOnly_setSettings (settings : Settings) : ReadsOnly (setSettings settings) :=
  readsOnly_unless trivial

/-! ### Spawned tasks -/

theorem readsOnly_prefetch (id : ℕ) (hash : InfoHash) (file : FileIndex) (offset : ℕ) :
    ReadsOnly (Background.prefetch id hash file offset).body := by
  refine ReadsOnly.bind ?_ fun prepared => ReadsOnly.bind ?_ fun _ => ?_
  · refine (readsOnly_fields _).bind fun budget => ?_
    split
    · trivial
    · trivial
    · refine (readsOnly_call (by trivial)).bind fun r => ?_
      split
      · trivial
      · split
        · trivial
        · refine (readsOnly_call (by trivial)).bind fun r => ?_
          split <;> trivial
  · cases prepared with
    | none => trivial
    | some pin => exact readsOnly_call (by trivial)
  · refine (readsOnly_update fun t => ?_).bind fun _ => readsOnly_evictToCap.logged
    split <;> rfl

theorem readsOnly_scheduleIdleDetach (hash : InfoHash) : ReadsOnly (scheduleIdleDetach hash) := by
  refine (readsOnly_ensureUnpinned _ _).attempt.bind fun r => ?_
  split
  · trivial
  · refine (readsOnly_call (by trivial)).bind fun loaded => ?_
    split
    · refine (readsOnly_stopIdleDetachLocked hash).bind fun _ => ?_
      refine (readsOnly_atomically fun _ => rfl).bind fun id => ?_
      exact ReadsOnly.bind (p := act _) trivial fun _ => readsOnly_update fun _ => rfl
    · trivial

theorem readsOnly_background (task : Background) : ReadsOnly task.body := by
  cases task with
  | prefetch id hash file offset => exact readsOnly_prefetch id hash file offset
  | idleDetach id hash =>
    refine (readsOnly_atomically fun t => ?_).bind fun current => ?_
    · split <;> rfl
    · split
      · exact (readsOnly_dropLive hash).logged
      · trivial
  | release hash => exact readsOnly_evictToCap.logged.bind fun _ => readsOnly_scheduleIdleDetach hash

/-! ### Client commands -/

theorem readsOnly_updateTorrent (update : UpdateTorrent) : ReadsOnly (updateTorrent update) := by
  refine ReadsOnly.withGate ((readsOnly_atomically fun t => ?_).bind fun edited => ?_)
  · split <;> rfl
  · split
    · refine readsOnly_query (by trivial) fun found => ?_
      split
      · exact readsOnly_persist _ _
      · trivial
    · refine readsOnly_query (by trivial) fun found => ?_
      split
      · refine readsOnly_query (by trivial) fun found => (readsOnly_okOr _ _).bind fun metainfo => ?_
        refine ReadsOnly.bind ?_ fun title => readsOnly_unless trivial
        unfold updateTitle
        split
        · refine (readsOnly_call (by trivial)).bind fun r => ?_
          exact (readsOnly_ofExcept _).bind fun metadata => trivial
        · trivial
      · trivial

theorem readsOnly_wipe : ReadsOnly wipe :=
  (readsOnly_fields _).bind fun _ => readsOnly_query (by trivial) fun _ =>
    ReadsOnly.forM (fun hash => (readsOnly_removeTorrent hash).discard) _

theorem readsOnly_getView (hash : InfoHash) : ReadsOnly (getView hash) := by
  refine (readsOnly_fields _).bind fun live => ?_
  split
  · trivial
  · exact readsOnly_query (by trivial) fun entry => trivial

theorem readsOnly_magnetsOf (entries : List CatalogEntry) : ReadsOnly (magnetsOf entries) := by
  induction entries with
  | nil => trivial
  | cons entry entries ih =>
    refine readsOnly_query (by trivial) fun metainfo => ?_
    split
    · exact ih
    · refine (readsOnly_call (by trivial)).bind fun r => (readsOnly_ofExcept _).bind fun metadata => ?_
      exact ih.bind fun magnets => trivial

theorem readsOnly_setViewed (hash : InfoHash) (index : ℕ) (timecode : Timecode) :
    ReadsOnly (setViewed hash index timecode) := by
  refine ReadsOnly.bind ?_ fun file => readsOnly_unless (readsOnly_pure ())
  · unfold checkedIndex
    split <;> trivial

theorem readsOnly_cacheView (hash : Option InfoHash) : ReadsOnly (cacheView hash) := by
  refine (readsOnly_call (by trivial)).bind fun stats => ?_
  cases hash with
  | none => exact (readsOnly_call (by trivial)).bind fun entries => trivial
  | some hash =>
    exact (readsOnly_call (by trivial)).bind fun r => (readsOnly_ofExcept _).bind fun entry => trivial

theorem readsOnly_torrentCommand (command : TorrentCommand) : ReadsOnly command.body := by
  cases command with
  | add request source => exact (readsOnly_addSource request source).discard
  | get hash => exact (readsOnly_getView hash).discard
  | set update => exact readsOnly_updateTorrent update
  | remove hash => exact (readsOnly_removeTorrent hash).discard
  | list =>
    refine ReadsOnly.discard ((readsOnly_fields _).bind fun live => ?_)
    exact readsOnly_query (by trivial) fun saved => trivial
  | drop hash => exact (readsOnly_dropLive hash).discard
  | wipe => exact readsOnly_wipe
  | magnets =>
    refine ReadsOnly.discard ((readsOnly_call (by trivial)).bind fun trackers => ?_)
    exact readsOnly_query (by trivial) fun entries => readsOnly_magnetsOf _

theorem readsOnly_settingsCommand (command : SettingsCommand) : ReadsOnly command.body := by
  have hanswer : ReadsOnly (do let _ ← fields TorrentCoordinator.settings : M Unit) :=
    (readsOnly_fields _).discard
  cases command with
  | get => exact hanswer
  | set settings => exact (readsOnly_setSettings settings).bind fun _ => hanswer
  | defaults => exact (readsOnly_setSettings Settings.default).bind fun _ => hanswer
  | setStorage settingsInJson viewedInJson => exact (readsOnly_unless (readsOnly_pure ())).bind fun _ => hanswer

theorem readsOnly_clientCommand (command : ClientCommand) : ReadsOnly command.body := by
  cases command with
  | torrents command => exact readsOnly_torrentCommand command
  | playback hash index offset stop prefetchOffset =>
    refine ReadsOnly.discard ((readsOnly_getView hash).bind fun found => ?_)
    refine (readsOnly_okOr _ _).bind fun view => (readsOnly_okOr _ _).bind fun file => ?_
    exact readsOnly_playWithPrefetch _ _ _ _ _
  | settings command => exact readsOnly_settingsCommand command
  | viewed command =>
    cases command with
    | set hash index timecode => exact readsOnly_setViewed hash index timecode
    | remove hash index => exact readsOnly_unless trivial
    | list hash => exact ReadsOnly.discard (readsOnly_query (by trivial) fun entries => trivial)
  | cache hash => exact (readsOnly_cacheView hash).discard
  | waf command =>
    cases command with
    | get =>
      exact ReadsOnly.discard ((readsOnly_call (by trivial)).bind fun r => readsOnly_ofExcept _)
    | set lists =>
      refine ReadsOnly.discard (readsOnly_unless ?_)
      exact (readsOnly_call (by trivial)).bind fun r => readsOnly_ofExcept _

theorem readsOnly_request (r : Request) : ReadsOnly r.body := by
  cases r with
  | addSource request source => exact (readsOnly_addSource request source).discard
  | play hash index offset stop prefetchOffset =>
    exact (readsOnly_playWithPrefetch hash index offset stop prefetchOffset).discard
  | schedulePrefetch hash index offset => exact readsOnly_schedulePrefetch hash index offset
  | dropLive hash => exact (readsOnly_dropLive hash).discard
  | removeTorrent hash => exact (readsOnly_removeTorrent hash).discard
  | evict hash => exact (readsOnly_evictLocked hash).withGate.discard
  | evictToCap => exact readsOnly_evictToCap
  | setSettings settings => exact readsOnly_setSettings settings
  | client command => exact readsOnly_clientCommand command

end Coordinator

/-! ### Runs -/

open Function (update)
open Coordinator (ReadsOnly)

section Runs

variable {ε σ : Type} (ops : PieceStore ε σ)

theorem World.answer_state (a : Answers ε) {c : Call} (hc : c.Reads) (w : World σ) :
    (w.answer ops a c).2.state = w.state := by
  cases c <;> try rfl
  case add =>
    show (w.add a).2.state = w.state
    unfold World.add
    split <;> rfl
  case forget hash id =>
    show (w.forget hash id).state = w.state
    unfold World.forget
    split <;> rfl
  all_goals exact hc.elim

theorem World.traffic_state (env : ε) (hash : InfoHash) (t : World.Traffic) (w : World σ) :
    (w.traffic ops env hash t).state = w.state := by
  cases t <;> rfl

namespace Pool

/-- A pool of a read-only coordinator whose database holds `state`. -/
structure Untouched (state : State Settings) (p : Pool σ) : Prop where
  readOnly : p.world.fields.readOnly = true
  state : p.world.state = state
  tasks : ∀ i task, p.tasks i = some task → ReadsOnly task.body

variable {ops} {state : State Settings} {p p' : Pool σ}

/-- A task goes on with a body that only reads. -/
theorem Untouched.goOn (h : Untouched state p) (i : ℕ) (name : Option Background)
    {body : Coordinator.M Unit} (hbody : ReadsOnly body) : Untouched state (p.goOn i name body) := by
  refine ⟨h.readOnly, h.state, fun j task hj => ?_⟩
  by_cases hji : j = i
  · subst hji
    have hj' : update p.tasks j (some ⟨name, body⟩) j = some task := hj
    rw [Function.update_self] at hj'
    cases hj'
    exact hbody
  · have hj' : update p.tasks i (some ⟨name, body⟩) j = some task := hj
    rw [Function.update_of_ne hji] at hj'
    exact h.tasks j task hj'

theorem Untouched.of_world (h : Untouched state p) (htasks : p'.tasks = p.tasks)
    (hfields : p'.world.fields.readOnly = true) (hstate : p'.world.state = p.world.state) :
    Untouched state p' :=
  ⟨hfields, hstate.trans h.state, fun i task hi => h.tasks i task (htasks ▸ hi)⟩

theorem Untouched.step {act : Option Act} (h : Untouched state p) (hs : Step ops p act p') :
    Untouched state p' := by
  cases hs with
  | lock hi _ =>
    have hbody := h.tasks _ _ hi
    refine Untouched.goOn ?_ _ _ hbody
    exact h.of_world rfl h.readOnly rfl
  | unlock hi =>
    have hbody := h.tasks _ _ hi
    refine Untouched.goOn ?_ _ _ hbody
    exact h.of_world rfl h.readOnly rfl
  | call a hi =>
    obtain ⟨hc, hk⟩ := h.tasks _ _ hi
    refine Untouched.goOn ?_ _ _ (hk _)
    refine h.of_world rfl ?_ (World.answer_state ops a hc p.world)
    exact (congrArg TorrentCoordinator.readOnly (World.answer_fields ops a _ p.world)).trans h.readOnly
  | atomically hi =>
    obtain ⟨hf, hk⟩ := h.tasks _ _ hi p.world.fields h.readOnly
    refine Untouched.goOn ?_ _ _ hk
    exact h.of_world rfl hf rfl
  | spawn hi _ =>
    have hbody := h.tasks _ _ hi
    exact (h.goOn _ _ (Coordinator.readsOnly_background _)).goOn _ _ hbody
  | cancel hi _ =>
    have hbody := h.tasks _ _ hi
    exact h.goOn _ _ hbody
  | handOver hi =>
    have hbody := h.tasks _ _ hi
    refine Untouched.goOn ?_ _ _ hbody
    exact h.of_world rfl h.readOnly rfl
  | request r _ => exact h.goOn _ _ (Coordinator.readsOnly_request r)
  | abandon hi => exact h.goOn _ _ (Coordinator.readsOnly_pure _)
  | dropHeld hi _ _ => exact h.of_world rfl h.readOnly rfl
  | dropGuard hi _ _ => exact h.of_world rfl h.readOnly rfl
  | @exit i _ hi _ _ _ =>
    refine ⟨h.readOnly, h.state, fun j task hj => ?_⟩
    have hj' : update p.tasks i none j = some task := hj
    by_cases hji : j = i
    · rw [hji, Function.update_self] at hj'
      cases hj'
    · rw [Function.update_of_ne hji] at hj'
      exact h.tasks j task hj'
  | dropReader _ _ =>
    refine Untouched.goOn ?_ _ _ (Coordinator.readsOnly_background _)
    exact h.of_world rfl h.readOnly rfl
  | traffic env hash t =>
    refine h.of_world rfl ?_ (World.traffic_state ops env hash t p.world)
    exact (congrArg TorrentCoordinator.readOnly (World.traffic_fields ops env hash t p.world)).trans
      h.readOnly

/-- Whatever commands a read-only coordinator is given, in whatever order and at
once, its database stays as it was. -/
theorem readOnly_state {world : World σ} (hro : world.fields.readOnly = true)
    (h : Reachable ops world p) : p.world.state = world.state := by
  have huntouched : Untouched world.state p := by
    induction h with
    | start => exact ⟨hro, rfl, fun i task hi => nomatch hi⟩
    | step _ hs ih => exact ih.step hs
  exact huntouched.state

/-- Settings are set, and the settings there were are answered. -/
theorem readOnly_state_setSettings :
    ∃ p, Reachable MemoryStore.pieceStore
        (TorrentCoordinator.new (false, false) MemoryStore.new 8 State.empty true) p ∧
      (∃ task, p.tasks 0 = some task ∧ task.body.finished) ∧
      p.world.state =
        (TorrentCoordinator.new (false, false) MemoryStore.new 8 State.empty true).state := by
  have started : Reachable MemoryStore.pieceStore
    (TorrentCoordinator.new (false, false) MemoryStore.new 8 State.empty true) _ := .start
  have requested :=
    started.step (Step.request (i := 0) (.client (.settings (.set Settings.default))) rfl)
  have checked := requested.step (Step.atomically (i := 0) rfl)
  have answered := checked.step (Step.atomically (i := 0) rfl)
  exact ⟨_, answered, ⟨_, rfl, rfl⟩, readOnly_state rfl answered⟩

end Pool

end Runs

end Rustorr
