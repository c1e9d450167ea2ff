import Rustorr.Lifecycle.Service

/-! Agreement of the engine with the live map: a torrent is loaded exactly when
it is live. Each function keeps this unless one of its calls fails after the
engine has taken or given up a torrent and before the live map follows. -/

namespace Rustorr

open Lifecycle (Error)
open Prog (followed_ok followed_error)

namespace Service

variable {ε σ α : Type} (ops : PieceStore ε σ) (o : Activation → Answers ε)

def isLoaded (s : Service σ) (hash : InfoHash) : Bool := (s.world.loaded.lookup hash).isSome

def isLive (s : Service σ) (hash : InfoHash) : Bool := (s.world.fields.live.lookup hash).isSome

def Agree (s : Service σ) : Prop := ∀ hash, s.isLoaded hash = s.isLive hash

theorem Agree.of_eq {s s' : Service σ} (h : Agree s) (hloaded : s'.world.loaded = s.world.loaded)
    (hlive : s'.world.fields.live = s.world.fields.live) : Agree s' := by
  intro g
  have := h g
  unfold isLoaded isLive at this ⊢
  rw [hloaded, hlive, this]

theorem isSome_lookup_erase {β : InfoHash → Type} (m : AList β) (hash g : InfoHash) :
    ((m.erase hash).lookup g).isSome = (if g = hash then false else (m.lookup g).isSome) := by
  split
  · next hg => rw [hg, AList.lookup_erase, Option.isSome_none]
  · next hg => rw [AList.lookup_erase_ne hg]

theorem isSome_lookup_insert {β : InfoHash → Type} (m : AList β) (hash g : InfoHash) (x : β hash) :
    ((m.insert hash x).lookup g).isSome = (if g = hash then true else (m.lookup g).isSome) := by
  split
  · next hg =>
    subst hg
    rw [AList.lookup_insert, Option.isSome_some]
  · next hg => rw [AList.lookup_insert_ne hg]

/-- The engine and the live map give up the same torrent. -/
theorem Agree.erase {s s' : Service σ} (h : Agree s) {hash : InfoHash}
    (hloaded : s'.world.loaded = s.world.loaded.erase hash)
    (hlive : s'.world.fields.live = s.world.fields.live.erase hash) : Agree s' := by
  intro g
  have := h g
  unfold isLoaded isLive at this ⊢
  rw [hloaded, hlive, isSome_lookup_erase, isSome_lookup_erase, this]

/-- The live map gives up a torrent that the engine does not hold. -/
theorem Agree.erase_absent {s s' : Service σ} (h : Agree s) {hash : InfoHash}
    (habsent : s.isLoaded hash = false) (hloaded : s'.world.loaded = s.world.loaded)
    (hlive : s'.world.fields.live = s.world.fields.live.erase hash) : Agree s' := by
  intro g
  have hg := h g
  unfold isLoaded isLive at hg ⊢
  unfold isLoaded at habsent
  rw [hloaded, hlive, isSome_lookup_erase, hg]
  split
  · next heq => rw [← hg, heq, habsent]
  · rfl

/-- The engine and the live map take the same torrent. -/
theorem Agree.insert {s s' : Service σ} (h : Agree s) {hash : InfoHash} {id : ℕ}
    {live : LiveTorrent} (hloaded : s'.world.loaded = s.world.loaded.insert hash id)
    (hlive : s'.world.fields.live = s.world.fields.live.insert hash live) : Agree s' := by
  intro g
  have := h g
  unfold isLoaded isLive at this ⊢
  rw [hloaded, hlive, isSome_lookup_insert, isSome_lookup_insert, this]

/-- The engine takes a torrent that is live already. -/
theorem Agree.insert_live {s s' : Service σ} (h : Agree s) {hash : InfoHash} {id : ℕ}
    (hlive' : s.isLive hash = true) (hloaded : s'.world.loaded = s.world.loaded.insert hash id)
    (hlive : s'.world.fields.live = s.world.fields.live) : Agree s' := by
  intro g
  have hg := h g
  unfold isLoaded isLive at hg ⊢
  unfold isLive at hlive'
  rw [hloaded, hlive, isSome_lookup_insert, hg]
  split
  · next heq => rw [heq, hlive']
  · rfl

/-- The service once an operation has taken the gate. -/
def locked (s : Service σ) : Service σ := { s with gate := true }

theorem wp_withGate_agree {ops : PieceStore ε σ} {o : Activation → Answers ε} {s : Service σ}
    {body : Coordinator.M α} (h : Agree s)
    (hbody : s.gate = false → Prog.wp (spec ops o Agree) body s.locked fun _ => Agree) :
    Prog.wp (spec ops o Agree) (Coordinator.withGate body) s fun _ => Agree :=
  wp_withGate ops o (fun _ => h) fun hgate =>
    Prog.wp_mono (spec_monotone ops o Agree) (fun _ _ h' => h'.of_eq rfl rfl) (hbody hgate)

/-! ### Stopping tasks -/

def unregisterIdle (hash : InfoHash) (s : Service σ) : Service σ :=
  s.setFields { s.world.fields with idleDetaches := s.world.fields.idleDetaches.erase hash }

def stopIdleDetach (hash : InfoHash) (s : Service σ) : Service σ :=
  match s.world.fields.idleDetaches.lookup hash with
  | some task => (s.unregisterIdle hash).cancel task.handle
  | none => s.unregisterIdle hash

def unregisterPrefetch (hash : InfoHash) (s : Service σ) : Service σ :=
  s.setFields { s.world.fields with prefetches := s.world.fields.prefetches.erase hash }

def stopPrefetch (hash : InfoHash) (s : Service σ) : Service σ :=
  match s.world.fields.prefetches.lookup hash with
  | some task => (s.unregisterPrefetch hash).cancel task.handle
  | none => s.unregisterPrefetch hash

variable {ops o} {W : Service σ → Prop} {s : Service σ}

theorem wp_stopIdleDetach (hash : InfoHash) (Q : Except Error Unit → Service σ → Prop) :
    Prog.wp (spec ops o W) (Coordinator.stopIdleDetachLocked hash) s Q =
      Q (.ok ()) (s.stopIdleDetach hash) := by
  unfold Coordinator.stopIdleDetachLocked stopIdleDetach
  rw [Prog.wp_bind, wp_atomically, followed_ok]
  cases s.world.fields.idleDetaches.lookup hash <;> rfl

theorem wp_stopPrefetch (hash : InfoHash) (Q : Except Error Unit → Service σ → Prop) :
    Prog.wp (spec ops o W) (Coordinator.stopPrefetchLocked hash) s Q =
      Q (.ok ()) (s.stopPrefetch hash) := by
  unfold Coordinator.stopPrefetchLocked stopPrefetch
  rw [Prog.wp_bind, wp_atomically, followed_ok]
  cases s.world.fields.prefetches.lookup hash <;> rfl

/-- What stopping tasks leaves as it is. -/
structure Kept (s s' : Service σ) : Prop where
  loaded : s'.world.loaded = s.world.loaded
  live : s'.world.fields.live = s.world.fields.live
  state : s'.world.state = s.world.state
  settings : s'.world.fields.settings = s.world.fields.settings
  readOnly : s'.world.fields.readOnly = s.world.fields.readOnly

theorem kept_stopIdleDetach (hash : InfoHash) (s : Service σ) : Kept s (s.stopIdleDetach hash) := by
  unfold stopIdleDetach
  split <;> exact ⟨rfl, rfl, rfl, rfl, rfl⟩

theorem kept_stopPrefetch (hash : InfoHash) (s : Service σ) : Kept s (s.stopPrefetch hash) := by
  unfold stopPrefetch
  split <;> exact ⟨rfl, rfl, rfl, rfl, rfl⟩

theorem Kept.trans {s s' s'' : Service σ} (h : Kept s s') (h' : Kept s' s'') : Kept s s'' where
  loaded := h'.loaded.trans h.loaded
  live := h'.live.trans h.live
  state := h'.state.trans h.state
  settings := h'.settings.trans h.settings
  readOnly := h'.readOnly.trans h.readOnly

theorem Kept.agree {s s' : Service σ} (h : Kept s s') (hs : Agree s) : Agree s' :=
  hs.of_eq h.loaded h.live

theorem Kept.isLoaded {s s' : Service σ} (h : Kept s s') (hash : InfoHash) :
    s'.isLoaded hash = s.isLoaded hash := by
  unfold Service.isLoaded
  rw [h.loaded]

def stopped (hash : InfoHash) (s : Service σ) : Service σ :=
  (s.stopIdleDetach hash).stopPrefetch hash

theorem kept_stopped (hash : InfoHash) (s : Service σ) : Kept s (s.stopped hash) :=
  (kept_stopIdleDetach hash s).trans (kept_stopPrefetch hash _)

/-! ### Calls that fail -/

def Unpinned (s : Service σ) (hash : InfoHash) : Prop :=
  ∀ e, s.world.cache.torrents.lookup hash = some e → e.pins = 0

theorem wp_ensureUnpinned_cases {caller : Activation} {hash : InfoHash}
    {Q : Except Error Unit → Service σ → Prop} (hpinned : Q (.error (.cache (.pinned hash))) s)
    (hok : s.Unpinned hash → Q (.ok ()) s) :
    Prog.wp (spec ops o W) (Coordinator.ensureUnpinned caller hash) s Q := by
  unfold Coordinator.ensureUnpinned
  rw [Prog.wp_bind, wp_call, followed_ok]
  simp only [World.answer, Cache.ensureUnpinned, Cache.entry]
  cases he : s.world.cache.torrents.lookup hash with
  | none => exact hok fun e he' => by rw [he] at he'; cases he'
  | some e =>
    by_cases hp : e.pins > 0
    · simp only [hp, if_true]
      exact hpinned
    · simp only [hp, if_false]
      refine hok fun e' he' => ?_
      rw [he] at he'
      cases he'
      omega

/-- An answer of the cache that is more than an unknown torrent. -/
def RemoveFails (r : Except Cache.Error ℕ) : Prop :=
  ∃ e, r = .error e ∧ ∀ hash, e ≠ .unknownTorrent hash

theorem wp_removeCache {caller : Activation} {hash : InfoHash}
    {Q : Except Error Unit → Service σ → Prop}
    (hok : ¬RemoveFails (s.world.cache.remove ops (o caller).store hash).1 →
      Q (.ok ()) (s.setCache (s.world.cache.remove ops (o caller).store hash).2))
    (hfails : ∀ e, RemoveFails (s.world.cache.remove ops (o caller).store hash).1 →
      Q (.error e) (s.setCache (s.world.cache.remove ops (o caller).store hash).2)) :
    Prog.wp (spec ops o W) (Coordinator.removeCache caller hash) s Q := by
  unfold Coordinator.removeCache
  rw [Prog.wp_bind, wp_call, followed_ok]
  simp only [World.answer]
  split
  · next n hr =>
    refine hok ?_
    rintro ⟨e, he, -⟩
    rw [hr] at he
    cases he
  · next g hr =>
    refine hok ?_
    rintro ⟨e, he, hne⟩
    rw [hr] at he
    cases he
    exact hne g rfl
  · next e hnot hr => exact hfails _ ⟨e, hr, hnot⟩

/-! ### Dropping -/

/-- `drop_live` fails between the engine's delete and the live map. -/
def DropSlips (ops : PieceStore ε σ) (o : Activation → Answers ε) (hash : InfoHash)
    (s : Service σ) : Prop :=
  (o (.dropLive hash)).fails .torrent = false ∧ (s.stopped hash).Unpinned hash ∧
    s.isLoaded hash ∧ (∃ livePeers, (o (.dropLive hash)).delete = .ok livePeers) ∧
    (s.world.fields.settings.removeCacheOnDrop ∨ s.world.state.torrents.lookup hash = none) ∧
    RemoveFails ((s.stopped hash).world.cache.remove ops (o (.dropLive hash)).store hash).1

theorem wp_detach (hash : InfoHash) {Q : Except Error Unit → Service σ → Prop}
    (habsent : s.isLoaded hash = false → Q (.ok ()) s)
    (hfails : ∀ e, Q (.error e) s)
    (hok : ∀ t, s.isLoaded hash → (∃ livePeers, (o (.dropLive hash)).delete = .ok livePeers) →
      t.live = s.world.fields.live → t.settings = s.world.fields.settings →
      Q (.ok ()) ((s.unload hash).setFields t)) :
    Prog.wp (spec ops o W) (Coordinator.detach hash) s Q := by
  unfold Coordinator.detach
  rw [Prog.wp_bind, wp_call, followed_ok]
  split
  · next hl =>
    show Prog.wp _ _ s _
    rw [Prog.wp_bind]
    refine wp_engineDelete ops o (fun hnone => ?_) (fun e _ _ => ?_) fun livePeers _ hd => ?_
    · have hl' : (s.world.loaded.lookup hash).isSome = true := hl
      rw [hnone] at hl'
      cases hl'
    · exact hfails _
    · show Q (.ok ()) ((s.unload hash).setFields _)
      refine hok _ hl ⟨livePeers, hd⟩ ?_ ?_ <;> split <;> rfl
  · next hl => exact habsent (Bool.eq_false_iff.mpr hl)

theorem wp_dropCache {hash : InfoHash} {saved : Bool} {Q : Except Error Unit → Service σ → Prop}
    (hok : ∀ cache, Q (.ok ()) (s.setCache cache))
    (hfails : ∀ e cache, (s.world.fields.settings.removeCacheOnDrop || !saved) = true →
      RemoveFails (s.world.cache.remove ops (o (.dropLive hash)).store hash).1 →
      Q (.error e) (s.setCache cache)) :
    Prog.wp (spec ops o W) (Coordinator.dropCache hash saved) s Q := by
  unfold Coordinator.dropCache
  rw [Prog.wp_bind, wp_fields, followed_ok]
  split
  · next h => exact wp_removeCache (fun _ => hok _) fun e => hfails e _ h
  · exact hok s.world.cache

theorem wp_dropLocked_agree (hash : InfoHash) (h : Agree s) (hns : ¬DropSlips ops o hash s) :
    Prog.wp (spec ops o W) (Coordinator.dropLocked hash) s fun _ => Agree := by
  have hk := kept_stopped hash s
  unfold Coordinator.dropLocked
  rw [Prog.wp_bind, wp_stopIdleDetach, followed_ok, Prog.wp_bind, wp_call, followed_ok]
  cases hf : (o (.dropLive hash)).fails .torrent with
  | true =>
    simp only [World.answer, State.torrent, hf, if_true]
    exact (kept_stopIdleDetach hash s).agree h
  | false =>
    simp only [World.answer, State.torrent, hf, Bool.false_eq_true, if_false]
    show Prog.wp _ (Coordinator.stopPrefetchLocked hash >>= _) (s.stopIdleDetach hash) _
    rw [Prog.wp_bind, wp_stopPrefetch, followed_ok, Prog.wp_bind]
    refine wp_ensureUnpinned_cases (hk.agree h) fun hunpinned => ?_
    rw [followed_ok, Prog.wp_bind]
    refine wp_detach hash (fun habsent => ?_) (fun e => hk.agree h) fun t hl hd hlive hset => ?_
    · rw [followed_ok, Prog.wp_bind]
      refine wp_dropCache (fun cache => ?_) fun e cache _ _ => ?_
      · exact (hk.agree h).erase_absent habsent rfl rfl
      · exact (hk.agree h).of_eq rfl rfl
    · rw [followed_ok, Prog.wp_bind]
      refine wp_dropCache (fun cache => ?_) fun e cache hdrop hrf => ?_
      · exact (hk.agree h).erase rfl (congrArg (AList.erase hash) hlive)
      · -- this failure is the slip
        refine absurd ⟨hf, hunpinned, (hk.isLoaded hash).symm.trans hl, hd, ?_, hrf⟩ hns
        rcases (Bool.or_eq_true _ _).mp hdrop with hremove | hunsaved
        · left
          have hremove' : t.settings.removeCacheOnDrop = true := hremove
          have hset' : t.settings = s.world.fields.settings := hset.trans hk.settings
          rwa [hset'] at hremove'
        · right
          simpa [(kept_stopIdleDetach hash s).state] using hunsaved

/-! ### Evicting -/

/-- `evict_locked` fails between the engine's delete and the live map. -/
def EvictSlips (ops : PieceStore ε σ) (o : Activation → Answers ε) (hash : InfoHash)
    (s : Service σ) : Prop :=
  (s.stopped hash).Unpinned hash ∧ s.isLoaded hash ∧
    (∃ livePeers, (o (.evictLocked hash)).delete = .ok livePeers) ∧
    ∃ e, ((s.stopped hash).world.cache.remove ops (o (.evictLocked hash)).store hash).1 = .error e

theorem wp_evictLocked_agree (hash : InfoHash) (h : Agree s) (hns : ¬EvictSlips ops o hash s) :
    Prog.wp (spec ops o W) (Coordinator.evictLocked hash) s fun _ => Agree := by
  have hk := kept_stopped hash s
  unfold Coordinator.evictLocked
  rw [Prog.wp_bind, wp_stopIdleDetach, followed_ok, Prog.wp_bind, wp_stopPrefetch, followed_ok,
    Prog.wp_bind]
  show Prog.wp _ _ (s.stopped hash) _
  refine wp_ensureUnpinned_cases (hk.agree h) fun hunpinned => ?_
  rw [followed_ok, Prog.wp_bind]
  refine wp_engineDelete ops o (fun _ => hk.agree h) (fun e _ _ => hk.agree h) fun peers hl hd => ?_
  rw [followed_ok, Prog.wp_bind, wp_engine]
  unfold Coordinator.keepPeers
  simp only [Except.mapError, followed_ok]
  rw [Prog.wp_bind, wp_update, followed_ok, Prog.wp_bind, wp_call, followed_ok, Prog.wp_bind]
  have hlive : ∀ t : TorrentCoordinator, (if peers.isEmpty then t else
      { t with peerHints := t.peerHints.insert hash peers }).live = t.live := by
    intro t
    split <;> rfl
  cases hr : ((s.stopped hash).world.cache.remove ops (o (.evictLocked hash)).store hash).1 with
  | error e => exact absurd ⟨hunpinned, (hk.isLoaded hash).symm.trans hl, ⟨peers, hd⟩, e, hr⟩ hns
  | ok freed =>
    show Prog.wp _ (Coordinator.cache
      ((s.stopped hash).world.cache.remove ops (o (.evictLocked hash)).store hash).1) _ _
    rw [hr]
    exact (hk.agree h).erase rfl (congrArg (AList.erase hash) (hlive _))

/-! ### Loading -/

/-- `load` fails, or finds another torrent, after the engine has taken one that
is not live. -/
def LoadSlips (o : Activation → Answers ε) (hash : InfoHash) (s : Service σ) : Prop :=
  s.isLoaded hash = false ∧ (o (.load hash)).fails .metainfo = false ∧
    (s.world.state.torrents.lookup hash).isSome ∧
    ∃ metadata id, (o (.load hash)).add = .ok (metadata, id) ∧ s.isLive metadata.hash = false ∧
      (metadata.hash = hash → (o (.load hash)).fails .torrent = true)

/-- The engine with one torrent more. -/
def take (hash : InfoHash) (id : ℕ) (s : Service σ) : Service σ :=
  s.setWorld { s.world with loaded := s.world.loaded.insert hash id }

theorem Kept.isLive {s s' : Service σ} (h : Kept s s') (hash : InfoHash) :
    s'.isLive hash = s.isLive hash := by
  unfold Service.isLive
  rw [h.live]

theorem wp_revive_agree {hash : InfoHash} {metadata : TorrentMetadata} {id : ℕ} (h : Agree s)
    (hhash : metadata.hash = hash)
    (hrow : (s.world.state.torrents.lookup hash).isSome)
    (hns : s.isLive hash = false → (o (.load hash)).fails .torrent = false)
    {Q : Except Error Unit → Service σ → Prop} (hQ : ∀ r s', Agree s' → Q r s') :
    Prog.wp (spec ops o W) (Coordinator.revive hash metadata) (s.take metadata.hash id) Q := by
  unfold Coordinator.revive
  rw [Prog.wp_bind, wp_fields, followed_ok]
  split
  · next hl => exact hQ _ _ (h.insert_live (hhash ▸ hl) rfl rfl)
  · next hl =>
    have hl' : s.isLive hash = false := Bool.eq_false_iff.mpr hl
    obtain ⟨row, hrow⟩ := Option.isSome_iff_exists.mp hrow
    have htorrent : (State.torrent ((o (.load hash)).fails .torrent) hash
        (s.take metadata.hash id).world.state) = .ok (some row.1) := by
      show State.torrent _ hash s.world.state = _
      simp only [State.torrent, hns hl', hrow, Bool.false_eq_true, if_false, Option.map_some]
    rw [Prog.wp_bind, wp_call, followed_ok]
    simp only [World.answer, htorrent]
    exact hQ _ _ (h.insert rfl (by rw [hhash]; rfl))

theorem wp_load_agree (hash : InfoHash) (h : Agree s) (hns : ¬LoadSlips o hash s) :
    Prog.wp (spec ops o W) (Coordinator.load hash) s fun _ => Agree := by
  unfold Coordinator.load
  rw [Prog.wp_bind, wp_call, followed_ok]
  split
  · exact h
  · next hl =>
    have hl' : s.isLoaded hash = false := Bool.eq_false_iff.mpr hl
    show Prog.wp _ _ s _
    rw [Prog.wp_bind, wp_call, followed_ok, Prog.wp_bind, wp_state]
    simp only [World.answer, State.metainfo]
    cases hm : (o (.load hash)).fails .metainfo with
    | true => exact h
    | false =>
      cases hrow : s.world.state.torrents.lookup hash with
      | none => exact h
      | some row =>
        simp only [Bool.false_eq_true, if_false, Except.mapError, followed_ok, Option.map_some]
        rw [Prog.wp_bind, wp_okOr, Option.elim_some, followed_ok]
        unfold Coordinator.peersOf
        rw [Prog.wp_bind, wp_fields, followed_ok, Prog.wp_bind, wp_call, followed_ok]
        show Prog.wp _ _ s _
        rw [Prog.wp_bind, wp_call, followed_ok, Prog.wp_bind, wp_engine]
        simp only [World.answer, World.add]
        cases ha : (o (.load hash)).add with
        | error e => exact h
        | ok added =>
          obtain ⟨metadata, id⟩ := added
          -- the engine has taken a torrent; whatever fails now is the slip
          have hsafe : s.isLive metadata.hash = false →
              metadata.hash = hash ∧ (o (.load hash)).fails .torrent = false := by
            intro hdead
            have hnot : ¬(metadata.hash = hash → (o (.load hash)).fails .torrent = true) :=
              fun hsame => hns ⟨hl', hm, by rw [hrow]; rfl, metadata, id, ha, hdead, hsame⟩
            push Not at hnot
            exact ⟨hnot.1, Bool.eq_false_iff.mpr hnot.2⟩
          have hdead_or : s.isLive metadata.hash = true ∨ s.isLive metadata.hash = false := by
            cases s.isLive metadata.hash <;> simp
          show Prog.wp _ (if metadata.hash ≠ hash then _ else _) (s.take metadata.hash id) _
          split
          · next hne =>
            rcases hdead_or with hlive | hdead
            · exact h.insert_live hlive rfl rfl
            · exact absurd (hsafe hdead).1 hne
          · next heq =>
            have heq' : metadata.hash = hash := not_not.mp heq
            rw [Prog.wp_bind]
            refine wp_revive_agree h heq' (by rw [hrow]; rfl) (fun hdead => ?_) fun r s' hs' => ?_
            · exact (hsafe (heq' ▸ hdead)).2
            · cases r with
              | ok _ => exact hs'.of_eq rfl rfl
              | error e => exact hs'

/-! ### Adding -/

/-- `Engine::source_hash`, as the engine answers it. -/
def sourceHashOf (a : Answers ε) : TorrentSource → Option InfoHash
  | .url _ => none
  | _ => a.sourceHash

/-- The catalog refuses the torrent that an add would save. -/
def SaveFails (a : Answers ε) (request : AddTorrent) (metadata : TorrentMetadata)
    (s : Service σ) : Prop :=
  request.saveToDb ∧ s.world.fields.readOnly = false ∧
    ∃ e, (s.world.state.saveTorrent (a.fails .saveTorrent)
      (Coordinator.entryOf (Coordinator.withDefaultData (Coordinator.liveOf request metadata
        ((s.world.state.torrents.lookup metadata.hash).map Prod.fst) a.now)))
      metadata.metainfo).1 = .error e

/-- `add_source` fails after the engine has taken a torrent that is not live. -/
def AddSlips (o : Activation → Answers ε) (request : AddTorrent) (source : TorrentSource)
    (s : Service σ) : Prop :=
  (∀ hash, sourceHashOf (o .addSource) source = some hash → s.isLive hash = false) ∧
    ((sourceHashOf (o .addSource) source).isSome → (∀ bytes, source ≠ .torrentBytes bytes) →
      (o .addSource).fails .metainfo = false) ∧
    ∃ metadata id, (o .addSource).add = .ok (metadata, id) ∧ s.isLive metadata.hash = false ∧
      ((o .addSource).fails .torrent = true ∨ SaveFails (o .addSource) request metadata s)

def setState (state : State Settings) (s : Service σ) : Service σ :=
  s.setWorld { s.world with state := state }

theorem wp_persist {caller : Activation} {live : LiveTorrent}
    {Q : Except Error Unit → Service σ → Prop} (hok : ∀ state, Q (.ok ()) (s.setState state))
    (hfails : ∀ e state, s.world.fields.readOnly = false →
      (s.world.state.saveTorrent ((o caller).fails .saveTorrent) (Coordinator.entryOf live)
        live.metadata.metainfo).1 = .error e → Q (.error (.state e)) (s.setState state)) :
    Prog.wp (spec ops o W) (Coordinator.persist caller live) s Q := by
  unfold Coordinator.persist
  rw [Prog.wp_bind, wp_fields, followed_ok]
  split
  · exact hok s.world.state
  · next hro =>
    rw [Prog.wp_bind, wp_call, followed_ok, wp_state]
    simp only [World.answer]
    cases hr : (s.world.state.saveTorrent ((o caller).fails .saveTorrent)
      (Coordinator.entryOf live) live.metadata.metainfo).1 with
    | ok _ => exact hok _
    | error e => exact hfails e _ (Bool.eq_false_iff.mpr hro) hr

theorem wp_addLive_agree (request : AddTorrent) (hash : InfoHash) (live : LiveTorrent)
    (h : Agree s) : Prog.wp (spec ops o Agree) (Coordinator.addLive request hash live) s
      fun _ => Agree := by
  unfold Coordinator.addLive
  split
  · rw [Prog.wp_bind, wp_call, followed_ok, Prog.wp_bind, wp_state]
    simp only [World.answer]
    cases State.torrent ((o .addSource).fails .torrent) hash s.world.state with
    | error e => exact h
    | ok found =>
      simp only [Except.mapError, followed_ok]
      split
      · rw [Prog.wp_bind]
        -- the row is saved, then the second lock of the live map waits for ever
        exact wp_persist (fun state => h.of_eq rfl rfl) fun e state _ _ => h.of_eq rfl rfl
      · exact h
  · exact h

theorem wp_savedSource_agree {source : TorrentSource} {found : Option InfoHash}
    {Q : Except Error TorrentSource → Service σ → Prop}
    (hok : ((∃ hash, found = some hash) → (∀ bytes, source ≠ .torrentBytes bytes) →
      (o .addSource).fails .metainfo = false) → ∀ source, Q (.ok source) s)
    (hfails : ∀ e, Q (.error e) s) :
    Prog.wp (spec ops o W) (Coordinator.savedSource source found) s Q := by
  unfold Coordinator.savedSource
  split
  · refine hok ?_ _
    rintro ⟨hash, ⟨⟩⟩
  · split
    · next bytes => exact hok (fun _ hne => absurd rfl (hne bytes)) _
    · rw [Prog.wp_bind, wp_call, followed_ok, Prog.wp_bind, wp_state]
      simp only [World.answer, State.metainfo]
      cases hm : (o .addSource).fails .metainfo with
      | true => exact hfails _
      | false =>
        simp only [Bool.false_eq_true, if_false, Except.mapError, followed_ok]
        split
        · exact hok (fun _ _ => hm) _
        · exact hok (fun _ _ => hm) _

theorem wp_addNew_agree (request : AddTorrent) (source : TorrentSource) (h : Agree s)
    (hns : ¬AddSlips o request source s)
    (hdead : ∀ hash, sourceHashOf (o .addSource) source = some hash → s.isLive hash = false) :
    Prog.wp (spec ops o W)
      (Coordinator.addNew request source (sourceHashOf (o .addSource) source)) s fun _ => Agree := by
  unfold Coordinator.addNew
  rw [Prog.wp_bind]
  refine wp_savedSource_agree (fun hmeta source' => ?_) fun e => h
  rw [followed_ok, Prog.wp_bind, wp_fields, followed_ok, Prog.wp_bind, wp_call, followed_ok]
  show Prog.wp _ _ s _
  rw [Prog.wp_bind, wp_call, followed_ok, Prog.wp_bind, wp_engine]
  simp only [World.answer, World.add]
  cases ha : (o .addSource).add with
  | error e => exact h
  | ok added =>
    obtain ⟨metadata, id⟩ := added
    -- the engine has taken a torrent; whatever fails now is the slip
    have hsafe : s.isLive metadata.hash = false → (o .addSource).fails .torrent = false ∧
        ¬SaveFails (o .addSource) request metadata s := by
      intro hd
      have hnot : ¬((o .addSource).fails .torrent = true ∨
          SaveFails (o .addSource) request metadata s) := fun hf =>
        hns ⟨hdead, fun hsome => hmeta (Option.isSome_iff_exists.mp hsome), metadata, id, ha, hd, hf⟩
      rw [not_or] at hnot
      exact ⟨Bool.eq_false_iff.mpr hnot.1, hnot.2⟩
    have hlive_or : s.isLive metadata.hash = true ∨ s.isLive metadata.hash = false := by
      cases s.isLive metadata.hash <;> simp
    have htaken : s.isLive metadata.hash = true →
        ∀ t state, t.live = s.world.fields.live →
          Agree (((s.take metadata.hash id).setFields t).setState state) :=
      fun hlive t state ht => h.insert_live hlive rfl ht
    simp only [Except.mapError, followed_ok]
    unfold Coordinator.forgetPeers
    rw [Prog.wp_bind, wp_update, followed_ok, Prog.wp_bind, wp_call, followed_ok, Prog.wp_bind,
      wp_state]
    show Prog.followed _ _ (((s.world.state.torrent ((o .addSource).fails .torrent)
      metadata.hash)).mapError _) _
    cases hf : (o .addSource).fails .torrent with
    | true =>
      rcases hlive_or with hlive | hdead
      · exact htaken hlive _ s.world.state rfl
      · rw [(hsafe hdead).1] at hf
        cases hf
    | false =>
      simp only [State.torrent, Bool.false_eq_true, if_false, Except.mapError, followed_ok]
      rw [Prog.wp_bind, wp_call, followed_ok, Prog.wp_bind]
      unfold Coordinator.storedOf
      split
      · next hsave =>
        rw [Prog.wp_bind]
        refine wp_persist (fun state => ?_) fun e state hro he => ?_
        · exact h.insert rfl rfl
        · rcases hlive_or with hlive | hdead
          · exact htaken hlive _ state rfl
          · refine absurd ⟨hsave, hro, e, ?_⟩ (hsafe hdead).2
            rw [Coordinator.withDefaultData_metadata] at he
            exact he
      · exact h.insert rfl rfl

theorem wp_addSource_agree (request : AddTorrent) (source : TorrentSource) (h : Agree s)
    (hns : ¬(s.gate = false ∧ AddSlips o request source s.locked)) :
    Prog.wp (spec ops o Agree) (Coordinator.addSource request source) s fun _ => Agree := by
  refine wp_withGate_agree h fun hgate => ?_
  rw [Prog.wp_bind, wp_call, followed_ok, Prog.wp_bind, wp_fields, followed_ok]
  split
  · exact wp_addLive_agree request _ _ (h.of_eq rfl rfl)
  · next hnone =>
    refine wp_addNew_agree request source (h.of_eq rfl rfl) (fun hslip => hns ⟨hgate, hslip⟩)
      fun hash hhash => ?_
    have hanswer : (s.locked.world.answer ops (o .addSource) (.sourceHash source)).1 =
        sourceHashOf (o .addSource) source := rfl
    rw [hanswer, hhash, Option.bind_some, Option.map_eq_none_iff] at hnone
    exact (congrArg Option.isSome hnone).trans rfl

/-! ### Removing -/

/-- The load that a removal makes first slips. -/
def AttachSlips (o : Activation → Answers ε) (hash : InfoHash) (s : Service σ) : Prop :=
  (o (.removeTorrent hash)).fails .torrent = false ∧ LoadSlips o hash s

/-- A removal fails after the engine's delete. -/
def FailsLate (ops : PieceStore ε σ) (a : Answers ε) (hash : InfoHash) (s : Service σ) : Prop :=
  RemoveFails (s.world.cache.remove ops a.store hash).1 ∨ a.fails .removeTorrent = true

/-- A removal fails late, or it goes through though the engine keeps the torrent
and says it does not hold it. -/
def ReleaseSlips (ops : PieceStore ε σ) (o : Activation → Answers ε) (hash : InfoHash)
    (s : Service σ) : Prop :=
  let a := o (.removeTorrent hash)
  (s.stopPrefetch hash).Unpinned hash ∧ s.isLoaded hash ∧
    ((∃ livePeers, a.delete = .ok livePeers) ∧ FailsLate ops a hash (s.stopPrefetch hash) ∨
      (∃ g, a.delete = .error (.notLoaded g)) ∧ ¬FailsLate ops a hash (s.stopPrefetch hash))

def RemoveSlips (ops : PieceStore ε σ) (o : Activation → Answers ε) (hash : InfoHash)
    (s : Service σ) : Prop :=
  AttachSlips o hash (s.stopIdleDetach hash) ∨
    ∃ s', (Coordinator.attach hash).run (act ops o) (s.stopIdleDetach hash) = (some (.ok ()), s') ∧
      ReleaseSlips ops o hash s'

theorem wp_attach_agree (hash : InfoHash) (h : Agree s) (hns : ¬AttachSlips o hash s) :
    Prog.wp (spec ops o W) (Coordinator.attach hash) s fun _ => Agree := by
  unfold Coordinator.attach
  rw [Prog.wp_bind, wp_call, followed_ok]
  split
  · exact h
  · rw [Prog.wp_bind, wp_call, followed_ok, Prog.wp_bind, wp_state]
    simp only [World.answer, State.torrent]
    cases hf : (o (.removeTorrent hash)).fails .torrent with
    | true => exact h
    | false =>
      simp only [Bool.false_eq_true, if_false, Except.mapError, followed_ok]
      split
      · exact wp_load_agree hash (h.of_eq rfl rfl) fun hl => hns ⟨hf, hl⟩
      · exact h

theorem wp_forgetTorrent_agree {hash : InfoHash}
    (hlate : FailsLate ops (o (.removeTorrent hash)) hash s → Agree s)
    (hdone : ¬FailsLate ops (o (.removeTorrent hash)) hash s → ∀ s' : Service σ,
      s'.world.loaded = s.world.loaded →
      s'.world.fields.live = s.world.fields.live.erase hash → Agree s') :
    Prog.wp (spec ops o W) (Coordinator.forgetTorrent hash) s fun _ => Agree := by
  unfold Coordinator.forgetTorrent
  rw [Prog.wp_bind]
  refine wp_removeCache (fun hnot => ?_) fun e hrf => (hlate (Or.inl hrf)).of_eq rfl rfl
  rw [followed_ok, Prog.wp_bind, wp_call, followed_ok, Prog.wp_bind, wp_state]
  simp only [World.answer, State.removeTorrent]
  cases hf : (o (.removeTorrent hash)).fails .removeTorrent with
  | true => exact (hlate (Or.inr hf)).of_eq rfl rfl
  | false =>
    have hnot' : ¬FailsLate ops (o (.removeTorrent hash)) hash s := by
      rintro (h | h)
      · exact hnot h
      · rw [hf] at h
        cases h
    exact hdone hnot' _ rfl rfl

theorem wp_removeAttached_agree (hash : InfoHash) (h : Agree s)
    (hns : ¬ReleaseSlips ops o hash s) :
    Prog.wp (spec ops o W) (Coordinator.removeAttached hash) s fun _ => Agree := by
  have hk := kept_stopPrefetch hash s
  have h' := hk.agree h
  unfold Coordinator.removeAttached Coordinator.releaseEngine
  rw [Prog.wp_bind, wp_stopPrefetch, followed_ok, Prog.wp_bind]
  refine wp_ensureUnpinned_cases h' fun hunpinned => ?_
  rw [followed_ok, Prog.wp_bind, Prog.wp_bind]
  refine wp_engineDelete ops o (fun habsent => ?_) (fun e hl he => ?_) fun peers hl hd => ?_
  · -- the engine does not hold the torrent, so it is not live either
    refine wp_forgetTorrent_agree (fun _ => h') fun _ s' hloaded hlive => ?_
    exact h'.erase_absent (by unfold isLoaded; rw [habsent]; rfl) hloaded hlive
  · cases e with
    | torrent message => exact h'
    | notLoaded g =>
      refine wp_forgetTorrent_agree (fun _ => h') fun hnot _ _ _ => ?_
      exact absurd ⟨hunpinned, (hk.isLoaded hash).symm.trans hl, Or.inr ⟨⟨g, he⟩, hnot⟩⟩ hns
  · refine wp_forgetTorrent_agree (s := (s.stopPrefetch hash).unload hash) (fun hlate => ?_)
      fun _ s' hloaded hlive => h'.erase hloaded hlive
    exact absurd ⟨hunpinned, (hk.isLoaded hash).symm.trans hl, Or.inl ⟨⟨peers, hd⟩, hlate⟩⟩ hns

theorem wp_removeLocked_agree (hash : InfoHash) (h : Agree s) (hns : ¬RemoveSlips ops o hash s) :
    Prog.wp (spec ops o Agree) (Coordinator.removeLocked hash) s fun _ => Agree := by
  have h' := (kept_stopIdleDetach hash s).agree h
  have hattach := (Prog.wp_iff_run (act ops o)).mp (wp_attach_agree (W := Agree) hash h'
    fun hslip => hns (Or.inl hslip))
  unfold Coordinator.removeLocked
  rw [Prog.wp_bind, wp_stopIdleDetach, followed_ok]
  refine Prog.wp_bind_run (act ops o) (fun s' hs' => ?_) (fun e s' hs' => ?_) fun _ s' hs' => ?_
  · rwa [hs'] at hattach
  · rwa [hs'] at hattach
  · rw [hs'] at hattach
    exact wp_removeAttached_agree hash hattach fun hslip => hns (Or.inr ⟨s', hs', hslip⟩)

end Service

end Rustorr
