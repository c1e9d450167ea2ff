import Rustorr.Cache.Eviction
import Rustorr.Cache.Memory
import Rustorr.Lifecycle.Registration

/-! The soft cap: what `evict_to_cap` frees when neither the store nor the
engine fails, and exactly when the cache is within its cap afterwards. -/

namespace Rustorr

open Lifecycle (Error)
open Prog (followed_ok followed_error)
open Cache (dropPins)

namespace Service

variable {ε σ α : Type} {ops : PieceStore ε σ} {o : Activation → Answers ε} {W : Service σ → Prop}

/-- A step that changes at most what the pins of tasks and recency say. -/
structure Quiet (s s' : Service σ) : Prop where
  loaded : s'.world.loaded = s.world.loaded
  gate : s'.gate = s.gate
  capBytes : s'.world.cache.capBytes = s.world.cache.capBytes
  storedBytes : s'.world.cache.storedBytes = s.world.cache.storedBytes
  tally : ∀ h, s'.world.cache.tally h = s.world.cache.tally h

theorem Quiet.trans {s s' s'' : Service σ} (h : Quiet s s') (h' : Quiet s' s'') : Quiet s s'' where
  loaded := h'.loaded.trans h.loaded
  gate := h'.gate.trans h.gate
  capBytes := h'.capBytes.trans h.capBytes
  storedBytes := h'.storedBytes.trans h.storedBytes
  tally := fun g => (h'.tally g).trans (h.tally g)

theorem quiet_setFields (t : TorrentCoordinator) (s : Service σ) : Quiet s (s.setFields t) :=
  ⟨rfl, rfl, rfl, rfl, fun _ => rfl⟩

/-- Stopping a task of an unpinned torrent: its pins are of that torrent. -/
theorem quiet_cancel {s : Service σ} (h : Registered s) {task : Background} {stored : ℕ}
    (ht : s.world.cache.tally task.hash = some (stored, 0)) : Quiet s (s.cancel task) := by
  refine ⟨rfl, rfl, Cache.dropPins_capBytes _ _, Cache.storedBytes_dropPins _ _, fun g => ?_⟩
  have hpins : ∀ pin ∈ (s.tasks.filter fun t => t.1 = task).filterMap Prod.snd,
      pin.torrent = task.hash := by
    intro pin hpin
    obtain ⟨t, hmem, hsnd⟩ := List.mem_filterMap.mp hpin
    obtain ⟨hmem, htask⟩ := List.mem_filter.mp hmem
    refine h.pins task pin ?_
    rw [← of_decide_eq_true htask, ← hsnd]
    exact hmem
  unfold cancel
  rw [Cache.tally_dropPins hpins]
  by_cases hg : g = task.hash
  · simp [hg, ht]
  · simp [hg]

theorem wp_stop (stored : ℕ) {s : Service σ} (h : Registered s) {hash : InfoHash}
    (ht : s.world.cache.tally hash = some (stored, 0)) {found : Option PrefetchTask}
    (hfound : ∀ task, found = some task → task.handle.hash = hash)
    {Q : Except Error Unit → Service σ → Prop}
    (hQ : ∀ s', Quiet s s' → Registered s' → Q (.ok ()) s') :
    Prog.wp (spec ops o W) (match found with
      | some task => Coordinator.act (.cancel task.handle)
      | none => pure ()) s Q := by
  cases found with
  | none => exact hQ s ⟨rfl, rfl, rfl, rfl, fun _ => rfl⟩ h
  | some task =>
    show Q (.ok ()) (s.cancel task.handle)
    have ht' : s.world.cache.tally task.handle.hash = some (stored, 0) := by
      rw [hfound task rfl]
      exact ht
    refine hQ _ (quiet_cancel h ht') ?_
    exact registered_act ops o (a := .cancel task.handle) trivial h

theorem wp_stopPrefetchLocked {s : Service σ} (h : Registered s) {hash : InfoHash} {stored : ℕ}
    (ht : s.world.cache.tally hash = some (stored, 0)) {Q : Except Error Unit → Service σ → Prop}
    (hQ : ∀ s', Quiet s s' → Registered s' → Q (.ok ()) s') :
    Prog.wp (spec ops o W) (Coordinator.stopPrefetchLocked hash) s Q := by
  unfold Coordinator.stopPrefetchLocked
  rw [Prog.wp_bind, wp_atomically, followed_ok]
  refine wp_stop stored ?_ ?_ (fun task => h.fields.prefetches hash task) fun s' hq => hQ s' ?_
  · exact ⟨⟨registered_erase h.fields.prefetches, h.fields.idleDetaches⟩, h.pins⟩
  · exact ht
  · exact (quiet_setFields _ s).trans hq

theorem wp_stopIdleDetachLocked {s : Service σ} (h : Registered s) {hash : InfoHash} {stored : ℕ}
    (ht : s.world.cache.tally hash = some (stored, 0)) {Q : Except Error Unit → Service σ → Prop}
    (hQ : ∀ s', Quiet s s' → Registered s' → Q (.ok ()) s') :
    Prog.wp (spec ops o W) (Coordinator.stopIdleDetachLocked hash) s Q := by
  unfold Coordinator.stopIdleDetachLocked
  rw [Prog.wp_bind, wp_atomically, followed_ok]
  refine wp_stop stored ?_ ?_ (fun task => h.fields.idleDetaches hash task) fun s' hq => hQ s' ?_
  · exact ⟨⟨h.fields.prefetches, registered_erase h.fields.idleDetaches⟩, h.pins⟩
  · exact ht
  · exact (quiet_setFields _ s).trans hq

theorem wp_ensureUnpinned {s : Service σ} {caller : Activation} {hash : InfoHash} {stored : ℕ}
    (ht : s.world.cache.tally hash = some (stored, 0)) {Q : Except Error Unit → Service σ → Prop}
    (hQ : Q (.ok ()) s) : Prog.wp (spec ops o W) (Coordinator.ensureUnpinned caller hash) s Q := by
  obtain ⟨e, he, -, hpins⟩ := Cache.tally_eq_some.mp ht
  have hok : s.world.cache.ensureUnpinned hash = .ok () :=
    Cache.ensureUnpinned_eq_ok.mpr ⟨e, he, hpins⟩
  unfold Coordinator.ensureUnpinned
  rw [Prog.wp_bind, wp_call, followed_ok]
  simp only [World.answer, hok]
  exact hQ

/-- What evicting an unpinned torrent comes to: its bytes go if the engine holds
it, and nothing changes if not. -/
structure Evicted (hash : InfoHash) (s s' : Service σ) : Prop where
  loaded : ∀ g, g ≠ hash → s'.world.loaded.lookup g = s.world.loaded.lookup g
  capBytes : s'.world.cache.capBytes = s.world.cache.capBytes
  freed : s'.world.cache.storedBytes +
    (if (s.world.loaded.lookup hash).isSome then s.world.cache.storedOf hash else 0) =
      s.world.cache.storedBytes
  tally : ∀ g, s'.world.cache.tally g =
    if g = hash ∧ (s.world.loaded.lookup hash).isSome then none else s.world.cache.tally g

theorem Evicted.of_quiet {hash : InfoHash} {s s' s'' : Service σ} (hq : Quiet s s')
    (h : Evicted hash s' s'') : Evicted hash s s'' where
  loaded g hg := by rw [h.loaded g hg, hq.loaded]
  capBytes := by rw [h.capBytes, hq.capBytes]
  freed := by
    have := h.freed
    rwa [hq.loaded, hq.storedBytes, Cache.storedOf, hq.tally] at this
  tally g := by rw [h.tally g, hq.loaded, hq.tally]

theorem storedOf_eq {c : Cache σ} {hash : InfoHash} {stored pins : ℕ}
    (ht : c.tally hash = some (stored, pins)) : c.storedOf hash = stored := by
  rw [Cache.storedOf, ht]
  rfl

theorem wp_evictLocked {s : Service σ} (h : Registered s) {hash : InfoHash} {stored : ℕ}
    (ht : s.world.cache.tally hash = some (stored, 0)) {livePeers : List SocketAddr}
    (hdelete : (o (.evictLocked hash)).delete = .ok livePeers)
    (hstore : ∀ store, (ops.remove (o (.evictLocked hash)).store hash store).1 = .ok ()) :
    Prog.wp (spec ops o W) (Coordinator.evictLocked hash) s fun _ s' => Evicted hash s s' ∧ Registered s' := by
  refine Prog.wp_invariant (act ops o) (fun _ _ => registered_act ops o)
    (Coordinator.registers_evictLocked hash) h ?_
  unfold Coordinator.evictLocked
  rw [Prog.wp_bind]
  refine wp_stopIdleDetachLocked h ht fun s1 hq1 h1 => ?_
  rw [followed_ok, Prog.wp_bind]
  refine wp_stopPrefetchLocked h1 ((hq1.tally hash).trans ht) fun s2 hq2 h2 => ?_
  have hq := hq1.trans hq2
  have ht2 := (hq.tally hash).trans ht
  rw [followed_ok, Prog.wp_bind]
  refine wp_ensureUnpinned ht2 ?_
  rw [followed_ok, Prog.wp_bind]
  refine wp_engineDelete ops o (fun habsent => ?_) (fun e _ herror => ?_) fun peers hloaded hok => ?_
  · simp only [followed_ok, Coordinator.engine, Except.mapError, Prog.ofExcept]
    refine Evicted.of_quiet hq ⟨fun _ _ => rfl, rfl, ?_, fun g => ?_⟩
    · simp [habsent]
    · simp [habsent]
  · rw [hdelete] at herror
    cases herror
  · obtain ⟨hok, hfreed, hcap, htally⟩ := Cache.remove_unpinned ht2 (hstore s2.world.cache.store)
    simp only [followed_ok, Coordinator.engine, Except.mapError, Prog.ofExcept,
      Coordinator.keepPeers, Prog.wp_bind, wp_update, wp_call, World.answer]
    show Prog.wp _ (Coordinator.cache (Cache.remove ops (o (.evictLocked hash)).store hash
      s2.world.cache).1) _ _
    rw [hok]
    refine Evicted.of_quiet hq ⟨fun g hg => ?_, hcap, ?_, fun g => ?_⟩
    · exact AList.lookup_erase_ne hg
    · rw [if_pos hloaded, storedOf_eq ht2]
      exact hfreed
    · simp only [hloaded, and_true]
      exact htally g

def holds (s : Service σ) (hash : InfoHash) : Bool := (s.world.loaded.lookup hash).isSome

/-- The environment of the soft cap: deleting a loaded torrent succeeds, and the
store removes what it is asked to. -/
def Reliable (ops : PieceStore ε σ) (o : Activation → Answers ε) : Prop :=
  ∀ a, (∃ livePeers, (o a).delete = .ok livePeers) ∧
    ∀ hash store, (ops.remove (o a).store hash store).1 = .ok ()

/-- What evicting a list of unpinned torrents comes to. -/
structure Freed (hashes : List InfoHash) (s s' : Service σ) : Prop where
  capBytes : s'.world.cache.capBytes = s.world.cache.capBytes
  freed : s'.world.cache.storedBytes + ((hashes.filter s.holds).map s.world.cache.storedOf).sum =
    s.world.cache.storedBytes
  tally : ∀ g, s'.world.cache.tally g =
    if g ∈ hashes ∧ s.holds g then none else s.world.cache.tally g

theorem Freed.cons {hash : InfoHash} {hashes : List InfoHash} (hnotin : hash ∉ hashes)
    {s s' s'' : Service σ} (h : Evicted hash s s') (h' : Freed hashes s' s'') :
    Freed (hash :: hashes) s s'' := by
  have hne : ∀ g ∈ hashes, g ≠ hash := fun g hg heq => hnotin (heq ▸ hg)
  have hholds : ∀ g ∈ hashes, s'.holds g = s.holds g := fun g hg => by
    rw [holds, h.loaded g (hne g hg), holds]
  have hstored : ∀ g ∈ hashes, s'.world.cache.storedOf g = s.world.cache.storedOf g := fun g hg => by
    rw [Cache.storedOf, h.tally g, if_neg fun hand => hne g hg hand.1, Cache.storedOf]
  have hsum : ((hashes.filter s'.holds).map s'.world.cache.storedOf).sum =
      ((hashes.filter s.holds).map s.world.cache.storedOf).sum := by
    rw [List.filter_congr hholds]
    exact congrArg List.sum (List.map_congr_left fun g hg => hstored g (List.mem_of_mem_filter hg))
  refine ⟨h'.capBytes.trans h.capBytes, ?_, fun g => ?_⟩
  · have hfirst := h.freed
    have hrest := h'.freed
    rw [hsum] at hrest
    by_cases hl : s.holds hash = true
    · have hl' : (s.world.loaded.lookup hash).isSome = true := hl
      rw [if_pos hl'] at hfirst
      rw [List.filter_cons_of_pos hl, List.map_cons, List.sum_cons]
      omega
    · have hl' : ¬(s.world.loaded.lookup hash).isSome = true := hl
      rw [if_neg hl'] at hfirst
      rw [List.filter_cons_of_neg hl]
      omega
  · rw [h'.tally g, h.tally g]
    by_cases hg : g = hash
    · subst hg
      simp [hnotin, holds]
    · by_cases hmem : g ∈ hashes
      · simp [hg, hmem, hholds g hmem]
      · simp [hg, hmem]

theorem wp_evictAll (hrel : Reliable ops o) {hashes : List InfoHash} (hnodup : hashes.Nodup)
    {s : Service σ} (h : Registered s)
    (hidle : ∀ hash ∈ hashes, ∃ stored, s.world.cache.tally hash = some (stored, 0)) :
    Prog.wp (spec ops o W)
      (hashes.forM fun hash => Coordinator.logged (Coordinator.evictLocked hash)) s
      fun r s' => r = .ok ⟨⟩ ∧ Freed hashes s s' := by
  induction hashes generalizing s with
  | nil => exact ⟨rfl, rfl, rfl, fun g => by simp⟩
  | cons hash hashes ih =>
    obtain ⟨hnotin, hnodup⟩ := List.nodup_cons.mp hnodup
    obtain ⟨stored, ht⟩ := hidle hash List.mem_cons_self
    obtain ⟨⟨livePeers, hdelete⟩, hstore⟩ := hrel (.evictLocked hash)
    show Prog.wp _ (Coordinator.logged (Coordinator.evictLocked hash) >>= fun _ =>
      hashes.forM fun hash => Coordinator.logged (Coordinator.evictLocked hash)) s _
    unfold Coordinator.logged
    rw [Prog.wp_bind, Prog.wp_bind, Prog.wp_attempt]
    refine Prog.wp_mono (spec_monotone ops o W) ?_ (wp_evictLocked h ht hdelete (hstore hash))
    rintro r s' ⟨hev, hreg⟩
    have hidle' : ∀ g ∈ hashes, ∃ stored, s'.world.cache.tally g = some (stored, 0) := by
      intro g hg
      rw [hev.tally g, if_neg fun hand : g = hash ∧ _ => hnotin (hand.1 ▸ hg)]
      exact hidle g (List.mem_cons_of_mem _ hg)
    show Prog.wp _ (hashes.forM fun hash => Coordinator.logged (Coordinator.evictLocked hash)) s' _
    refine Prog.wp_mono (spec_monotone ops o W) ?_ (ih hnodup hreg hidle')
    rintro r' s'' ⟨hr, hfreed⟩
    exact ⟨hr, Freed.cons hnotin hev hfreed⟩

theorem wp_evictToCap (hrel : Reliable ops o) {s : Service σ} (h : Registered s) :
    Prog.wp (spec ops o fun _ => True) Coordinator.evictToCap s fun r s' =>
      r = .ok ⟨⟩ ∧ Freed s.world.cache.evictionCandidates s s' := by
  refine wp_withGate ops o (fun _ => trivial) fun _ => ?_
  rw [Prog.wp_bind, wp_call, followed_ok]
  refine Prog.wp_mono (spec_monotone ops o _) ?_ (wp_evictAll hrel
    (s := { s with gate := true }) (Cache.nodup_candidates s.world.cache) ⟨h.fields, h.pins⟩
    fun hash hmem => ?_)
  · rintro r s' ⟨hr, hfreed⟩
    exact ⟨hr, hfreed.capBytes, hfreed.freed, hfreed.tally⟩
  · obtain ⟨stored, -, ht⟩ := Cache.tally_of_mem_candidates hmem
    exact ⟨stored, ht⟩

/-- What the engine still holds among the candidates suffices, either because
it is all of them or by its size. -/
def CanFree (s : Service σ) : Prop :=
  (∀ hash ∈ s.world.cache.evictionCandidates, s.holds hash) ∨
    s.world.cache.storedBytes ≤ s.world.cache.capBytes +
      ((s.world.cache.evictionCandidates.filter s.holds).map s.world.cache.storedOf).sum

theorem Freed.withinCap_iff {s s' : Service σ}
    (h : Freed s.world.cache.evictionCandidates s s') : s'.world.cache.WithinCap ↔ s.CanFree := by
  have hfreed := h.freed
  have hbytes : s'.world.cache.storedBytes ≤ s'.world.cache.capBytes ↔
      s.world.cache.storedBytes ≤ s.world.cache.capBytes +
        ((s.world.cache.evictionCandidates.filter s.holds).map s.world.cache.storedOf).sum := by
    rw [h.capBytes]
    omega
  rw [Cache.withinCap_iff, hbytes]
  constructor
  · rintro (hle | hpinned)
    · exact Or.inr hle
    · refine Or.inl fun hash hmem => ?_
      by_contra hnot
      obtain ⟨stored, hpos, ht⟩ := Cache.tally_of_mem_candidates hmem
      -- the torrent is still there, unpinned and with its bytes
      have hkept : s'.world.cache.tally hash = some (stored, 0) := by
        rw [h.tally hash, if_neg fun hand => hnot hand.2, ht]
      exact absurd (hpinned hash stored 0 hkept hpos) (lt_irrefl 0)
  · rintro (hall | hle)
    · have hfilter : s.world.cache.evictionCandidates.filter s.holds =
          s.world.cache.evictionCandidates := List.filter_eq_self.mpr hall
      rw [hfilter]
      rcases Cache.candidates_spec s.world.cache with hsum | hcover
      · exact Or.inl hsum
      · refine Or.inr fun g stored pins hg hpos => ?_
        rw [h.tally g] at hg
        split at hg
        · cases hg
        · next hnot =>
          by_contra hzero
          obtain rfl : pins = 0 := by omega
          have hmem := hcover g stored hg hpos
          exact hnot ⟨hmem, hall g hmem⟩
    · exact Or.inl hle

/-- After any history of a coordinator, an `evict_to_cap` that returns leaves the
cache within its cap exactly when the engine holds the candidates that matter. -/
theorem evictToCap_withinCap_iff (ops : PieceStore ε σ) (fails : Bool × Bool) (store : σ)
    (capBytes : ℕ) (state : State Settings) (readOnly : Bool)
    (history : List ((Activation → Answers ε) × Op)) (o : Activation → Answers ε)
    (hrel : Reliable ops o) (r : Except Error Unit) :
    let s := Mealy.after (step ops)
      (new (TorrentCoordinator.new fails store capBytes state readOnly)) history
    (step ops s (o, .evictToCap)).1 = some r →
      ((step ops s (o, .evictToCap)).2.world.cache.WithinCap ↔ s.CanFree) := by
  intro s hreturns
  have hreg : Registered s := Mealy.after_invariant (step ops) (P := Registered)
    (fun _ op h => registered_step ops h op) (registered_new fails store capBytes state readOnly)
    history
  obtain ⟨-, -, hfreed⟩ := perform_of_wp (wp_evictToCap hrel hreg) hreturns
  exact hfreed.withinCap_iff

def savedTorrent : InfoHash := ⟨List.replicate 20 1, InfoHash.length_ones⟩

theorem savedLayout_lt : 2 < 2 ^ 64 := by decide

theorem savedLayout_pieces : 1 < 2 ^ 32 := by decide

def savedLayout : TorrentLayout :=
  ⟨2, [2], 2, 1, by decide, savedLayout_lt, by decide, savedLayout_lt, by decide,
    savedLayout_pieces⟩

/-- An environment in which nothing fails. -/
def calm : Activation → Answers Unit := fun _ =>
  let metadata : TorrentMetadata := ⟨savedTorrent, [], "a", [⟨0, "a", 2⟩], []⟩
  ⟨some savedTorrent, [], 0, .ok (metadata, 0), .ok metadata, .ok 2, .ok [], fun _ => false, ()⟩

theorem calm_reliable : Reliable MemoryStore.pieceStore calm :=
  fun _ => ⟨⟨[], rfl⟩, fun _ _ => rfl⟩

def smallService : Service MemoryStore :=
  new (TorrentCoordinator.new (false, false) MemoryStore.new 1 State.empty false)

/-- A saved torrent stores two bytes over a cap of one and is then detached. -/
def detachHistory : List ((Activation → Answers Unit) × Op) :=
  [(calm, .traffic savedTorrent (.openTorrent savedLayout)),
    (calm, .addSource ⟨"", "", "", "", true⟩ (.magnet "")),
    (calm, .traffic savedTorrent (.write ⟨0⟩ 0 [7, 7])),
    (calm, .dropLive savedTorrent)]

/-- The engine no longer has the torrent, so its bytes stay, over the cap and
without a pin. -/
theorem detachedTorrent_stays :
    let s := Mealy.after (step MemoryStore.pieceStore) smallService detachHistory
    let s' := (step MemoryStore.pieceStore s (calm, .evictToCap)).2
    Reliable MemoryStore.pieceStore calm ∧
      (step MemoryStore.pieceStore s (calm, .evictToCap)).1 = some (.ok ()) ∧
      s'.world.cache.tally savedTorrent = some (2, 0) ∧ ¬s'.world.cache.WithinCap := by
  intro s s'
  have htally : s'.world.cache.tally savedTorrent = some (2, 0) := by decide
  have hbytes : ¬s'.world.cache.storedBytes ≤ s'.world.cache.capBytes := by decide
  refine ⟨calm_reliable, rfl, htally, fun hwithin => ?_⟩
  rcases (Cache.withinCap_iff _).mp hwithin with hle | hpinned
  · exact hbytes hle
  · exact absurd (hpinned savedTorrent 2 0 htally (by decide)) (lt_irrefl 0)

/-- While the torrent is in the engine its bytes can go. -/
theorem evictToCap_withinCap_iff_loaded :
    let s := Mealy.after (step MemoryStore.pieceStore) smallService (detachHistory.take 3)
    (step MemoryStore.pieceStore s (calm, .evictToCap)).2.world.cache.WithinCap ↔ s.CanFree :=
  evictToCap_withinCap_iff MemoryStore.pieceStore (false, false) MemoryStore.new 1 State.empty false
    (detachHistory.take 3) calm calm_reliable (.ok ()) rfl

end Service

end Rustorr
