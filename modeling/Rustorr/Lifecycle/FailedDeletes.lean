import Rustorr.Lifecycle.Agreement
import Rustorr.Cache.Disk
import Rustorr.Lifecycle.SoftCap
import Rustorr.Lifecycle.Client

/-! Deletes and updates that fail: when an error of the engine or of the database,
raised before anything was released, leaves everything as it was. -/

namespace Rustorr

open Lifecycle (Error)
open Prog (followed_ok followed_error)

/-- Raised by the engine or by the database. -/
def Lifecycle.Error.Raised : Error → Prop
  | .engine _ | .state _ => True
  | _ => False

/-- What an entry holds, whoever reads it. -/
def Cache.Entry.held (e : Cache.Entry) : TorrentLayout × PieceSet × ℕ × Extents :=
  (e.layout, e.pieces, e.stored, e.demanded)

/-- The answer says that something was given up. -/
def Call.released : (c : Call) → c.Ans → Bool
  | .delete _, .ok _ => true
  | .removeCache _, .ok _ => true
  | .removeTorrent _, .ok removed => removed
  | _, _ => false

def Act.released : (Σ a : Act, a.Ans) → Bool
  | ⟨.call _ c, x⟩ => c.released x
  | _ => false

/-- A store with what a removal relies on: it never says of a torrent to remove that
it does not know it. -/
structure Cache.Backing (ε σ : Type) where
  ops : PieceStore ε σ
  knows : ∀ env hash store g, (ops.remove env hash store).1 ≠ .error (.unknownTorrent g)

namespace Cache

variable {ε σ : Type}

def Backing.memory : Backing Unit MemoryStore := ⟨MemoryStore.pieceStore, fun _ _ _ _ => nofun⟩

def Backing.disk : Backing Faults DiskStore where
  ops := DiskStore.pieceStore
  knows faults torrent s g := by
    show (DiskStore.remove faults torrent s).1 ≠ _
    unfold DiskStore.remove
    split
    · nofun
    · next t ht =>
      show (s.fs.removeDir t.dir faults).1 ≠ _
      unfold FileSystem.removeDir
      split
      · nofun
      · split <;> nofun

theorem remove_of_unknown (b : Backing ε σ) {env : ε} {torrent g : InfoHash} {c : Cache σ}
    (h : (c.remove b.ops env torrent).1 = .error (.unknownTorrent g)) :
    (c.remove b.ops env torrent).2 = c := by
  unfold remove at h ⊢
  cases he : c.entry torrent with
  | error e => rfl
  | ok e =>
    rw [he] at h
    dsimp only at h ⊢
    split
    · rfl
    · next hpins =>
      rw [if_neg hpins] at h
      split
      · next error store hr =>
        rw [hr] at h
        have herror : error = .unknownTorrent g := Except.error.inj h
        refine absurd ?_ (b.knows env torrent c.store g)
        rw [hr, herror]
      · next store hr =>
        rw [hr] at h
        cases h

theorem held_dropPin (pin : Pin) (c : Cache σ) (g : InfoHash) :
    ((c.dropPin pin).torrents.lookup g).map Entry.held = (c.torrents.lookup g).map Entry.held := by
  unfold dropPin
  dsimp only
  split
  · rfl
  · next e he =>
    rw [nextTick_torrents] at he
    rw [setEntry_torrents, nextTick_torrents]
    by_cases hg : g = pin.torrent
    · rw [hg, AList.lookup_insert, he]
      rfl
    · rw [AList.lookup_insert_ne hg]

theorem store_dropPin (pin : Pin) (c : Cache σ) : (c.dropPin pin).store = c.store := by
  unfold dropPin
  dsimp only
  split <;> rfl

theorem held_dropPins (pins : List Pin) (c : Cache σ) (g : InfoHash) :
    ((c.dropPins pins).torrents.lookup g).map Entry.held =
      (c.torrents.lookup g).map Entry.held := by
  induction pins generalizing c with
  | nil => rfl
  | cons pin pins ih => exact (ih (c.dropPin pin)).trans (held_dropPin pin c g)

theorem store_dropPins (pins : List Pin) (c : Cache σ) : (c.dropPins pins).store = c.store := by
  induction pins generalizing c with
  | nil => rfl
  | cons pin pins ih => exact (ih (c.dropPin pin)).trans (store_dropPin pin c)

end Cache

namespace Service

variable {ε σ α β : Type} {ops : PieceStore ε σ} {o : Activation → Answers ε}
variable {W : Service σ → Prop} {s s' s'' : Service σ}

/-- The engine's registry, the cache, the catalog and the live map are the same.
Pins and recency are not asked for: a task that is stopped drops its pin. -/
structure Unchanged (s s' : Service σ) : Prop where
  loaded : ∀ hash, s'.world.loaded.lookup hash = s.world.loaded.lookup hash
  store : s'.world.cache.store = s.world.cache.store
  entries : ∀ hash, (s'.world.cache.torrents.lookup hash).map Cache.Entry.held =
    (s.world.cache.torrents.lookup hash).map Cache.Entry.held
  catalog : s'.world.state = s.world.state
  live : ∀ hash, s'.world.fields.live.lookup hash = s.world.fields.live.lookup hash

theorem Unchanged.refl (s : Service σ) : Unchanged s s :=
  ⟨fun _ => rfl, rfl, fun _ => rfl, rfl, fun _ => rfl⟩

theorem Unchanged.trans (h : Unchanged s s') (h' : Unchanged s' s'') : Unchanged s s'' where
  loaded g := (h'.loaded g).trans (h.loaded g)
  store := h'.store.trans h.store
  entries g := (h'.entries g).trans (h.entries g)
  catalog := h'.catalog.trans h.catalog
  live g := (h'.live g).trans (h.live g)

/-- Only the worlds are looked at. -/
theorem Unchanged.of_worlds {t t' : Service σ} (h : Unchanged t t') (hs : t.world = s.world)
    (hs' : t'.world = s'.world) : Unchanged s s' := by
  obtain ⟨hloaded, hstore, hentries, hcatalog, hlive⟩ := h
  rw [hs, hs'] at hloaded hstore hentries hcatalog hlive
  exact ⟨hloaded, hstore, hentries, hcatalog, hlive⟩

theorem unchanged_iff_of_worlds {t t' : Service σ} (hs : t.world = s.world)
    (hs' : t'.world = s'.world) : Unchanged s s' ↔ Unchanged t t' :=
  ⟨fun h => h.of_worlds hs.symm hs'.symm, fun h => h.of_worlds hs hs'⟩

theorem Unchanged.cancel (h : Unchanged s s') (task : Background) :
    Unchanged s (s'.cancel task) :=
  h.trans ⟨fun _ => rfl, Cache.store_dropPins _ _, Cache.held_dropPins _ _, rfl, fun _ => rfl⟩

theorem unchanged_stopIdleDetach (hash : InfoHash) (s : Service σ) :
    Unchanged s (s.stopIdleDetach hash) := by
  have h : Unchanged s (s.unregisterIdle hash) :=
    ⟨fun _ => rfl, rfl, fun _ => rfl, rfl, fun _ => rfl⟩
  unfold stopIdleDetach
  split
  · exact h.cancel _
  · exact h

theorem unchanged_stopPrefetch (hash : InfoHash) (s : Service σ) :
    Unchanged s (s.stopPrefetch hash) := by
  have h : Unchanged s (s.unregisterPrefetch hash) :=
    ⟨fun _ => rfl, rfl, fun _ => rfl, rfl, fun _ => rfl⟩
  unfold stopPrefetch
  split
  · exact h.cancel _
  · exact h

theorem unchanged_stopped (hash : InfoHash) (s : Service σ) : Unchanged s (s.stopped hash) :=
  (unchanged_stopIdleDetach hash s).trans (unchanged_stopPrefetch hash _)

/-- A failure that the engine or the database raised left everything as it was. -/
def Intact (s : Service σ) (r : Except Error α) (s' : Service σ) : Prop :=
  ∀ e, r = .error e → e.Raised → Unchanged s s'

theorem intact_ok (s : Service σ) (a : α) (s' : Service σ) : Intact s (.ok a) s' :=
  fun _ he => nomatch he

theorem intact_cache (s : Service σ) (e : Cache.Error) (s' : Service σ) :
    Intact (α := α) s (.error (.cache e)) s' := by
  intro e' he hraised
  cases he
  exact hraised.elim

theorem Unchanged.intact (h : Unchanged s s') (r : Except Error α) : Intact s r s' :=
  fun _ _ _ => h

/-! ### Dropping and evicting -/

theorem wp_removeCache_cases {caller : Activation} {hash : InfoHash}
    {Q : Except Error Unit → Service σ → Prop} (hok : ∀ cache, Q (.ok ()) (s.setCache cache))
    (hfails : ∀ e cache, Q (.error (.cache e)) (s.setCache cache)) :
    Prog.wp (spec ops o W) (Coordinator.removeCache caller hash) s Q := by
  unfold Coordinator.removeCache
  rw [Prog.wp_bind, wp_call, followed_ok]
  simp only [World.answer]
  split
  · exact hok _
  · exact hok _
  · exact hfails _ _

/-- Once the engine has let go, only the cache can fail a drop. -/
theorem wp_dropCache_intact (hash : InfoHash) (saved : Bool) (s s' : Service σ) :
    Prog.wp (spec ops o W) (do
      Coordinator.dropCache hash saved
      Coordinator.forgetLive hash
      pure saved) s' (Intact s) := by
  unfold Coordinator.dropCache
  rw [Prog.wp_bind, Prog.wp_bind, wp_fields, followed_ok]
  split
  · refine wp_removeCache_cases (fun cache => ?_) fun e cache => ?_
    · exact intact_ok s saved _
    · exact intact_cache s e _
  · exact intact_ok s saved _

theorem wp_dropLocked_intact (hash : InfoHash) :
    Prog.wp (spec ops o W) (Coordinator.dropLocked hash) s (Intact s) := by
  have hstopped := unchanged_stopped hash s
  unfold Coordinator.dropLocked
  rw [Prog.wp_bind, wp_stopIdleDetach, followed_ok, Prog.wp_bind, wp_call, followed_ok,
    Prog.wp_bind, wp_state]
  cases ((s.stopIdleDetach hash).world.answer ops (o (.dropLive hash)) (.torrent hash)).1 with
  | error e => exact (unchanged_stopIdleDetach hash s).intact _
  | ok saved =>
    simp only [Except.mapError, followed_ok]
    show Prog.wp _ (Coordinator.stopPrefetchLocked hash >>= _) (s.stopIdleDetach hash) _
    rw [Prog.wp_bind, wp_stopPrefetch, followed_ok, Prog.wp_bind]
    refine wp_ensureUnpinned_cases (intact_cache s _ _) fun _ => ?_
    rw [followed_ok, Prog.wp_bind]
    refine wp_detach hash (fun _ => ?_) (fun e => hstopped.intact _) fun t _ _ _ _ => ?_
    · exact wp_dropCache_intact hash saved.isSome s _
    · exact wp_dropCache_intact hash saved.isSome s _

theorem wp_freed_intact (hash : InfoHash) (s s' : Service σ) :
    Prog.wp (spec ops o W) (do
      let freed ← Coordinator.cache (← Coordinator.call (.evictLocked hash) (.removeCache hash))
      Coordinator.forgetLive hash
      pure freed) s' (Intact s) := by
  rw [Prog.wp_bind, wp_call, followed_ok, Prog.wp_bind, wp_cache]
  cases (s'.world.answer ops (o (.evictLocked hash)) (.removeCache hash)).1 with
  | error e => exact intact_cache s e _
  | ok freed => exact intact_ok s freed _

theorem wp_evictLocked_intact (hash : InfoHash) :
    Prog.wp (spec ops o W) (Coordinator.evictLocked hash) s (Intact s) := by
  have hstopped := unchanged_stopped hash s
  unfold Coordinator.evictLocked
  rw [Prog.wp_bind, wp_stopIdleDetach, followed_ok, Prog.wp_bind, wp_stopPrefetch, followed_ok,
    Prog.wp_bind]
  show Prog.wp _ _ (s.stopped hash) _
  refine wp_ensureUnpinned_cases (intact_cache s _ _) fun _ => ?_
  rw [followed_ok, Prog.wp_bind]
  refine wp_engineDelete ops o (fun _ => hstopped.intact _) (fun e _ _ => hstopped.intact _)
    fun peers _ _ => ?_
  rw [followed_ok, Prog.wp_bind, wp_engine]
  unfold Coordinator.keepPeers
  simp only [Except.mapError, followed_ok]
  rw [Prog.wp_bind, wp_update, followed_ok]
  exact wp_freed_intact hash s _

/-! ### Updating -/

/-- The live torrent says already what the update says. -/
def Repeats (update : UpdateTorrent) (live : LiveTorrent) : Prop :=
  (if update.title.isEmpty then live.metadata.name else update.title) = live.title ∧
    update.poster = live.poster ∧ update.category = live.category ∧
    (update.data.isEmpty ∨ update.data = live.data)

theorem updateLive_eq_iff (update : UpdateTorrent) (live : LiveTorrent) :
    Coordinator.updateLive update live = live ↔ Repeats update live := by
  unfold Coordinator.updateLive Repeats
  rw [LiveTorrent.mk.injEq]
  constructor
  · rintro ⟨-, htitle, hposter, hcategory, hdata, -⟩
    refine ⟨htitle, hposter, hcategory, ?_⟩
    split at hdata
    · next hempty => exact Or.inl hempty
    · exact Or.inr hdata
  · rintro ⟨htitle, hposter, hcategory, hdata⟩
    refine ⟨rfl, htitle, hposter, hcategory, ?_, rfl⟩
    split
    · rfl
    · next hempty => exact hdata.resolve_left hempty

/-- The live entry as `update_torrent` edits it in place. -/
def edited (hash : InfoHash) (live : LiveTorrent) (s : Service σ) : Service σ :=
  s.setFields { s.world.fields with live := s.world.fields.live.insert hash live }

theorem unchanged_edited_iff {hash : InfoHash} {live live' : LiveTorrent}
    (hlive : s.world.fields.live.lookup hash = some live) :
    Unchanged s (s.edited hash live') ↔ live' = live := by
  constructor
  · intro h
    have hlook := h.live hash
    unfold edited setFields setWorld at hlook
    rw [AList.lookup_insert, hlive] at hlook
    exact Option.some.inj hlook
  · rintro rfl
    refine ⟨fun _ => rfl, rfl, fun _ => rfl, rfl, fun g => ?_⟩
    unfold edited setFields setWorld
    by_cases hg : g = hash
    · rw [hg, AList.lookup_insert, hlive]
    · rw [AList.lookup_insert_ne hg]

theorem saveTorrent_of_error {δ : Type} {fails : Bool} {entry : CatalogEntry}
    {metainfo : List UInt8} {db : State δ} {e : State.Error}
    (h : (db.saveTorrent fails entry metainfo).1 = .error e) :
    (db.saveTorrent fails entry metainfo).2 = db := by
  unfold State.saveTorrent at h ⊢
  split
  · rfl
  · next seconds hseconds =>
    rw [hseconds] at h
    dsimp only at h ⊢
    split
    · rfl
    · next hsize =>
      rw [if_neg hsize] at h
      split
      · rfl
      · next hfails =>
        rw [if_neg hfails] at h
        cases h

/-- A row that the database does not take leaves it as it was. -/
theorem wp_saveTorrent {caller : Activation} {entry : CatalogEntry} {metainfo : List UInt8}
    {Q : Except Error Unit → Service σ → Prop} (hok : ∀ s', Q (.ok ()) s')
    (hfails : ∀ e, Q (.error (.state e)) s) :
    Prog.wp (spec ops o W) (do
      Coordinator.state (← Coordinator.call caller (.saveTorrent entry metainfo))) s Q := by
  rw [Prog.wp_bind, wp_call, followed_ok, wp_state]
  simp only [World.answer]
  cases hr : (s.world.state.saveTorrent ((o caller).fails .saveTorrent) entry metainfo).1 with
  | ok u => exact hok _
  | error e =>
    rw [saveTorrent_of_error hr]
    exact hfails e

theorem wp_persist_cases {caller : Activation} {live : LiveTorrent}
    {Q : Except Error Unit → Service σ → Prop} (hok : ∀ s', Q (.ok ()) s')
    (hfails : ∀ e, Q (.error (.state e)) s) :
    Prog.wp (spec ops o W) (Coordinator.persist caller live) s Q := by
  unfold Coordinator.persist
  rw [Prog.wp_bind, wp_fields, followed_ok]
  split
  · exact hok s
  · exact wp_saveTorrent hok hfails

theorem wp_updateTitle_intact {update : UpdateTorrent} {metainfo : List UInt8}
    {Q : Except Error String → Service σ → Prop} (hQ : ∀ r, Q r s) :
    Prog.wp (spec ops o W) (Coordinator.updateTitle update metainfo) s Q := by
  unfold Coordinator.updateTitle
  split
  · rw [Prog.wp_bind, wp_call, followed_ok, Prog.wp_bind, wp_engine]
    cases (s.world.answer ops (o .updateTorrent) (.inspectMetainfo metainfo)).1 with
    | error e => exact hQ _
    | ok metadata => exact hQ _
  · exact hQ _

theorem wp_updateRow_intact (update : UpdateTorrent) (entry : CatalogEntry) :
    Prog.wp (spec ops o W) (Coordinator.updateRow update entry) s (Intact s) := by
  have hsame : ∀ r : Except Error Unit, Intact s r s := (Unchanged.refl s).intact
  unfold Coordinator.updateRow
  rw [Prog.wp_bind, wp_call, followed_ok, Prog.wp_bind, wp_state]
  show Prog.followed _ _ (((s.world.state.metainfo _ _).mapError _)) s
  cases s.world.state.metainfo ((o .updateTorrent).fails .metainfo) update.hash with
  | error e => exact hsame _
  | ok found =>
    simp only [Except.mapError, followed_ok]
    rw [Prog.wp_bind, wp_okOr]
    cases found with
    | none => exact hsame _
    | some metainfo =>
      rw [Option.elim_some, followed_ok, Prog.wp_bind]
      refine wp_updateTitle_intact fun r => ?_
      cases r with
      | error e => exact hsame _
      | ok title =>
        rw [followed_ok, Prog.wp_bind, wp_fields, followed_ok]
        split
        · exact hsame _
        · exact wp_saveTorrent (fun s' => intact_ok s () s') fun e => hsame _

/-- No live torrent is told anything new. -/
def UpdateClean (update : UpdateTorrent) (s : Service σ) : Prop :=
  ∀ live, s.world.fields.live.lookup update.hash = some live → Repeats update live

/-- A failure that was raised left everything as it was exactly if `P` holds. -/
def IntactIff (P : Prop) (s : Service σ) (r : Except Error α) (s' : Service σ) : Prop :=
  ∀ e, r = .error e → e.Raised → (Unchanged s s' ↔ P)

theorem intactIff_ok (P : Prop) (s : Service σ) (a : α) (s' : Service σ) :
    IntactIff P s (.ok a) s' := fun _ he => nomatch he

theorem Intact.intactIff {P : Prop} {r : Except Error α} (h : Intact s r s') (hP : P) :
    IntactIff P s r s' := fun e he hraised => iff_of_true (h e he hraised) hP

theorem updateClean_iff {update : UpdateTorrent} {live : LiveTorrent}
    (hlive : s.world.fields.live.lookup update.hash = some live)
    (hworld : s'.world = (s.edited update.hash (Coordinator.updateLive update live)).world) :
    Unchanged s s' ↔ UpdateClean update s := by
  rw [unchanged_iff_of_worlds rfl hworld.symm, unchanged_edited_iff hlive, updateLive_eq_iff]
  constructor
  · intro h live' hlive'
    rw [hlive] at hlive'
    cases hlive'
    exact h
  · intro h
    exact h live hlive

/-- The database is asked for the row, and takes it, or nothing happens. -/
theorem wp_persistSaved {hash : InfoHash} {live : LiveTorrent}
    {Q : Except Error Unit → Service σ → Prop} (hok : ∀ s', Q (.ok ()) s')
    (hfails : ∀ e, Q (.error (.state e)) s) :
    Prog.wp (spec ops o W) (do
      if (← Coordinator.state (← Coordinator.call .updateTorrent (.torrent hash))).isSome then
        Coordinator.persist .updateTorrent live
      else pure ()) s Q := by
  rw [Prog.wp_bind, wp_call, followed_ok, Prog.wp_bind, wp_state]
  show Prog.followed _ _ ((s.world.state.torrent _ _).mapError _) s
  cases s.world.state.torrent ((o .updateTorrent).fails .torrent) hash with
  | error e => exact hfails e
  | ok found =>
    simp only [Except.mapError, followed_ok]
    split
    · exact wp_persist_cases hok hfails
    · exact hok s

theorem wp_updateSaved_intact (update : UpdateTorrent) :
    Prog.wp (spec ops o W) (do
      match ← Coordinator.state (← Coordinator.call .updateTorrent (.torrent update.hash)) with
      | some entry => Coordinator.updateRow update entry
      | none => pure ()) s (Intact s) := by
  rw [Prog.wp_bind, wp_call, followed_ok, Prog.wp_bind, wp_state]
  show Prog.followed _ _ ((s.world.state.torrent _ _).mapError _) s
  cases s.world.state.torrent ((o .updateTorrent).fails .torrent) update.hash with
  | error e => exact (Unchanged.refl s).intact _
  | ok found =>
    simp only [Except.mapError, followed_ok]
    cases found with
    | none => exact intact_ok s () s
    | some entry => exact wp_updateRow_intact update entry

theorem wp_updateTorrent_intactIff (update : UpdateTorrent) :
    Prog.wp (spec ops o fun _ => True) (Coordinator.updateTorrent update) s
      (IntactIff (UpdateClean update s) s) := by
  refine wp_withGate ops o (fun _ => trivial) fun _ => ?_
  rw [Prog.wp_bind, wp_atomically, followed_ok]
  dsimp only
  cases hlive : s.world.fields.live.lookup update.hash with
  | some live =>
    -- the live entry says the new values before the database is asked
    refine wp_persistSaved (fun s' => intactIff_ok _ s () _) fun e e' _ _ => ?_
    exact updateClean_iff hlive rfl
  | none =>
    have hclean : UpdateClean update s := fun live h => by
      rw [hlive] at h
      cases h
    refine Prog.wp_mono (spec_monotone ops o _) ?_ (wp_updateSaved_intact update)
    intro r s' hr e he hraised
    exact iff_of_true ((hr e he hraised).of_worlds rfl rfl) hclean

/-! ### Removing -/

/-- A load gives the engine a torrent. -/
def Loads (o : Activation → Answers ε) (hash : InfoHash) (s : Service σ) : Prop :=
  s.isLoaded hash = false ∧ (o (.load hash)).fails .metainfo = false ∧
    (s.world.state.torrents.lookup hash).isSome ∧
    ∃ metadata id, (o (.load hash)).add = .ok (metadata, id) ∧
      s.world.loaded.lookup metadata.hash ≠ some id

/-- The load that a removal makes first gives the engine a torrent. -/
def Attaches (o : Activation → Answers ε) (hash : InfoHash) (s : Service σ) : Prop :=
  (o (.removeTorrent hash)).fails .torrent = false ∧ Loads o hash s

/-- Whatever the load comes to, the engine keeps what it was given. -/
def Attached (o : Activation → Answers ε) (hash : InfoHash) (s s' : Service σ) : Prop :=
  ∃ metadata id, (o (.load hash)).add = .ok (metadata, id) ∧
    s'.world.loaded = s.world.loaded.insert metadata.hash id

theorem wp_revive_loaded {hash : InfoHash} {metadata : TorrentMetadata} :
    Prog.wp (spec ops o W) (Coordinator.revive hash metadata) s fun _ s' =>
      s'.world.loaded = s.world.loaded := by
  unfold Coordinator.revive
  rw [Prog.wp_bind, wp_fields, followed_ok]
  split
  · rfl
  · rw [Prog.wp_bind, wp_call, followed_ok, Prog.wp_bind, wp_state]
    cases (s.world.answer ops (o (.load hash)) (.torrent hash)).1 with
    | error e => rfl
    | ok found => cases found <;> rfl

theorem unchanged_take {hash : InfoHash} {id : ℕ} (h : s.world.loaded.lookup hash = some id) :
    Unchanged s (s.take hash id) := by
  refine ⟨fun g => ?_, rfl, fun _ => rfl, rfl, fun _ => rfl⟩
  unfold take setWorld
  by_cases hg : g = hash
  · rw [hg, AList.lookup_insert, h]
  · rw [AList.lookup_insert_ne hg]

/-- What a load does with the torrent that the engine has taken: it is another one
if the engine held it under this number. -/
theorem wp_taken {hash : InfoHash} {metadata : TorrentMetadata} {id : ℕ}
    {Q : Except Error Unit → Service σ → Prop} (hl : s.isLoaded hash = false)
    (hsame : s.world.loaded.lookup metadata.hash = some id →
      ∀ r, Q r (s.take metadata.hash id))
    (hnew : s.world.loaded.lookup metadata.hash ≠ some id → ∀ r s',
      s'.world.loaded = s.world.loaded.insert metadata.hash id → Q r s') :
    Prog.wp (spec ops o W) (if metadata.hash ≠ hash then Prog.fail (.engine (.notLoaded hash))
      else do
        Coordinator.revive hash metadata
        Coordinator.forgetPeers hash) (s.take metadata.hash id) Q := by
  by_cases hheld : s.world.loaded.lookup metadata.hash = some id
  · have hne : metadata.hash ≠ hash := fun heq => by
      rw [isLoaded, ← heq, hheld] at hl
      cases hl
    rw [if_pos hne]
    exact hsame hheld _
  · split
    · exact hnew hheld _ _ rfl
    · rw [Prog.wp_bind]
      refine Prog.wp_mono (spec_monotone ops o W) (fun r s' hs' => ?_) wp_revive_loaded
      cases r with
      | ok _ => exact hnew hheld _ _ hs'
      | error e => exact hnew hheld _ _ hs'

theorem wp_load_cases {hash : InfoHash} {Q : Except Error Unit → Service σ → Prop}
    (hkept : ¬Loads o hash s → ∀ r s', Unchanged s s' → Q r s')
    (htaken : Loads o hash s → ∀ r s', Attached o hash s s' → Q r s') :
    Prog.wp (spec ops o W) (Coordinator.load hash) s Q := by
  unfold Coordinator.load
  rw [Prog.wp_bind, wp_call, followed_ok]
  split
  · next hl =>
    refine hkept (fun h => ?_) _ _ (Unchanged.refl s)
    have hl' := h.1
    rw [show s.isLoaded hash = true from hl] at hl'
    cases hl'
  · next hl =>
    have hl' : s.isLoaded hash = false := Bool.eq_false_iff.mpr hl
    show Prog.wp _ _ s _
    rw [Prog.wp_bind, wp_call, followed_ok, Prog.wp_bind, wp_state]
    simp only [World.answer, State.metainfo]
    cases hm : (o (.load hash)).fails .metainfo with
    | true =>
      refine hkept (fun h => ?_) _ _ (Unchanged.refl s)
      rw [h.2.1] at hm
      cases hm
    | false =>
      cases hrow : s.world.state.torrents.lookup hash with
      | none =>
        refine hkept (fun h => ?_) _ _ (Unchanged.refl s)
        have hsome := h.2.2.1
        rw [hrow] at hsome
        cases hsome
      | some row =>
        simp only [Bool.false_eq_true, if_false, Except.mapError, followed_ok, Option.map_some]
        rw [Prog.wp_bind, wp_okOr, Option.elim_some, followed_ok]
        unfold Coordinator.peersOf
        rw [Prog.wp_bind, wp_fields, followed_ok, Prog.wp_bind, wp_call, followed_ok]
        show Prog.wp _ _ s _
        rw [Prog.wp_bind, wp_call, followed_ok, Prog.wp_bind, wp_engine]
        simp only [World.answer, World.add]
        cases ha : (o (.load hash)).add with
        | error e =>
          refine hkept (fun hloads => ?_) _ _ (Unchanged.refl s)
          obtain ⟨-, -, -, metadata, id, hok, -⟩ := hloads
          rw [ha] at hok
          cases hok
        | ok added =>
          obtain ⟨metadata, id⟩ := added
          refine wp_taken hl' (fun hsame r => hkept ?_ r _ (unchanged_take hsame))
            fun hnew r s' hs' => ?_
          · rintro ⟨-, -, -, metadata', id', hok, hnew⟩
            rw [ha] at hok
            cases hok
            exact hnew hsame
          · exact htaken ⟨hl', hm, by rw [hrow]; rfl, metadata, id, ha, hnew⟩ r s'
              ⟨metadata, id, ha, hs'⟩

theorem wp_attach_cases {hash : InfoHash} {Q : Except Error Unit → Service σ → Prop}
    (hkept : ¬Attaches o hash s → ∀ r s', Unchanged s s' → Q r s')
    (htaken : Attaches o hash s → ∀ r s', Attached o hash s s' → Q r s') :
    Prog.wp (spec ops o W) (Coordinator.attach hash) s Q := by
  unfold Coordinator.attach
  rw [Prog.wp_bind, wp_call, followed_ok]
  split
  · next hl =>
    refine hkept (fun h => ?_) _ _ (Unchanged.refl s)
    have hl' := h.2.1
    rw [show s.isLoaded hash = true from hl] at hl'
    cases hl'
  · show Prog.wp _ _ s _
    rw [Prog.wp_bind, wp_call, followed_ok, Prog.wp_bind, wp_state]
    simp only [World.answer, State.torrent]
    cases hf : (o (.removeTorrent hash)).fails .torrent with
    | true =>
      refine hkept (fun h => ?_) _ _ (Unchanged.refl s)
      rw [h.1] at hf
      cases hf
    | false =>
      simp only [Bool.false_eq_true, if_false, Except.mapError, followed_ok]
      cases hrow : s.world.state.torrents.lookup hash with
      | none =>
        refine hkept (fun h => ?_) _ _ (Unchanged.refl s)
        have hsome := h.2.2.2.1
        rw [hrow] at hsome
        cases hsome
      | some row =>
        exact wp_load_cases (fun hnot => hkept fun h => hnot h.2) fun h => htaken ⟨hf, h⟩

section released

variable {b : Cache.Backing ε σ}

/-- The acts as far as nothing was given up. -/
abbrev quietSpec (b : Cache.Backing ε σ) (o : Activation → Answers ε) :
    Prog.Spec Act Act.Ans (Service σ) :=
  Prog.Spec.until (fun x => Act.released x = true) (spec b.ops o fun _ => True)

theorem wp_quiet_bind {p : Coordinator.M α} {f : α → Coordinator.M β}
    {Q : Except Error β → Service σ → Prop}
    (h : Prog.wp (spec b.ops o fun _ => True) p s (Prog.followed (fun e => Q (.error e))
      fun a s' => Prog.wp (quietSpec b o) (f a) s' Q)) :
    Prog.wp (quietSpec b o) (p >>= f) s Q :=
  Prog.wp_until_bind (spec_monotone b.ops o _) h

theorem wp_quiet_call (caller : Activation) (c : Call)
    (Q : Except Error c.Ans → Service σ → Prop) :
    Prog.wp (α := no_index c.Ans) (quietSpec b o) (Coordinator.call caller c) s Q =
      (¬c.released (s.world.answer b.ops (o caller) c).1 = true →
        Q (.ok (s.world.answer b.ops (o caller) c).1)
          (s.setWorld (s.world.answer b.ops (o caller) c).2)) := rfl

theorem wp_quiet_withGate {body : Coordinator.M α} {Q : Except Error α → Service σ → Prop}
    (hbody : Prog.wp (quietSpec b o) body { s with gate := true }
      fun r s' => Q r { s' with gate := false }) :
    Prog.wp (quietSpec b o) (Coordinator.withGate body) s Q := by
  unfold Coordinator.withGate
  refine wp_quiet_bind ?_
  rw [wp_lock]
  split
  · trivial
  · rw [followed_ok, Prog.wp_bind, Prog.wp_attempt]
    refine Prog.wp_mono (Prog.Spec.monotone_until (spec_monotone b.ops o _))
      (fun r s' hr => ?_) hbody
    refine wp_quiet_bind ?_
    rw [wp_unlock, followed_ok, Prog.wp_ofExcept]
    exact hr

theorem wp_quiet_releaseEngine {hash : InfoHash} {Q : Except Error Unit → Service σ → Prop}
    (hok : Q (.ok ()) s) (hfails : ∀ e, Q (.error (.engine e)) s) :
    Prog.wp (quietSpec b o) (Coordinator.releaseEngine hash) s Q := by
  unfold Coordinator.releaseEngine Coordinator.engineDelete
  rw [Prog.wp_bind, Prog.wp_bind, wp_quiet_call]
  intro hnot
  simp only [World.answer] at hnot ⊢
  cases hd : s.world.delete (o (.removeTorrent hash)) hash with
  | ok deleted =>
    rw [hd] at hnot
    exact absurd rfl hnot
  | error e =>
    cases e with
    | torrent message => exact hfails _
    | notLoaded g => exact hok

theorem wp_quiet_removeCache {caller : Activation} {hash : InfoHash}
    {Q : Except Error Unit → Service σ → Prop} (hok : Q (.ok ()) s)
    (hfails : ∀ e s', Q (.error (.cache e)) s') :
    Prog.wp (quietSpec b o) (Coordinator.removeCache caller hash) s Q := by
  unfold Coordinator.removeCache
  rw [Prog.wp_bind, wp_quiet_call]
  intro hnot
  simp only [World.answer, followed_ok] at hnot ⊢
  split
  · next n hr =>
    rw [hr] at hnot
    exact absurd rfl hnot
  · next g hr =>
    rw [Cache.remove_of_unknown b hr]
    exact hok
  · exact hfails _ _

/-- Where nothing is given up, the last thing that can fail is the catalog. -/
theorem wp_quiet_forgetTorrent {hash : InfoHash} (h : Unchanged s s') :
    Prog.wp (quietSpec b o) (Coordinator.forgetTorrent hash) s' (Intact s) := by
  unfold Coordinator.forgetTorrent
  rw [Prog.wp_bind]
  refine wp_quiet_removeCache ?_ fun e => intact_cache s e
  rw [followed_ok]
  refine Prog.wp_until (spec_monotone b.ops o _) ?_
  rw [Prog.wp_bind, wp_call, followed_ok, Prog.wp_bind, wp_state]
  simp only [World.answer, State.removeTorrent]
  cases (o (.removeTorrent hash)).fails .removeTorrent with
  | true => exact (h.trans ⟨fun _ => rfl, rfl, fun _ => rfl, rfl, fun _ => rfl⟩).intact _
  | false => exact intact_ok s _ _

theorem wp_quiet_removeAttached {hash : InfoHash} :
    Prog.wp (quietSpec b o) (Coordinator.removeAttached hash) s (Intact s) := by
  have hstopped := unchanged_stopPrefetch hash s
  unfold Coordinator.removeAttached
  refine wp_quiet_bind ?_
  rw [wp_stopPrefetch, followed_ok]
  refine wp_quiet_bind (wp_ensureUnpinned_cases (intact_cache s _ _) fun _ => ?_)
  rw [followed_ok, Prog.wp_bind]
  refine wp_quiet_releaseEngine ?_ fun e => hstopped.intact _
  exact wp_quiet_forgetTorrent hstopped

/-- A failed removal leaves everything as it was unless it began with a load that
gave the engine a torrent: the torrent stays. -/
theorem wp_quiet_removeLocked (hash : InfoHash) :
    Prog.wp (quietSpec b o) (Coordinator.removeLocked hash) s
      (IntactIff (¬Attaches o hash s) s) := by
  have hstop := unchanged_stopIdleDetach hash s
  have hattaches : Attaches o hash (s.stopIdleDetach hash) ↔ Attaches o hash s := by
    unfold Attaches Loads
    rw [(kept_stopIdleDetach hash s).isLoaded, (kept_stopIdleDetach hash s).state,
      (kept_stopIdleDetach hash s).loaded]
  unfold Coordinator.removeLocked
  refine wp_quiet_bind ?_
  rw [wp_stopIdleDetach, followed_ok]
  refine wp_quiet_bind (wp_attach_cases (fun hnot r s1 h1 => ?_) fun htakes r s1 h1 => ?_)
  · have hclean : ¬Attaches o hash s := fun h => hnot (hattaches.mpr h)
    have h := hstop.trans h1
    cases r with
    | error e => exact (h.intact _).intactIff hclean
    | ok _ =>
      refine Prog.wp_mono (Prog.Spec.monotone_until (spec_monotone b.ops o _))
        (fun r s2 h2 e he hraised => ?_) wp_quiet_removeAttached
      exact iff_of_true (h.trans (h2 e he hraised)) hclean
  · obtain ⟨metadata, id, hadd, hloaded⟩ := h1
    have htakes' := hattaches.mp htakes
    -- the engine keeps the torrent that it did not hold under this number
    have hchanged : ∀ s2, Unchanged s1 s2 → ¬Unchanged s s2 := by
      intro s2 h2 h
      obtain ⟨-, -, -, -, metadata', id', hadd', hnew⟩ := htakes'
      rw [hadd] at hadd'
      cases hadd'
      have hlook := h2.loaded metadata.hash
      rw [hloaded, AList.lookup_insert] at hlook
      exact hnew ((h.loaded metadata.hash).symm.trans hlook)
    cases r with
    | error e =>
      exact fun _ _ _ => iff_of_false (hchanged s1 (Unchanged.refl s1)) fun h => h htakes'
    | ok _ =>
      refine Prog.wp_mono (Prog.Spec.monotone_until (spec_monotone b.ops o _))
        (fun r s2 h2 e he hraised => ?_) wp_quiet_removeAttached
      exact iff_of_false (hchanged s2 (h2 e he hraised)) fun h => h htakes'

theorem wp_quiet_removeTorrent (hash : InfoHash) :
    Prog.wp (quietSpec b o) (Coordinator.removeTorrent hash) s
      (IntactIff (¬Attaches o hash s) s) := by
  unfold Coordinator.removeTorrent
  refine wp_quiet_bind ?_
  rw [wp_fields, followed_ok]
  split
  · exact intactIff_ok _ s false s
  · refine wp_quiet_withGate ?_
    refine Prog.wp_mono (Prog.Spec.monotone_until (spec_monotone b.ops o _))
      (fun r s' hr e he hraised => ?_) (wp_quiet_removeLocked hash)
    refine Iff.trans ?_ (hr e he hraised)
    exact unchanged_iff_of_worlds rfl rfl

theorem wp_withGate_intact {body : Coordinator.M α}
    (hbody : ∀ s, Prog.wp (spec ops o fun _ => True) body s (Intact s)) :
    Prog.wp (spec ops o fun _ => True) (Coordinator.withGate body) s (Intact s) := by
  refine wp_withGate ops o (fun _ => trivial) fun _ => ?_
  refine Prog.wp_mono (spec_monotone ops o _) (fun r s' hr e he hraised => ?_) (hbody _)
  exact (hr e he hraised).of_worlds rfl rfl

end released

/-! ### Every one of them -/

/-- The operations that give a torrent up or edit it. -/
inductive Change
  | dropLive (hash : InfoHash)
  | removeTorrent (hash : InfoHash)
  | evict (hash : InfoHash)
  | updateTorrent (update : UpdateTorrent)

def Change.body : Change → Coordinator.M Unit
  | .dropLive hash => do let _ ← Coordinator.dropLive hash
  | .removeTorrent hash => do let _ ← Coordinator.removeTorrent hash
  | .evict hash => do let _ ← Coordinator.evict hash
  | .updateTorrent update => Coordinator.updateTorrent update

/-- A removal loads nothing first, and an update tells no live torrent anything new. -/
def Change.Clean (o : Activation → Answers ε) (s : Service σ) : Change → Prop
  | .dropLive _ => True
  | .removeTorrent hash => ¬Attaches o hash s
  | .evict _ => True
  | .updateTorrent update => UpdateClean update s

theorem wp_quiet_discard {b : Cache.Backing ε σ} {p : Coordinator.M α} {P : Prop}
    (hp : Prog.wp (quietSpec b o) p s (IntactIff P s)) :
    Prog.wp (quietSpec b o) (do let _ ← p : Coordinator.M Unit) s (IntactIff P s) := by
  rw [Prog.wp_bind]
  refine Prog.wp_mono (Prog.Spec.monotone_until (spec_monotone b.ops o _)) (fun r s' hr => ?_) hp
  cases r with
  | ok a => exact intactIff_ok P s () s'
  | error e => exact fun e' he' => hr e' (by cases he'; rfl)

theorem wp_quiet_change (b : Cache.Backing ε σ) (c : Change) :
    Prog.wp (quietSpec b o) c.body s (IntactIff (c.Clean o s) s) := by
  have hmono := spec_monotone b.ops o fun _ : Service σ => True
  have hintact : ∀ {β : Type} {p : Coordinator.M β}, Prog.wp (spec b.ops o fun _ => True) p s
      (Intact s) → Prog.wp (quietSpec b o) p s (IntactIff True s) := fun h =>
    Prog.wp_until hmono (Prog.wp_mono hmono (fun r s' hr => hr.intactIff trivial) h)
  cases c with
  | dropLive hash =>
    exact wp_quiet_discard (hintact (wp_withGate_intact fun _ => wp_dropLocked_intact hash))
  | removeTorrent hash => exact wp_quiet_discard (wp_quiet_removeTorrent hash)
  | evict hash =>
    exact wp_quiet_discard (hintact (wp_withGate_intact fun _ => wp_evictLocked_intact hash))
  | updateTorrent update => exact Prog.wp_until hmono (wp_updateTorrent_intactIff update)

/-- An operation that fails with an error of the engine or of the database, before
anything was released, leaves everything as it was exactly if it is clean. -/
theorem failed_change_intact_iff (b : Cache.Backing ε σ) (o : Activation → Answers ε)
    (s s' : Service σ) (c : Change) (e : Error)
    (hrun : c.body.run (act b.ops o) s = (some (.error e), s')) (hraised : e.Raised)
    (hquiet : (c.body.trace (act b.ops o) s).any Act.released = false) :
    Unchanged s s' ↔ c.Clean o s :=
  Prog.of_wp_until (act b.ops o) (wp_quiet_change b c) (List.any_eq_false.mp hquiet) hrun e
    rfl hraised

/-- A service with one torrent, saved and live. -/
def savedService : Service MemoryStore :=
  Mealy.after (step MemoryStore.pieceStore) smallService
    [(calm, .addSource ⟨"", "", "", "", true⟩ (.magnet ""))]

/-- The engine fails to give the torrent up. -/
def busy : Activation → Answers Unit := fun a => { calm a with delete := .error (.torrent "busy") }

theorem failed_change_intact_iff_busy :
    Unchanged savedService ((Change.evict savedTorrent).body.run
      (act MemoryStore.pieceStore busy) savedService).2 :=
  (failed_change_intact_iff Cache.Backing.memory busy savedService _ (.evict savedTorrent)
    (.engine (.torrent "busy")) rfl trivial rfl).mpr trivial

/-- The catalog takes no row. -/
def unwritable : Activation → Answers Unit := fun a =>
  { calm a with fails := fun q => q = .saveTorrent }

/-- A live torrent is renamed, and the database fails: the live map keeps the name
that the caller was told was not taken. -/
theorem failed_update_keeps_title :
    let c := Change.updateTorrent ⟨savedTorrent, "b", "", "", ""⟩
    let run := c.body.run (act MemoryStore.pieceStore unwritable) savedService
    run.1 = some (.error (.state (.database "save torrent"))) ∧
      (c.body.trace (act MemoryStore.pieceStore unwritable) savedService).any Act.released = false ∧
      ¬Unchanged savedService run.2 := by
  intro c run
  refine ⟨rfl, rfl, fun h => ?_⟩
  have hlook := congrArg (Option.map LiveTorrent.title) (h.live savedTorrent)
  have hnew : (run.2.world.fields.live.lookup savedTorrent).map LiveTorrent.title = some "b" := rfl
  have hold : (savedService.world.fields.live.lookup savedTorrent).map LiveTorrent.title =
    some "a" := rfl
  rw [hnew, hold] at hlook
  revert hlook
  decide

end Service

end Rustorr
