import Rustorr.Cache.Accounting
import Rustorr.Cache.Pinned

/-! Removal from a cache over a disk store: what a deletion that fails leaves of the
torrent, until the next removal and for the store of a later process. -/

namespace Rustorr

open Cache (Error)

/-! ### Where an operation reaches -/

namespace FileSystem

theorem removeDir_other (fs : FileSystem) (name : List Char) (faults : Faults) {n : List Char}
    (hn : n ≠ name) : (fs.removeDir name faults).2.entries n = fs.entries n := by
  unfold removeDir
  split
  · rfl
  · split <;> exact set_of_ne _ _ hn

theorem createDirAll_other (fs : FileSystem) (name : List Char) (faults : Faults) {n : List Char}
    (hn : n ≠ name) : (fs.createDirAll name faults).2.entries n = fs.entries n := by
  unfold createDirAll
  split
  · rfl
  · split
    · exact set_of_ne _ _ hn
    · rfl

end FileSystem

namespace Disk

theorem writeManifest_other (fs : FileSystem) (t : Torrent) (faults : Faults) {n : List Char}
    (hn : n ≠ t.dir) : (writeManifest fs t faults).2.entries n = fs.entries n := by
  unfold writeManifest
  split
  · rfl
  · split
    · rfl
    · dsimp only
      split
      · exact FileSystem.set_of_ne _ _ hn
      · split
        · exact FileSystem.set_of_ne _ _ hn
        · split <;> exact FileSystem.set_of_ne _ _ hn

theorem writeFile_other (fs : FileSystem) (name : List Char) (index offset : ℕ)
    (data : List UInt8) (faults : Faults) {n : List Char} (hn : n ≠ name) :
    (writeFile fs name index offset data faults).2.entries n = fs.entries n := by
  unfold writeFile
  split
  · rfl
  · split
    · rfl
    · dsimp only
      split <;> exact FileSystem.set_of_ne _ _ hn

end Disk

namespace DiskStore

open Disk

/-- Every record is about the directory of its torrent. -/
def Placed (s : DiskStore) : Prop := ∀ h t, s.torrents.lookup h = some t → t.dir = h.toText

/-- Only the record and the directory of `g` have changed. -/
structure Confined (g : InfoHash) (s s' : DiskStore) : Prop where
  records : ∀ k ≠ g, s'.torrents.lookup k = s.torrents.lookup k
  dirs : ∀ n ≠ g.toText, s'.fs.entries n = s.fs.entries n
  placed : ∀ t, s'.torrents.lookup g = some t → t.dir = g.toText

variable {s s' : DiskStore} {g : InfoHash}

theorem Placed.confined (hs : Placed s) (g : InfoHash) : Confined g s s :=
  ⟨fun _ _ => rfl, fun _ _ => rfl, hs g⟩

theorem Placed.of_confined (hs : Placed s) (h : Confined g s s') : Placed s' := by
  intro k t ht
  by_cases hk : k = g
  · rw [hk] at ht ⊢
    exact h.placed t ht
  · rw [h.records k hk] at ht
    exact hs k t ht

theorem confined_insert {t : Torrent} {fs : FileSystem} (ht : t.dir = g.toText)
    (hfs : ∀ n ≠ g.toText, fs.entries n = s.fs.entries n) :
    Confined g s ⟨s.torrents.insert g t, fs⟩ where
  records k hk := AList.lookup_insert_ne hk
  dirs := hfs
  placed t' ht' := by
    have heq : t = t' := by simpa using ht'
    exact heq ▸ ht

theorem Placed.confined_fs (hs : Placed s) {fs : FileSystem}
    (hfs : ∀ n ≠ g.toText, fs.entries n = s.fs.entries n) : Confined g s { s with fs := fs } :=
  ⟨fun _ _ => rfl, hfs, hs g⟩

theorem dir_of_restoreTorrent {fs : FileSystem} {name : List Char} {layout : TorrentLayout}
    {faults : Faults} {t : Torrent} {stored : ℕ}
    (h : restoreTorrent fs name layout faults = some (t, stored)) : t.dir = name := by
  unfold restoreTorrent at h
  split at h
  · cases h
  · cases h
    rfl

theorem confined_openTorrent (hs : Placed s) (faults : Faults) (g : InfoHash)
    (layout : TorrentLayout) : Confined g s (openTorrent faults g layout s).2 := by
  unfold openTorrent
  dsimp only
  generalize hrestored : (if decide (g ∈ s.torrents) = true then none
    else restoreTorrent s.fs g.toText layout faults) = restored
  generalize hcleared : (if restored.isNone = true then s.fs.removeDir g.toText faults
    else (Except.ok (), s.fs)) = cleared
  obtain ⟨result, fs⟩ := cleared
  have hfs : ∀ n ≠ g.toText, fs.entries n = s.fs.entries n := by
    intro n hn
    split at hcleared
    · have hsame := s.fs.removeDir_other g.toText faults hn
      rwa [hcleared] at hsame
    · rw [← (Prod.mk.inj hcleared).2]
  have hdir : (restored.getD (emptyTorrent g.toText layout, 0)).1.dir = g.toText := by
    cases hr : restored with
    | none => rfl
    | some r =>
      obtain ⟨t, stored⟩ := r
      rw [hr] at hrestored
      split at hrestored
      · cases hrestored
      · exact dir_of_restoreTorrent hrestored
  cases result with
  | error e => exact hs.confined_fs hfs
  | ok _ =>
    dsimp only
    have hcreate : ∀ n ≠ g.toText,
        (fs.createDirAll g.toText faults).2.entries n = s.fs.entries n :=
      fun n hn => (fs.createDirAll_other g.toText faults hn).trans (hfs n hn)
    split
    · next e fs' h =>
      rw [h] at hcreate
      exact hs.confined_fs hcreate
    · next fs' h =>
      rw [h] at hcreate
      exact confined_insert hdir hcreate

theorem lookup_of_torrent {t : Torrent} (h : s.torrent g = .ok t) :
    s.torrents.lookup g = some t := by
  unfold DiskStore.torrent at h
  split at h
  · next t' ht' =>
    cases h
    exact ht'
  · cases h

theorem confined_write (hs : Placed s) (faults : Faults) (g : InfoHash) (file : FileIndex)
    (offset : U64) (data : List UInt8) : Confined g s (write faults g file offset data s).2 := by
  unfold write
  split
  · exact hs.confined g
  · next t ht =>
    have hdir : t.dir = g.toText := hs g t (lookup_of_torrent ht)
    split
    · exact hs.confined g
    · split
      · exact hs.confined g
      · have hfile : ∀ n ≠ g.toText, (writeFile s.fs t.dir file.zeroBased offset data
            faults).2.entries n = s.fs.entries n :=
          fun n hn => writeFile_other _ _ _ _ _ _ (hdir ▸ hn)
        split
        · next e fs h =>
          rw [h] at hfile
          exact hs.confined_fs hfile
        · next fs h =>
          rw [h] at hfile
          refine confined_insert hdir fun n hn => ?_
          exact (writeManifest_other _ _ _ (hdir ▸ hn)).trans (hfile n hn)

theorem confined_pieceCompleted (hs : Placed s) (faults : Faults) (g : InfoHash)
    (piece : PieceIndex) : Confined g s (pieceCompleted faults g piece s).2 := by
  unfold pieceCompleted
  split
  · exact hs.confined g
  · next t ht =>
    have hdir : t.dir = g.toText := hs g t (lookup_of_torrent ht)
    split
    · exact confined_insert hdir fun n hn => writeManifest_other _ _ _ (hdir ▸ hn)
    · exact hs.confined g

theorem confined_remove (hs : Placed s) (faults : Faults) (g : InfoHash) :
    Confined g s (remove faults g s).2 := by
  unfold remove
  split
  · exact hs.confined g
  · next t ht =>
    refine ⟨fun k hk => AList.lookup_erase_ne hk, fun n hn => ?_, fun t' ht' => ?_⟩
    · exact s.fs.removeDir_other _ faults (hs g t ht ▸ hn)
    · have hnone : (s.torrents.erase g).lookup g = none := AList.lookup_erase _ _
      rw [show (s.torrents.erase g).lookup g = some t' from ht'] at hnone
      cases hnone

end DiskStore

/-! ### A torrent the store has forgotten -/

namespace Cache

open DiskStore

def Op.torrent : Op → InfoHash
  | .openTorrent torrent _ | .write torrent _ _ _ | .read torrent _ _ _
  | .pieceCompleted torrent _ | .pin torrent _ | .remove torrent => torrent
  | .dropPin held => held.torrent

variable {c : Cache DiskStore} {h : InfoHash}

theorem confined_step (hc : Placed c.store) (op : Faults × Op) :
    Confined op.2.torrent c.store (step c op).2.store := by
  obtain ⟨faults, op⟩ := op
  cases op with
  | openTorrent g layout =>
    have hopen := confined_openTorrent hc faults g layout
    show Confined g c.store (c.openTorrent DiskStore.pieceStore faults g layout).2.store
    unfold openTorrent
    split
    · exact hc.confined g
    · split
      · next e store hstore =>
        rw [show DiskStore.openTorrent faults g layout c.store = _ from hstore] at hopen
        exact hopen
      · next recovered store hstore =>
        rw [show DiskStore.openTorrent faults g layout c.store = _ from hstore] at hopen
        dsimp only
        split <;> exact hopen
  | write g file offset data =>
    have hwrite := confined_write hc faults g file offset data
    show Confined g c.store (c.write DiskStore.pieceStore faults g file offset data).2.store
    unfold write
    split
    · exact hc.confined g
    · split
      · next e store hstore =>
        rw [show DiskStore.write faults g file offset data c.store = _ from hstore] at hwrite
        exact hwrite
      · next added store hstore =>
        rw [show DiskStore.write faults g file offset data c.store = _ from hstore] at hwrite
        exact hwrite
  | read g file offset len =>
    show Confined g c.store (c.read DiskStore.pieceStore faults g file offset len).2.store
    unfold read
    dsimp only
    split <;> exact hc.confined g
  | pieceCompleted g piece =>
    have hpiece := confined_pieceCompleted hc faults g piece
    show Confined g c.store (c.pieceCompleted DiskStore.pieceStore faults g piece).2.store
    unfold pieceCompleted
    split
    · next e store hstore =>
      rw [show DiskStore.pieceCompleted faults g piece c.store = _ from hstore] at hpiece
      exact hpiece
    · next store hstore =>
      rw [show DiskStore.pieceCompleted faults g piece c.store = _ from hstore] at hpiece
      dsimp only
      split
      · exact hpiece
      · split <;> exact hpiece
  | pin g range =>
    show Confined g c.store (c.pinInner g range).2.store
    rw [pinInner_store]
    exact hc.confined g
  | dropPin pin =>
    show Confined pin.torrent c.store (c.dropPin pin).store
    rw [dropPin_store]
    exact hc.confined pin.torrent
  | remove g =>
    have hremove := confined_remove hc faults g
    show Confined g c.store (c.remove DiskStore.pieceStore faults g).2.store
    unfold remove
    split
    · exact hc.confined g
    · split
      · exact hc.confined g
      · split
        · next e store hstore =>
          rw [show DiskStore.remove faults g c.store = _ from hstore] at hremove
          exact hremove
        · next store hstore =>
          rw [show DiskStore.remove faults g c.store = _ from hstore] at hremove
          exact hremove

theorem placed_after (fs : FileSystem) (capBytes : ℕ) (ops : List (Faults × Op)) :
    Placed (Mealy.after step (new (DiskStore.new fs) capBytes) ops).store := by
  have hstep : ∀ (c : Cache DiskStore) (op : Faults × Op), Placed c.store →
      Placed (step c op).2.store := fun c op hc => hc.of_confined (confined_step hc op)
  have hnew : Placed (DiskStore.new fs) := fun h t ht => by cases ht
  exact Mealy.after_invariant step (P := fun c : Cache DiskStore => Placed c.store) hstep hnew ops

/-- The registry has the torrent, the store has no record of it, and `dir` is what stands
in its place on the disk. -/
structure Forgotten (h : InfoHash) (dir : Option Dir) (c : Cache DiskStore) : Prop where
  placed : Placed c.store
  registered : ∃ e, c.torrents.lookup h = some e
  record : c.store.torrents.lookup h = none
  left : c.store.fs.entries h.toText = dir

theorem torrent_of_forgotten {s : DiskStore} (hs : s.torrents.lookup h = none) :
    s.torrent h = .error (.unknownTorrent h) := by
  unfold DiskStore.torrent
  rw [hs]

/-- Nothing that is asked of a forgotten torrent reaches the disk. -/
theorem Forgotten.store_eq {dir : Option Dir} (hc : Forgotten h dir c) {op : Faults × Op}
    (hop : op.2.torrent = h) : (step c op).2.store = c.store := by
  obtain ⟨faults, op⟩ := op
  obtain ⟨e, he⟩ := hc.registered
  have hunknown := torrent_of_forgotten hc.record
  cases op with
  | openTorrent g layout =>
    obtain rfl : g = h := hop
    simp only [step, openTorrent, he]
  | write g file offset data =>
    obtain rfl : g = h := hop
    simp only [step, write, entry, he, DiskStore.pieceStore, DiskStore.write, hunknown]
  | read g file offset len =>
    obtain rfl : g = h := hop
    simp only [step, read, entry, nextTick_torrents, he, setEntry_store, nextTick_store]
  | pieceCompleted g piece =>
    obtain rfl : g = h := hop
    simp only [step, pieceCompleted, DiskStore.pieceStore, DiskStore.pieceCompleted, hunknown]
  | pin g range => exact pinInner_store g range c
  | dropPin pin => exact dropPin_store pin c
  | remove g =>
    obtain rfl : g = h := hop
    simp only [step, remove, entry, he, DiskStore.pieceStore, DiskStore.remove, hc.record]
    split <;> rfl

theorem registered_step {e : Entry} (he : c.torrents.lookup h = some e) {op : Faults × Op}
    (hop : op.2 ≠ .remove h) : ∃ e', (step c op).2.torrents.lookup h = some e' := by
  obtain ⟨faults, op⟩ := op
  have hkept : Kept h c (step c (faults, op)).2 ∨ ∃ g, g ≠ h ∧ op = .remove g := by
    cases op with
    | openTorrent g layout => exact Or.inl ((undisturbed_openTorrent g layout c).kept h)
    | write g file offset data => exact Or.inl ((undisturbed_write g file offset data c).kept h)
    | read g file offset len =>
      exact Or.inl ((@undisturbed_read _ _ DiskStore.pieceStore faults g file offset len c).kept h)
    | pieceCompleted g piece => exact Or.inl ((undisturbed_pieceCompleted g piece c).kept h)
    | pin g range => exact Or.inl (kept_pinInner h g range c)
    | dropPin pin => exact Or.inl (kept_dropPin h pin c)
    | remove g => exact Or.inr ⟨g, fun hg => hop (by rw [hg]), rfl⟩
  rcases hkept with hkept | ⟨g, hg, rfl⟩
  · obtain ⟨e', he', -⟩ := hkept e he
    exact ⟨e', he'⟩
  · refine ⟨e, ?_⟩
    show (c.remove DiskStore.pieceStore faults g).2.torrents.lookup h = some e
    unfold remove
    split
    · exact he
    · split
      · exact he
      · split
        · exact he
        · exact (AList.lookup_erase_ne (Ne.symm hg)).trans he

theorem Forgotten.step {dir : Option Dir} (hc : Forgotten h dir c) {op : Faults × Op}
    (hop : op.2 ≠ .remove h) : Forgotten h dir (step c op).2 := by
  obtain ⟨e, he⟩ := hc.registered
  have hconfined := confined_step hc.placed op
  refine ⟨hc.placed.of_confined hconfined, registered_step he hop, ?_, ?_⟩
  · by_cases hself : op.2.torrent = h
    · rw [hc.store_eq hself, hc.record]
    · rw [hconfined.records h (Ne.symm hself), hc.record]
  · by_cases hself : op.2.torrent = h
    · rw [hc.store_eq hself, hc.left]
    · rw [hconfined.dirs h.toText fun heq => hself (InfoHash.toText_injective heq.symm), hc.left]

theorem Forgotten.after {dir : Option Dir} (hc : Forgotten h dir c) {ops : List (Faults × Op)}
    (hops : ∀ op ∈ ops, op.2 ≠ .remove h) : Forgotten h dir (Mealy.after Cache.step c ops) := by
  induction ops generalizing c with
  | nil => exact hc
  | cons op ops ih =>
    rw [Mealy.after_cons]
    exact ih (hc.step (hops op List.mem_cons_self)) fun o ho => hops o (List.mem_cons_of_mem _ ho)

end Cache

/-! ### What a later process recovers -/

namespace DiskStore

open Disk

/-- A store that opens the torrent over these directories finds nothing of it. -/
def RecoversNothing (fs : FileSystem) (h : InfoHash) : Prop :=
  ∀ faults layout found, (openTorrent faults h layout (new fs)).1 = .ok found → found = ⟨0, []⟩

theorem openTorrent_new_congr {fs fs' : FileSystem} {h : InfoHash}
    (heq : fs'.entries h.toText = fs.entries h.toText) (faults : Faults) (layout : TorrentLayout) :
    (openTorrent faults h layout (new fs')).1 = (openTorrent faults h layout (new fs)).1 := by
  have hrestore : restoreTorrent fs' h.toText layout faults =
      restoreTorrent fs h.toText layout faults := by
    unfold restoreTorrent
    split
    · next hr' =>
      rw [heq] at hr'
      split
      · rfl
      · next hr => cases hr'.symm.trans hr
    · next hr' =>
      rw [heq] at hr'
      split
      · next hr => cases hr'.symm.trans hr
      · next hr =>
        cases hr'.symm.trans hr
        rfl
  have hremove : (fs'.removeDir h.toText faults).1 = (fs.removeDir h.toText faults).1 := by
    unfold FileSystem.removeDir
    rw [heq]
    split
    · rfl
    · split <;> rfl
  have hcreate : ∀ fs₁ fs₂ : FileSystem,
      (fs₁.createDirAll h.toText faults).1 = (fs₂.createDirAll h.toText faults).1 := by
    intro fs₁ fs₂
    unfold FileSystem.createDirAll
    split
    · rfl
    · cases fs₁.entries h.toText <;> cases fs₂.entries h.toText <;> rfl
  have hnew : ∀ fs, decide (h ∈ (new fs).torrents) = false := fun fs => by
    simp [new]
  unfold openTorrent
  simp only [hnew, Bool.false_eq_true, if_false]
  rw [show restoreTorrent (new fs').fs h.toText layout faults =
    restoreTorrent (new fs).fs h.toText layout faults from hrestore]
  generalize restoreTorrent (new fs).fs h.toText layout faults = restored
  have hcleared : (if restored.isNone = true then (new fs').fs.removeDir h.toText faults
      else (.ok (), (new fs').fs)).1 = (if restored.isNone = true then
        (new fs).fs.removeDir h.toText faults else (.ok (), (new fs).fs)).1 := by
    split
    · exact hremove
    · rfl
  generalize (if restored.isNone = true then (new fs').fs.removeDir h.toText faults
    else (Except.ok (), (new fs').fs)) = cleared' at hcleared ⊢
  generalize (if restored.isNone = true then (new fs).fs.removeDir h.toText faults
    else (Except.ok (), (new fs).fs)) = cleared at hcleared ⊢
  obtain ⟨result', fs₁⟩ := cleared'
  obtain ⟨result, fs₂⟩ := cleared
  obtain rfl : result' = result := hcleared
  cases result' with
  | error e => rfl
  | ok _ =>
    have hsame := hcreate fs₁ fs₂
    dsimp only
    cases h₁ : fs₁.createDirAll h.toText faults with
    | mk r₁ d₁ =>
      cases h₂ : fs₂.createDirAll h.toText faults with
      | mk r₂ d₂ =>
        rw [h₁, h₂] at hsame
        obtain rfl : r₁ = r₂ := hsame
        cases r₁ <;> rfl

theorem RecoversNothing.congr {fs fs' : FileSystem} {h : InfoHash} (hfs : RecoversNothing fs h)
    (heq : fs'.entries h.toText = fs.entries h.toText) : RecoversNothing fs' h := by
  intro faults layout found hopen
  rw [openTorrent_new_congr heq] at hopen
  exact hfs faults layout found hopen

end DiskStore

/-! ### Removals that fail -/

namespace Cache

open DiskStore

variable {c : Cache DiskStore} {h : InfoHash} {faults : Faults}

/-- What could be read of a torrent still can, and what could be written. -/
structure Usable (h : InfoHash) (c c' : Cache DiskStore) : Prop where
  read : ∀ file offset len data, (c.read DiskStore.pieceStore .none h file offset len).1 = .ok data →
    (c'.read DiskStore.pieceStore .none h file offset len).1 = .ok data
  write : ∀ file offset data, (c.write DiskStore.pieceStore .none h file offset data).1 = .ok () →
    (c'.write DiskStore.pieceStore .none h file offset data).1 = .ok ()

/-- Where the store fails the removal, the torrent stays registered and usable, and the
next removal that succeeds leaves nothing of it to a later process. -/
def Recoverable (faults : Faults) (h : InfoHash) (c : Cache DiskStore) : Prop :=
  ∀ context source c', c.remove DiskStore.pieceStore faults h = (.error (.io context source), c') →
    h ∈ c'.torrents ∧ Usable h c c' ∧
    ∀ ops : List (Faults × Op), (∀ op ∈ ops, op.2 ≠ .remove h) → ∀ faults' freed c'',
      (Mealy.after step c' ops).remove DiskStore.pieceStore faults' h = (.ok freed, c'') →
        RecoversNothing c''.store.fs h

/-- Only a deletion that fails makes the store fail a removal. -/
theorem loses_of_remove {context : String} {source : IoKind} {c' : Cache DiskStore}
    (hremove : c.remove DiskStore.pieceStore faults h = (.error (.io context source), c')) :
    Loses c (faults, .remove h) := by
  have hresult := congrArg Prod.fst hremove
  show faults.removeDir ≠ none ∧ _
  cases he : c.torrents.lookup h with
  | none =>
    simp only [remove, entry, he] at hresult
    cases hresult
  | some e =>
    by_cases hpins : e.pins > 0
    · simp only [remove, entry, he, hpins, if_true] at hresult
      cases hresult
    · simp only [remove, entry, he, hpins, if_false, DiskStore.pieceStore, DiskStore.remove] at hresult
      cases ht : c.store.torrents.lookup h with
      | none =>
        simp only [ht] at hresult
        cases hresult
      | some t =>
        simp only [ht, FileSystem.removeDir] at hresult
        cases hdir : c.store.fs.entries t.dir with
        | none =>
          simp only [hdir] at hresult
          cases hresult
        | some dir =>
          cases hfault : faults.removeDir with
          | none =>
            simp only [hdir, hfault] at hresult
            cases hresult
          | some rest =>
            exact ⟨Option.some_ne_none rest, e, t, rfl, Nat.eq_zero_of_not_pos hpins, rfl, by rw [hdir]; rfl⟩

/-- The store has forgotten the torrent when it reports that the deletion failed. -/
theorem remove_of_loses (hc : Placed c.store) (hloses : Loses c (faults, .remove h)) :
    ∃ c', c.remove DiskStore.pieceStore faults h =
        (.error (.io "remove cache directory" .other), c') ∧
      c'.torrents = c.torrents ∧ c'.store.fs = (c.store.fs.removeDir h.toText faults).2 ∧
      Forgotten h ((c.store.fs.removeDir h.toText faults).2.entries h.toText) c' := by
  have hplaced := hc.of_confined (confined_remove hc faults h)
  obtain ⟨hfault, e, t, he, hpins, ht, hdir⟩ := hloses
  have hname : t.dir = h.toText := hc h t ht
  obtain ⟨dir, hdir⟩ := Option.isSome_iff_exists.mp hdir
  obtain ⟨rest, hrest⟩ : ∃ rest, faults.removeDir = some rest := Option.ne_none_iff_exists'.mp hfault
  have hfails : c.store.fs.removeDir t.dir faults = (.error (.io "remove cache directory" .other),
      (c.store.fs.removeDir t.dir faults).2) := by
    simp only [FileSystem.removeDir, hdir, hrest]
  have hstore : DiskStore.remove faults h c.store =
      (.error (.io "remove cache directory" .other),
        ⟨c.store.torrents.erase h, (c.store.fs.removeDir t.dir faults).2⟩) := by
    simp only [DiskStore.remove, ht]
    rw [hfails]
  refine ⟨{ c with store := ⟨c.store.torrents.erase h, (c.store.fs.removeDir t.dir faults).2⟩ },
    ?_, rfl, by rw [hname], ?_, ⟨e, he⟩, AList.lookup_erase _ _, by rw [hname]⟩
  · simp only [remove, entry, he, hpins, gt_iff_lt, lt_irrefl, if_false, DiskStore.pieceStore, hstore]
  · rw [hstore] at hplaced
    exact hplaced

/-- The first file of a torrent that has one can always be read, if only for no bytes. -/
theorem read_nothing {t : Disk.Torrent} {e : Entry} (he : c.torrents.lookup h = some e)
    (ht : c.store.torrents.lookup h = some t) (hfiles : t.layout.fileCount ≠ 0) :
    (c.read DiskStore.pieceStore .none h ⟨0⟩ 0 0).1 = .ok [] := by
  have hcount : 0 < t.layout.fileLengths.length := Nat.pos_of_ne_zero hfiles
  have hlength : t.layout.fileLength ⟨0⟩ = some t.layout.fileLengths[0] :=
    List.getElem?_eq_getElem hcount
  have hrange : t.layout.checkRange h ⟨0⟩ 0 0 = .ok ⟨0, 0, le_rfl, by decide⟩ := by
    unfold TorrentLayout.checkRange
    rw [hlength]
    rfl
  have hcovers : ∀ x : Extents, x.covers ⟨0, 0, le_rfl, by decide⟩ = true := fun x => by
    simp [Extents.covers, Extents.Raw.covers, ByteRange.isEmpty]
  have hread : DiskStore.read .none h ⟨0⟩ 0 0 c.store = .ok [] := by
    unfold DiskStore.read DiskStore.torrent
    simp only [ht]
    rw [show t.layout.checkRange h ⟨0⟩ ((0 : U64) : ℕ) 0 = _ from hrange]
    simp only [hcovers, Bool.not_true, Bool.false_eq_true, if_false, if_true]
  unfold read entry
  simp only [nextTick_torrents, he, setEntry_store, nextTick_store]
  exact hread

theorem Forgotten.read {dir : Option Dir} (hc : Forgotten h dir c) (file : FileIndex)
    (offset : U64) (len : ℕ) :
    (c.read DiskStore.pieceStore faults h file offset len).1 = .error (.unknownTorrent h) := by
  obtain ⟨e, he⟩ := hc.registered
  have hunknown := torrent_of_forgotten hc.record
  simp only [Cache.read, entry, nextTick_torrents, he, setEntry_store, nextTick_store,
    DiskStore.pieceStore, DiskStore.read, hunknown]

/-- Without files there is no range to read or to write. -/
theorem usable_of_no_files {c' : Cache DiskStore} {t : Disk.Torrent}
    (ht : c.store.torrents.lookup h = some t) (hfiles : t.layout.fileCount = 0) :
    Usable h c c' := by
  have hnil : t.layout.fileLengths = [] := List.eq_nil_of_length_eq_zero hfiles
  have hcheck : ∀ file offset len, t.layout.checkRange h file offset len =
      .error (.unknownFile h file) := by
    intro file offset len
    unfold TorrentLayout.checkRange TorrentLayout.fileLength
    rw [hnil]
    rfl
  have hrecord : c.store.torrent h = .ok t := by
    unfold DiskStore.torrent
    rw [ht]
  constructor
  · intro file offset len data hread
    exfalso
    unfold Cache.read at hread
    cases he : c.nextTick.entry h with
    | error e =>
      simp only [he] at hread
      cases hread
    | ok e =>
      simp only [he, setEntry_store, nextTick_store, DiskStore.pieceStore, DiskStore.read, hrecord,
        hcheck] at hread
      cases hread
  · intro file offset data hwrite
    exfalso
    unfold Cache.write at hwrite
    cases he : c.entry h with
    | error e =>
      simp only [he] at hwrite
      cases hwrite
    | ok e =>
      simp only [he, DiskStore.pieceStore, DiskStore.write, hrecord, hcheck] at hwrite
      cases hwrite

/-- A removal asked again succeeds, and deletes nothing. -/
theorem Forgotten.remove_ok {dir : Option Dir} (hc : Forgotten h dir c) {e : Entry}
    (he : c.torrents.lookup h = some e) (hpins : e.pins = 0) :
    ∃ c'', c.remove DiskStore.pieceStore faults h = (.ok e.stored, c'') ∧ c''.store = c.store := by
  refine ⟨{ c with torrents := c.torrents.erase h }, ?_, rfl⟩
  simp only [remove, entry, he, hpins, gt_iff_lt, lt_irrefl, if_false, DiskStore.pieceStore,
    DiskStore.remove, hc.record]

/-- Where the deletion fails, a torrent that has files is not usable afterwards, and what is
left on the disk stays there. -/
theorem not_recoverable (hc : Placed c.store) (hloses : Loses c (faults, .remove h))
    (hleft : (∃ t, c.store.torrents.lookup h = some t ∧ t.layout.fileCount ≠ 0) ∨
      ¬RecoversNothing (c.store.fs.removeDir h.toText faults).2 h) : ¬Recoverable faults h c := by
  intro hrec
  obtain ⟨c', hremove, htorrents, hfs, hforgotten⟩ := remove_of_loses hc hloses
  obtain ⟨-, e, t, he, hpins, ht, -⟩ := hloses
  obtain ⟨-, husable, hlater⟩ := hrec _ _ c' hremove
  rcases hleft with ⟨t', ht', hfiles⟩ | hleft
  · have hread := husable.read ⟨0⟩ 0 0 [] (read_nothing he ht' hfiles)
    rw [hforgotten.read] at hread
    cases hread
  · obtain ⟨c'', hagain, hstore⟩ : ∃ c'', c'.remove DiskStore.pieceStore .none h =
        (.ok e.stored, c'') ∧ c''.store = c'.store :=
      hforgotten.remove_ok (show c'.torrents.lookup h = some e from htorrents ▸ he) hpins
    have hnothing := hlater [] (fun _ hmem => by cases hmem) .none e.stored c'' hagain
    rw [hstore, hfs] at hnothing
    exact hleft hnothing

/-- In every run, a removal is recoverable exactly when it does not come to a deletion that
fails, or the torrent has no files and the failed deletion left nothing to recover. -/
theorem remove_recoverable_iff (fs : FileSystem) (capBytes : ℕ) (ops : List (Faults × Op))
    (faults : Faults) (h : InfoHash) :
    Recoverable faults h (Mealy.after step (new (DiskStore.new fs) capBytes) ops) ↔
      (Loses (Mealy.after step (new (DiskStore.new fs) capBytes) ops) (faults, .remove h) →
        (∀ t, (Mealy.after step (new (DiskStore.new fs) capBytes) ops).store.torrents.lookup h =
          some t → t.layout.fileCount = 0) ∧
        RecoversNothing ((Mealy.after step (new (DiskStore.new fs) capBytes) ops).store.fs.removeDir
          h.toText faults).2 h) := by
  have hplaced := placed_after fs capBytes ops
  generalize Mealy.after step (new (DiskStore.new fs) capBytes) ops = c at hplaced ⊢
  constructor
  · intro hrec hloses
    by_contra hnot
    refine not_recoverable hplaced hloses ?_ hrec
    by_contra hneither
    rw [not_or, not_not] at hneither
    refine hnot ⟨fun t ht => ?_, hneither.2⟩
    by_contra hfiles
    exact hneither.1 ⟨t, ht, hfiles⟩
  · intro hgood context source c' hremove
    have hloses := loses_of_remove hremove
    obtain ⟨hfiles, hnothing⟩ := hgood hloses
    obtain ⟨d, hd, -, -, hforgotten⟩ := remove_of_loses hplaced hloses
    obtain rfl : d = c' := (Prod.mk.inj (hd.symm.trans hremove)).2
    obtain ⟨-, e, t, -, -, ht, -⟩ := hloses
    refine ⟨AList.lookup_isSome.mp (Option.isSome_iff_exists.mpr hforgotten.registered),
      usable_of_no_files ht (hfiles t ht), fun later hlater faults' freed c'' hagain => ?_⟩
    -- nothing reaches the directory until the removal is asked again, and not then either
    have hstill := hforgotten.after hlater
    have hstore : (step (Mealy.after step d later) (faults', .remove h)).2.store =
        (Mealy.after step d later).store := hstill.store_eq rfl
    rw [show (step (Mealy.after step d later) (faults', .remove h)).2 =
      ((Mealy.after step d later).remove DiskStore.pieceStore faults' h).2 from rfl, hagain] at hstore
    refine hnothing.congr ?_
    rw [hstore]
    exact hstill.left

/-- Two bytes are stored when the directory cannot be deleted. -/
def keptOnDisk : List (Faults × Op) :=
  [(.none, .openTorrent retriedTorrent Disk.oneFileLayout), (.none, .write retriedTorrent ⟨0⟩ 0 [7, 7])]

/-- What deleting a directory leaves behind that cannot be deleted at all. -/
def undeletable : Faults := { removeDir := some id }

/-- The bytes cannot be read after the failed removal; the next removal succeeds and the store
of a later process recovers them. -/
theorem removed_torrent_recovered :
    ¬Recoverable undeletable retriedTorrent
      (Mealy.after step (new (DiskStore.new .empty) 0) keptOnDisk) ∧
    (let c := Mealy.after step (new (DiskStore.new .empty) 0) keptOnDisk
      let failed := c.remove DiskStore.pieceStore undeletable retriedTorrent
      let again := failed.2.remove DiskStore.pieceStore .none retriedTorrent
      (c.read DiskStore.pieceStore .none retriedTorrent ⟨0⟩ 0 2).1 = .ok [7, 7] ∧
        failed.1 = .error (.io "remove cache directory" .other) ∧
        (failed.2.read DiskStore.pieceStore .none retriedTorrent ⟨0⟩ 0 2).1 =
          .error (.unknownTorrent retriedTorrent) ∧
        again.1 = .ok 2 ∧
        (DiskStore.openTorrent .none retriedTorrent Disk.oneFileLayout
          (DiskStore.new again.2.store.fs)).1 = .ok ⟨2, []⟩) := by
  refine ⟨fun hrec => ?_, by decide, by decide, by decide, by decide, by decide⟩
  obtain ⟨-, husable, -⟩ := hrec "remove cache directory" .other
    (Mealy.after step (new (DiskStore.new .empty) 0)
      (keptOnDisk ++ [(undeletable, .remove retriedTorrent)])) (by rfl)
  have hread := husable.read ⟨0⟩ 0 2 [7, 7] (by decide)
  exact absurd hread (by decide)

end Cache

end Rustorr
