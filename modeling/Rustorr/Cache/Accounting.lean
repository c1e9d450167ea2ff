import Rustorr.Cache.Disk
import Rustorr.Cache.Registry

/-! The counts of the cache against the records of a disk store whose file
system may fail at any step. -/

namespace Rustorr

open Cache (Error)

/-- A file system that fails some step of writing the manifest. -/
def Faults.failsManifest (faults : Faults) : Bool :=
  faults.createManifest || faults.writeManifest.isSome || faults.syncManifest ||
    faults.renameManifest

namespace Disk

theorem writeManifest_isOk (fs : FileSystem) (t : Torrent) (faults : Faults) :
    (writeManifest fs t faults).1 = .ok () ↔
      (fs.entries t.dir).isSome ∧ faults.failsManifest = false := by
  unfold writeManifest Faults.failsManifest
  cases fs.entries t.dir with
  | none => simp
  | some dir =>
    cases h1 : faults.createManifest <;> cases h2 : faults.writeManifest <;>
      cases h3 : faults.syncManifest <;> cases h4 : faults.renameManifest <;> simp

theorem insertPieces_ok (pieces : List ℕ) (flags : List Bool) (hlen : flags.length < 2 ^ 32)
    (h : ∀ i ∈ pieces, i < flags.length) :
    ∃ flags', Cache.insertPieces ⟨flags⟩ (pieces.map PieceIndex.ofPosition) = .ok ⟨flags'⟩ ∧
      flags'.length = flags.length ∧
      ∀ i : ℕ, flags'[i]? = some true ↔ flags[i]? = some true ∨ i ∈ pieces := by
  induction pieces generalizing flags with
  | nil => exact ⟨flags, rfl, rfl, by simp⟩
  | cons piece pieces ih =>
    have hlt : piece < flags.length := h piece (by simp)
    have hget : ((PieceIndex.ofPosition piece).get : ℕ) = piece :=
      PieceIndex.ofPosition_of_lt (hlt.trans hlen)
    obtain ⟨flags', hrun, hlen', hall⟩ := ih (flags.set piece true) (by simpa using hlen)
      fun i hi => by simpa using h i (by simp [hi])
    refine ⟨flags', ?_, by simpa using hlen', fun i => ?_⟩
    · rw [List.map_cons, Cache.insertPieces, List.foldlM_cons, PieceSet.insert, hget, if_pos hlt]
      exact hrun
    · rw [hall, List.mem_cons]
      by_cases hi : piece = i
      · subst hi
        simp [List.getElem?_set_self hlt]
      · simp [List.getElem?_set_ne hi, Ne.symm hi]

/-- The registry takes over exactly the flags of a recovered record. -/
theorem insertPieces_flagged {flags : List Bool} (hlen : flags.length < 2 ^ 32) :
    Cache.insertPieces (PieceSet.new flags.length)
      ((PieceSet.flagged flags).map PieceIndex.ofPosition) = .ok ⟨flags⟩ := by
  obtain ⟨flags', hrun, hlen', hall⟩ := insertPieces_ok (PieceSet.flagged flags)
    (List.replicate flags.length false) (by simpa using hlen) fun i hi => by
      simpa using (List.getElem?_eq_some_iff.mp (PieceSet.mem_flagged.mp hi)).1
  have heq : flags' = flags := by
    refine List.ext_getElem (by simpa using hlen') fun i h1 h2 => ?_
    have hiff := hall i
    rw [PieceSet.mem_flagged, List.getElem?_replicate, List.getElem?_eq_getElem h1,
      List.getElem?_eq_getElem h2] at hiff
    have hclear : (if i < flags.length then some false else none) ≠ some true := by
      split <;> simp
    simp only [hclear, false_or, Option.some.injEq] at hiff
    exact Bool.eq_iff_iff.mpr hiff
  rw [PieceSet.new, hrun, heq]

end Disk

namespace DiskStore

open Disk

/-- A write that gets as far as its manifest. -/
structure Reaches (s : DiskStore) (faults : Faults) (torrent : InfoHash) (file : FileIndex)
    (offset : U64) (data : List UInt8) (t : Torrent) (range : ByteRange) : Prop where
  record : s.torrents.lookup torrent = some t
  range_eq : t.layout.checkRange torrent file offset data.length = .ok range
  data_ne : data ≠ []
  dir : (s.fs.entries t.dir).isSome
  opened : faults.openFile = false
  written : faults.writeAt = none

variable {s : DiskStore} {faults : Faults} {torrent : InfoHash} {file : FileIndex} {offset : U64}
  {data : List UInt8}

/-- Such a write is recorded even where its manifest fails. -/
theorem write_of_reaches {t : Torrent} {range : ByteRange}
    (h : Reaches s faults torrent file offset data t range) :
    (write faults torrent file offset data s).2.torrents =
        s.torrents.insert torrent (t.insert file range).2 ∧
      (faults.failsManifest = false →
        (write faults torrent file offset data s).1 = .ok (t.insert file range).1) ∧
      (faults.failsManifest = true →
        ∃ error, (write faults torrent file offset data s).1 = .error error) := by
  obtain ⟨dir, hdir⟩ := Option.isSome_iff_exists.mp h.dir
  have hfile : ∃ dir', writeFile s.fs t.dir file.zeroBased offset data faults =
      (.ok (), s.fs.set t.dir (some dir')) := by
    simp only [writeFile, hdir, h.opened, h.written, Bool.false_eq_true, if_false]
    exact ⟨_, rfl⟩
  obtain ⟨dir', hfile⟩ := hfile
  set fs := s.fs.set t.dir (some dir') with hfs
  have hpresent : (fs.entries (t.insert file range).2.dir).isSome = true := by
    rw [hfs, Torrent.insert_dir, FileSystem.set_self]
    rfl
  have hok := writeManifest_isOk fs (t.insert file range).2 faults
  rw [hpresent] at hok
  have heq : write faults torrent file offset data s =
      ((writeManifest fs (t.insert file range).2 faults).1.map fun _ => (t.insert file range).1,
        ⟨s.torrents.insert torrent (t.insert file range).2,
          (writeManifest fs (t.insert file range).2 faults).2⟩) := by
    simp only [write, DiskStore.torrent, h.record, h.range_eq, if_neg h.data_ne, hfile]
  rw [heq]
  refine ⟨rfl, fun hf => ?_, fun hf => ?_⟩
  · rw [hok.mpr ⟨rfl, hf⟩]
    rfl
  · cases hresult : (writeManifest fs (t.insert file range).2 faults).1 with
    | ok _ => simp [hok.mp hresult] at hf
    | error error => exact ⟨error, rfl⟩

/-- A write that stops earlier leaves every record as it is and adds nothing. -/
theorem write_of_not_reaches
    (h : ∀ t range, ¬Reaches s faults torrent file offset data t range) :
    (write faults torrent file offset data s).2.torrents = s.torrents ∧
      ∀ added, (write faults torrent file offset data s).1 = .ok added → added = 0 := by
  cases hs : s.torrents.lookup torrent with
  | none => simp [write, DiskStore.torrent, hs]
  | some t =>
    cases hrange : t.layout.checkRange torrent file offset data.length with
    | error e => simp [write, DiskStore.torrent, hs, hrange]
    | ok range =>
      by_cases hne : data = []
      · simp only [write, DiskStore.torrent, hs, hrange, if_pos hne, true_and]
        rintro added ⟨⟩
        rfl
      · have hfile : ∃ error fs, writeFile s.fs t.dir file.zeroBased offset data faults =
            (.error error, fs) := by
          cases hdir : s.fs.entries t.dir with
          | none => simp [writeFile, hdir]
          | some dir =>
            cases hopen : faults.openFile with
            | true => simp [writeFile, hdir, hopen]
            | false =>
              cases hwrite : faults.writeAt with
              | none => exact absurd ⟨hs, hrange, hne, by simp [hdir], hopen, hwrite⟩ (h t range)
              | some n => simp [writeFile, hdir, hopen, hwrite]
        obtain ⟨error, fs, hfile⟩ := hfile
        simp only [write, DiskStore.torrent, hs, hrange, if_neg hne, hfile, true_and]
        rintro added ⟨⟩

/-- What a completed piece does to the record, whether or not its manifest is written. -/
theorem pieceCompleted_spec (s : DiskStore) (faults : Faults) (torrent : InfoHash)
    (piece : PieceIndex) :
    (∃ t, s.torrents.lookup torrent = some t ∧ (piece.get : ℕ) < t.completed.length ∧
      (pieceCompleted faults torrent piece s).2.torrents =
        s.torrents.insert torrent (t.complete piece) ∧
      ((pieceCompleted faults torrent piece s).1 = .ok () ↔
        (s.fs.entries t.dir).isSome ∧ faults.failsManifest = false)) ∨
    ((∀ t, s.torrents.lookup torrent = some t → ¬(piece.get : ℕ) < t.completed.length) ∧
      (pieceCompleted faults torrent piece s).2.torrents = s.torrents ∧
      ∃ error, (pieceCompleted faults torrent piece s).1 = .error error) := by
  cases hs : s.torrents.lookup torrent with
  | none =>
    refine Or.inr ⟨by simp, ?_, .unknownTorrent torrent, ?_⟩ <;>
      simp [pieceCompleted, DiskStore.torrent, hs]
  | some t =>
    by_cases hlt : (piece.get : ℕ) < t.completed.length
    · refine Or.inl ⟨t, rfl, hlt, ?_, ?_⟩
      · simp only [pieceCompleted, DiskStore.torrent, hs, if_pos hlt]
      · simp only [pieceCompleted, DiskStore.torrent, hs, if_pos hlt]
        exact writeManifest_isOk s.fs (t.complete piece) faults
    · refine Or.inr ⟨by simpa using hlt, ?_, .pieceOutOfRange piece t.completed.length, ?_⟩ <;>
        simp [pieceCompleted, DiskStore.torrent, hs, hlt]

theorem remove_spec (s : DiskStore) (faults : Faults) (torrent : InfoHash) :
    (∀ k, (remove faults torrent s).2.torrents.lookup k =
        if k = torrent then none else s.torrents.lookup k) ∧
      ((remove faults torrent s).1 = .ok () ↔
        ∀ t, s.torrents.lookup torrent = some t →
          s.fs.entries t.dir = none ∨ faults.removeDir = none) := by
  cases hs : s.torrents.lookup torrent with
  | none =>
    refine ⟨fun k => ?_, by simp [remove, hs]⟩
    simp only [remove, hs]
    split
    · rename_i hk
      rw [hk, hs]
    · rfl
  | some t =>
    refine ⟨fun k => ?_, ?_⟩
    · simp only [remove, hs]
      split
      · rename_i hk
        rw [hk, AList.lookup_erase]
      · rename_i hk
        rw [AList.lookup_erase_ne hk]
    · simp only [remove, hs, Option.some.injEq, forall_eq']
      unfold FileSystem.removeDir
      cases s.fs.entries t.dir with
      | none => simp
      | some dir => cases faults.removeDir <;> simp

theorem restoreTorrent_eq_some {fs : FileSystem} {name : List Char} {layout : TorrentLayout}
    {t : Torrent} {stored : ℕ} (h : restoreTorrent fs name layout faults = some (t, stored)) :
    t.layout = layout ∧ stored = t.stored := by
  unfold restoreTorrent at h
  split at h
  · cases h
  · rename_i hrestore
    cases h
    obtain ⟨_, _, -, -, haccepted⟩ := restore_eq_some hrestore
    exact ⟨rfl, haccepted.stored_eq⟩

theorem stored_emptyTorrent (name : List Char) (layout : TorrentLayout) :
    (emptyTorrent name layout).stored = 0 := by
  simp [Torrent.stored, emptyTorrent]

/-- A successful `open` registers a record that accounts for what it reports. -/
theorem openTorrent_cases (s : DiskStore) (faults : Faults) (torrent : InfoHash)
    (layout : TorrentLayout) :
    (∃ t, (openTorrent faults torrent layout s).1 = .ok (recovered t.completed t.stored) ∧
      t.layout = layout ∧ (openTorrent faults torrent layout s).2.torrents =
        s.torrents.insert torrent t) ∨
    (∃ error, (openTorrent faults torrent layout s).1 = .error error) ∧
      (openTorrent faults torrent layout s).2.torrents = s.torrents := by
  obtain ⟨restored, hrestored⟩ : ∃ restored, restored =
    (if decide (torrent ∈ s.torrents) = true then none
      else restoreTorrent s.fs torrent.toText layout faults) := ⟨_, rfl⟩
  obtain ⟨⟨cleared, fs⟩, hcleared⟩ : ∃ cleared, cleared =
    (if restored.isNone = true then s.fs.removeDir torrent.toText faults else (.ok (), s.fs)) :=
      ⟨_, rfl⟩
  have hrecord : (restored.getD (emptyTorrent torrent.toText layout, 0)).1.layout = layout ∧
      (restored.getD (emptyTorrent torrent.toText layout, 0)).2 =
        (restored.getD (emptyTorrent torrent.toText layout, 0)).1.stored := by
    cases restored with
    | none => exact ⟨rfl, (stored_emptyTorrent _ _).symm⟩
    | some r =>
      split at hrestored
      · cases hrestored
      · exact restoreTorrent_eq_some hrestored.symm
  simp only [openTorrent, ← hrestored, ← hcleared]
  cases cleared with
  | error e => exact Or.inr ⟨⟨e, rfl⟩, rfl⟩
  | ok _ =>
    cases hcreate : fs.createDirAll torrent.toText faults with
    | mk result fs' =>
      cases result with
      | error e => exact Or.inr ⟨⟨e, rfl⟩, rfl⟩
      | ok _ =>
        refine Or.inl ⟨(restored.getD (emptyTorrent torrent.toText layout, 0)).1, ?_, hrecord.1, rfl⟩
        rw [← hrecord.2]

end DiskStore

/-! ### The two levels -/

namespace Cache

open Disk

/-- What the outside may ask of a cache. -/
inductive Op
  | openTorrent (torrent : InfoHash) (layout : TorrentLayout)
  | write (torrent : InfoHash) (file : FileIndex) (offset : U64) (data : List UInt8)
  | read (torrent : InfoHash) (file : FileIndex) (offset : U64) (len : ℕ)
  | pieceCompleted (torrent : InfoHash) (piece : PieceIndex)
  | pin (torrent : InfoHash) (range : Option ReaderRange)
  | dropPin (pin : Pin)
  | remove (torrent : InfoHash)

/-- One operation; only whether it succeeded is kept of its answer. -/
def step (c : Cache DiskStore) (op : Faults × Op) : Bool × Cache DiskStore :=
  match op.2 with
  | .openTorrent torrent layout =>
    let (result, c) := openTorrent DiskStore.pieceStore op.1 torrent layout c
    (result.isOk, c)
  | .write torrent file offset data =>
    let (result, c) := write DiskStore.pieceStore op.1 torrent file offset data c
    (result.isOk, c)
  | .read torrent file offset len =>
    let (result, c) := read DiskStore.pieceStore op.1 torrent file offset len c
    (result.isOk, c)
  | .pieceCompleted torrent piece =>
    let (result, c) := pieceCompleted DiskStore.pieceStore op.1 torrent piece c
    (result.isOk, c)
  | .pin torrent range =>
    let (result, c) := pinInner torrent range c
    (result.isOk, c)
  | .dropPin pin => (true, dropPin pin c)
  | .remove torrent =>
    let (result, c) := remove DiskStore.pieceStore op.1 torrent c
    (result.isOk, c)

/-- The registry's count and pieces are those of the store's record. -/
structure EntryAgrees (e : Entry) (t : Torrent) : Prop where
  stored : e.stored = t.stored
  pieces : e.pieces.complete = t.completed

/-- Every registered torrent has a record with the same count and pieces. -/
def Agrees (c : Cache DiskStore) : Prop :=
  ∀ h e, c.torrents.lookup h = some e →
    ∃ t, c.store.torrents.lookup h = some t ∧ EntryAgrees e t

/-- What a run without a lost update keeps: registry and store hold the same
torrents, with the same layouts, counts and pieces. -/
def Matches (c : Cache DiskStore) : Prop :=
  ∀ h, Option.Rel (fun e t => e.layout = t.layout ∧ EntryAgrees e t)
    (c.torrents.lookup h) (c.store.torrents.lookup h)

/-- The store keeps a change that the registry never hears of: a manifest fails
under a write of new bytes or under a new completed piece, or the directory of
a removed torrent cannot be deleted. -/
def Loses (c : Cache DiskStore) (op : Faults × Op) : Prop :=
  match op.2 with
  | .write torrent file offset data =>
    op.1.failsManifest = true ∧ torrent ∈ c.torrents ∧
      ∃ t range, c.store.Reaches op.1 torrent file offset data t range ∧
        (t.extentsOf file).covers range = false
  | .pieceCompleted torrent piece =>
    ∃ t, c.store.torrents.lookup torrent = some t ∧ t.completed[(piece.get : ℕ)]? = some false ∧
      (c.store.fs.entries t.dir = none ∨ op.1.failsManifest = true)
  | .remove torrent =>
    op.1.removeDir ≠ none ∧ ∃ e t, c.torrents.lookup torrent = some e ∧ e.pins = 0 ∧
      c.store.torrents.lookup torrent = some t ∧ (c.store.fs.entries t.dir).isSome
  | _ => False

theorem Matches.agrees {c : Cache DiskStore} (h : Matches c) : Agrees c := by
  intro k e he
  rcases optionRel_cases (h k) with ⟨hnone, -⟩ | ⟨e', t, he', ht, -, hagree⟩
  · rw [hnone] at he
    cases he
  · obtain rfl := Option.some.inj (he'.symm.trans he)
    exact ⟨t, ht, hagree⟩

theorem matches_new (fs : FileSystem) (capBytes : ℕ) : Matches (new (DiskStore.new fs) capBytes) :=
  fun _ => .none

/-- An operation on one torrent leaves the others as they are. -/
theorem Matches.update {c c' : Cache DiskStore} (h : Matches c) (torrent : InfoHash)
    (hentries : ∀ k ≠ torrent, c'.torrents.lookup k = c.torrents.lookup k)
    (hrecords : ∀ k ≠ torrent, c'.store.torrents.lookup k = c.store.torrents.lookup k)
    (hself : Option.Rel (fun e t => e.layout = t.layout ∧ EntryAgrees e t)
      (c'.torrents.lookup torrent) (c'.store.torrents.lookup torrent)) : Matches c' := by
  intro k
  by_cases hk : k = torrent
  · exact hk ▸ hself
  · rw [hentries k hk, hrecords k hk]
    exact h k

theorem Matches.keepRecords {c : Cache DiskStore} (h : Matches c) {store : DiskStore}
    (hrecords : store.torrents = c.store.torrents) : Matches { c with store := store } := by
  intro k
  have hk := h k
  rwa [← hrecords] at hk

/-- An entry whose count and pieces stay keeps its agreement. -/
theorem Matches.setEntry {c : Cache DiskStore} (h : Matches c) {torrent : InfoHash} {e e' : Entry}
    (he : c.torrents.lookup torrent = some e) (hlayout : e'.layout = e.layout)
    (hstored : e'.stored = e.stored) (hpieces : e'.pieces = e.pieces) :
    Matches (c.setEntry torrent e') := by
  refine h.update torrent (fun k hk => AList.lookup_insert_ne hk) (fun _ _ => rfl) ?_
  rcases optionRel_cases (h torrent) with ⟨hnone, -⟩ | ⟨e0, t, he0, ht, hl, hagree⟩
  · rw [hnone] at he
    cases he
  · obtain rfl := Option.some.inj (he0.symm.trans he)
    rw [Cache.setEntry, AList.lookup_insert, ht]
    exact .some ⟨hlayout.trans hl, hstored.trans hagree.stored, by rw [hpieces, hagree.pieces]⟩

theorem entry_eq_of_lookup {c : Cache DiskStore} {torrent : InfoHash} {e : Entry}
    (h : c.torrents.lookup torrent = some e) : c.entry torrent = .ok e := by
  simp [entry, h]

theorem matches_openTorrent {c : Cache DiskStore} (h : Matches c) (faults : Faults)
    (torrent : InfoHash) (layout : TorrentLayout) :
    Matches (openTorrent DiskStore.pieceStore faults torrent layout c).2 := by
  rcases optionRel_cases (h torrent) with ⟨hnone, hrecord⟩ | ⟨e, t, he, -, -⟩
  · have hcases := DiskStore.openTorrent_cases c.store faults torrent layout
    cases hopen : DiskStore.openTorrent faults torrent layout c.store with
    | mk result store =>
      rw [hopen] at hcases
      simp only [openTorrent, hnone, DiskStore.pieceStore, hopen]
      rcases hcases with ⟨t, rfl, rfl, htorrents⟩ | ⟨⟨error, rfl⟩, htorrents⟩
      · have hpieces : insertPieces (PieceSet.new t.layout.pieceCount)
            (DiskStore.recovered t.completed t.stored).completedPieces = .ok ⟨t.completed⟩ := by
          rw [← t.length_completed]
          exact insertPieces_flagged (t.length_completed ▸ t.layout.pieceCount_lt)
        simp only [hpieces]
        refine h.update torrent (fun k hk => AList.lookup_insert_ne hk) (fun k hk => ?_) ?_
        · exact (congrArg (AList.lookup k) htorrents).trans (AList.lookup_insert_ne hk)
        · have hself : store.torrents.lookup torrent = some t :=
            (congrArg (AList.lookup torrent) htorrents).trans (AList.lookup_insert _)
          simp only [setEntry_torrents, setEntry_store, nextTick_store, AList.lookup_insert, hself]
          exact .some ⟨rfl, rfl, rfl⟩
      · exact h.keepRecords htorrents
  · simp only [openTorrent, he]
    exact h

/-- A record that has taken a range agrees with an entry that counted it. -/
theorem EntryAgrees.insert {e : Entry} {t : Torrent} (h : EntryAgrees e t) {file : FileIndex}
    (hlt : (file.zeroBased : ℕ) < t.layout.fileCount) (range : ByteRange) :
    EntryAgrees { e with stored := e.stored + (t.insert file range).1 } (t.insert file range).2 :=
  ⟨by rw [t.stored_insert hlt, h.stored], h.pieces⟩

theorem added_pos_of_not_covers {t : Torrent} {file : FileIndex} {range : ByteRange}
    (h : (t.extentsOf file).covers range = false) : 0 < (t.insert file range).1 := by
  have hsub : ¬range.bytes ⊆ (t.extentsOf file).bytes := fun hs => by
    rw [((t.extentsOf file).covers_iff range).mpr hs] at h
    cases h
  change 0 < ((t.extentsOf file).insert range).1
  rw [Extents.added_insert, Finset.card_pos]
  exact Finset.sdiff_nonempty.mpr hsub

theorem added_eq_zero_of_covers {t : Torrent} {file : FileIndex} {range : ByteRange}
    (h : (t.extentsOf file).covers range = true) : (t.insert file range).1 = 0 := by
  change ((t.extentsOf file).insert range).1 = 0
  rw [Extents.added_insert, Finset.card_eq_zero, Finset.sdiff_eq_empty_iff_subset]
  exact ((t.extentsOf file).covers_iff range).mp h

/-- A write either changes one record and its entry together, or loses the
bytes it has recorded. -/
theorem write_spec {c : Cache DiskStore} (h : Matches c) (faults : Faults) (torrent : InfoHash)
    (file : FileIndex) (offset : U64) (data : List UInt8) :
    (Loses c (faults, .write torrent file offset data) →
      ¬Agrees (write DiskStore.pieceStore faults torrent file offset data c).2) ∧
    (¬Loses c (faults, .write torrent file offset data) →
      Matches (write DiskStore.pieceStore faults torrent file offset data c).2) := by
  rcases optionRel_cases (h torrent) with ⟨hnone, hrecord⟩ | ⟨e, t, he, ht, hlayout, hagree⟩
  · have hnot : torrent ∉ c.torrents := fun hmem => by
      have := AList.lookup_isSome.mpr hmem
      rw [hnone] at this
      cases this
    refine ⟨fun hl => absurd hl.2.1 hnot, fun _ => ?_⟩
    simp only [write, entry, hnone]
    exact h
  · simp only [Loses, write, entry, he, DiskStore.pieceStore]
    have hmem : torrent ∈ c.torrents := AList.lookup_isSome.mp (by simp [he])
    by_cases hreach : ∃ t' range, c.store.Reaches faults torrent file offset data t' range
    · obtain ⟨t', range, hr⟩ := hreach
      obtain rfl : t' = t := Option.some.inj (hr.record.symm.trans ht)
      obtain ⟨-, -, fileLen, hlen, -⟩ := TorrentLayout.checkRange_eq_ok hr.range_eq
      have hlt := TorrentLayout.fileLength_lt hlen
      obtain ⟨htorrents, hok, herror⟩ := DiskStore.write_of_reaches hr
      cases hwrite : DiskStore.write faults torrent file offset data c.store with
      | mk result store =>
        rw [hwrite] at htorrents hok herror
        have hself : store.torrents.lookup torrent = some (t'.insert file range).2 := by
          rw [htorrents, AList.lookup_insert]
        have hother : ∀ k ≠ torrent, store.torrents.lookup k = c.store.torrents.lookup k :=
          fun k hk => by rw [htorrents, AList.lookup_insert_ne hk]
        cases hfails : faults.failsManifest with
        | false =>
          obtain rfl := hok hfails
          refine ⟨fun hl => absurd hl.1 (by simp), fun _ => ?_⟩
          refine h.update torrent (fun k hk => AList.lookup_insert_ne hk) hother ?_
          simp only [setEntry_torrents, setEntry_store, AList.lookup_insert, hself]
          exact .some ⟨hlayout, hagree.insert hlt range⟩
        | true =>
          obtain ⟨error, rfl⟩ := herror hfails
          refine ⟨fun hl hagrees => ?_, fun hgood => ?_⟩
          · obtain ⟨-, -, t'', range'', hr'', hcovers⟩ := hl
            obtain rfl : t'' = t' := Option.some.inj (hr''.record.symm.trans ht)
            obtain rfl : range'' = range :=
              Except.ok.inj (hr''.range_eq.symm.trans hr.range_eq)
            obtain ⟨t1, ht1, h1⟩ := hagrees torrent e he
            obtain rfl : (t''.insert file range'').2 = t1 := Option.some.inj (hself.symm.trans ht1)
            have hpos := added_pos_of_not_covers hcovers
            have := h1.stored
            rw [t''.stored_insert hlt, hagree.stored] at this
            omega
          · have hcovers : (t'.extentsOf file).covers range = true := by
              by_contra hc
              exact hgood ⟨rfl, hmem, t', range, hr, by simpa using hc⟩
            refine h.update torrent (fun _ _ => rfl) hother ?_
            simp only [he, hself]
            have hinsert := hagree.insert hlt range
            rw [added_eq_zero_of_covers hcovers] at hinsert
            exact .some ⟨hlayout, hinsert.stored, hinsert.pieces⟩
    · have hno : ∀ t' range, ¬c.store.Reaches faults torrent file offset data t' range :=
        fun t' range hr => hreach ⟨t', range, hr⟩
      obtain ⟨htorrents, hzero⟩ := DiskStore.write_of_not_reaches hno
      refine ⟨fun hl => ?_, fun _ => ?_⟩
      · obtain ⟨-, -, t', range, hr, -⟩ := hl
        exact absurd hr (hno t' range)
      · cases hwrite : DiskStore.write faults torrent file offset data c.store with
        | mk result store =>
          rw [hwrite] at htorrents hzero
          have hrecords : Matches { c with store := store } := h.keepRecords htorrents
          cases result with
          | error error => exact hrecords
          | ok added =>
            obtain rfl := hzero added rfl
            exact hrecords.setEntry he rfl rfl rfl

/-- A completed piece sets its flag on both levels, or on the store's alone. -/
theorem pieceCompleted_spec {c : Cache DiskStore} (h : Matches c) (faults : Faults)
    (torrent : InfoHash) (piece : PieceIndex) :
    (Loses c (faults, .pieceCompleted torrent piece) →
      ¬Agrees (pieceCompleted DiskStore.pieceStore faults torrent piece c).2) ∧
    (¬Loses c (faults, .pieceCompleted torrent piece) →
      Matches (pieceCompleted DiskStore.pieceStore faults torrent piece c).2) := by
  simp only [Loses, pieceCompleted, DiskStore.pieceStore]
  rcases DiskStore.pieceCompleted_spec c.store faults torrent piece with
    ⟨t, ht, hlt, htorrents, hok⟩ | ⟨hrange, htorrents, error, herror⟩
  · rcases optionRel_cases (h torrent) with ⟨-, hrecord⟩ | ⟨e, t', he, ht', hlayout, hagree⟩
    · rw [hrecord] at ht
      cases ht
    obtain rfl : t' = t := Option.some.inj (ht'.symm.trans ht)
    cases hdone : DiskStore.pieceCompleted faults torrent piece c.store with
    | mk result store =>
      rw [hdone] at htorrents hok
      have hself : store.torrents.lookup torrent = some (t'.complete piece) := by
        rw [htorrents, AList.lookup_insert]
      have hother : ∀ k ≠ torrent, store.torrents.lookup k = c.store.torrents.lookup k :=
        fun k hk => by rw [htorrents, AList.lookup_insert_ne hk]
      cases result with
      | ok _ =>
        obtain ⟨hdir, hmanifest⟩ := hok.mp rfl
        refine ⟨fun hl => ?_, fun _ => ?_⟩
        · obtain ⟨t'', ht'', -, hfail⟩ := hl
          obtain rfl : t'' = t' := Option.some.inj (ht''.symm.trans ht)
          rcases hfail with hfail | hfail
          · rw [hfail] at hdir
            cases hdir
          · rw [hfail] at hmanifest
            cases hmanifest
        · have hinsert : e.pieces.insert piece = .ok ⟨t'.completed.set piece.get true⟩ := by
            rw [PieceSet.insert, hagree.pieces, if_pos hlt]
          simp only [entry, he, hinsert]
          refine h.update torrent (fun k hk => AList.lookup_insert_ne hk) hother ?_
          simp only [setEntry_torrents, setEntry_store, AList.lookup_insert, hself]
          exact .some ⟨hlayout, hagree.stored, rfl⟩
      | error error =>
        have hfail : c.store.fs.entries t'.dir = none ∨ faults.failsManifest = true := by
          by_contra hnot
          rw [not_or] at hnot
          have := hok.mpr ⟨Option.isSome_iff_ne_none.mpr hnot.1, by simpa using hnot.2⟩
          cases this
        refine ⟨fun hl hagrees => ?_, fun hgood => ?_⟩
        · obtain ⟨t'', ht'', hclear, -⟩ := hl
          obtain rfl : t'' = t' := Option.some.inj (ht''.symm.trans ht)
          obtain ⟨t1, ht1, h1⟩ := hagrees torrent e he
          obtain rfl : t''.complete piece = t1 := Option.some.inj (hself.symm.trans ht1)
          have hflags : t''.completed = t''.completed.set piece.get true :=
            hagree.pieces.symm.trans h1.pieces
          rw [hflags, List.getElem?_set_self hlt] at hclear
          cases hclear
        · have hset : t'.completed[(piece.get : ℕ)]? = some true := by
            rw [List.getElem?_eq_getElem hlt]
            by_contra hne
            refine hgood ⟨t', ht, ?_, hfail⟩
            rw [List.getElem?_eq_getElem hlt]
            simpa using hne
          have hflags : t'.completed.set piece.get true = t'.completed := by
            obtain ⟨_, hget⟩ := List.getElem?_eq_some_iff.mp hset
            rw [← hget, List.set_getElem_self]
          refine h.update torrent (fun _ _ => rfl) hother ?_
          simp only [he, hself]
          exact .some ⟨hlayout, hagree.stored, hagree.pieces.trans hflags.symm⟩
  · refine ⟨fun hl => ?_, fun _ => ?_⟩
    · obtain ⟨t, ht, hclear, -⟩ := hl
      exact absurd (List.getElem?_eq_some_iff.mp hclear).1 (hrange t ht)
    · cases hdone : DiskStore.pieceCompleted faults torrent piece c.store with
      | mk result store =>
        rw [hdone] at htorrents herror
        obtain rfl : result = .error error := herror
        exact h.keepRecords htorrents

/-- A removal forgets a torrent on both levels, or in the store alone. -/
theorem remove_spec {c : Cache DiskStore} (h : Matches c) (faults : Faults) (torrent : InfoHash) :
    (Loses c (faults, .remove torrent) →
      ¬Agrees (remove DiskStore.pieceStore faults torrent c).2) ∧
    (¬Loses c (faults, .remove torrent) →
      Matches (remove DiskStore.pieceStore faults torrent c).2) := by
  simp only [Loses, remove, DiskStore.pieceStore]
  rcases optionRel_cases (h torrent) with ⟨hnone, hrecord⟩ | ⟨e, t, he, ht, hlayout, hagree⟩
  · refine ⟨fun hl => ?_, fun _ => ?_⟩
    · obtain ⟨-, e, t, he, -⟩ := hl
      rw [hnone] at he
      cases he
    · simp only [entry, hnone]
      exact h
  · simp only [entry, he]
    by_cases hpins : e.pins > 0
    · refine ⟨fun hl => ?_, fun _ => ?_⟩
      · obtain ⟨-, e', t', he', hzero, -⟩ := hl
        obtain rfl : e' = e := (Option.some.inj he').symm
        omega
      · simp only [hpins, if_true]
        exact h
    · simp only [hpins, if_false]
      obtain ⟨htorrents, hok⟩ := DiskStore.remove_spec c.store faults torrent
      cases hremove : DiskStore.remove faults torrent c.store with
      | mk result store =>
        rw [hremove] at htorrents hok
        have hself : store.torrents.lookup torrent = none := by simpa using htorrents torrent
        have hother : ∀ k ≠ torrent, store.torrents.lookup k = c.store.torrents.lookup k :=
          fun k hk => by simpa [hk] using htorrents k
        cases result with
        | ok _ =>
          have hclean := hok.mp rfl t ht
          refine ⟨fun hl => ?_, fun _ => ?_⟩
          · obtain ⟨hfault, e', t', -, -, ht', hdir⟩ := hl
            obtain rfl := Option.some.inj (ht'.symm.trans ht)
            rcases hclean with hclean | hclean
            · rw [hclean] at hdir
              cases hdir
            · exact absurd hclean hfault
          · refine h.update torrent (fun k hk => AList.lookup_erase_ne hk) hother ?_
            simp only [AList.lookup_erase, hself]
            exact .none
        | error error =>
          refine ⟨fun _ hagrees => ?_, fun hgood => ?_⟩
          · obtain ⟨t1, ht1, -⟩ := hagrees torrent e he
            rw [show store.torrents.lookup torrent = some t1 from ht1] at hself
            cases hself
          · exfalso
            have hclean : c.store.fs.entries t.dir = none ∨ faults.removeDir = none := by
              by_contra hnot
              rw [not_or] at hnot
              exact hgood ⟨hnot.2, e, t, rfl, by omega, ht, Option.isSome_iff_ne_none.mpr hnot.1⟩
            have := hok.mpr fun t' ht' => by
              obtain rfl := Option.some.inj (ht'.symm.trans ht)
              exact hclean
            cases this

/-- One operation of a cache that agrees with its store either keeps them in
step or loses an update that only the store has recorded. -/
theorem step_spec {c : Cache DiskStore} (h : Matches c) (op : Faults × Op) :
    (Loses c op → ¬Agrees (step c op).2) ∧ (¬Loses c op → Matches (step c op).2) := by
  obtain ⟨faults, op⟩ := op
  cases op with
  | openTorrent torrent layout =>
    exact ⟨fun hl => hl.elim, fun _ => matches_openTorrent h faults torrent layout⟩
  | write torrent file offset data => exact write_spec h faults torrent file offset data
  | pieceCompleted torrent piece => exact pieceCompleted_spec h faults torrent piece
  | remove torrent => exact remove_spec h faults torrent
  | read torrent file offset len =>
    refine ⟨fun hl => hl.elim, fun _ => ?_⟩
    simp only [step, read]
    cases he : c.torrents.lookup torrent with
    | none =>
      simp only [entry, nextTick_torrents, he]
      exact h
    | some e =>
      have hread : c.nextTick.entry torrent = .ok e := entry_eq_of_lookup (c := c.nextTick) he
      simp only [hread]
      exact Matches.setEntry (c := c.nextTick) h he rfl rfl rfl
  | pin torrent range =>
    refine ⟨fun hl => hl.elim, fun _ => ?_⟩
    simp only [step, pinInner]
    cases he : c.torrents.lookup torrent with
    | none =>
      simp only [entry, he]
      exact h
    | some e =>
      simp only [entry, he]
      exact Matches.setEntry (c := { c with nextPin := c.nextPin + 1 }) h he rfl rfl rfl
  | dropPin pin =>
    refine ⟨fun hl => hl.elim, fun _ => ?_⟩
    simp only [step, dropPin, nextTick_torrents]
    cases he : c.torrents.lookup pin.torrent with
    | none => exact h
    | some e => exact Matches.setEntry (c := c.nextTick) h he rfl rfl rfl

/-- In a run from a fresh cache over any directories the two levels agree after
every operation exactly when no operation of the run loses an update. -/
theorem agrees_iff_no_lost_update (fs : FileSystem) (capBytes : ℕ) (ops : List (Faults × Op)) :
    (∀ k, Agrees (Mealy.after step (new (DiskStore.new fs) capBytes) (ops.take k))) ↔
      ∀ k op, ops[k]? = some op →
        ¬Loses (Mealy.after step (new (DiskStore.new fs) capBytes) (ops.take k)) op :=
  Mealy.forall_after_iff (P := Matches) (Q := Agrees) (B := Loses) step
    (fun _ => Matches.agrees) (fun _ op h => (step_spec h op).2)
    (fun _ op h => (step_spec h op).1) (matches_new fs capBytes) ops

def retriedTorrent : InfoHash := ⟨List.replicate 20 1, InfoHash.length_ones⟩

/-- Two bytes are on disk when the manifest cannot be created; then the write
is retried without a fault. -/
def retriedWrite : List (Faults × Op) :=
  [(.none, .openTorrent retriedTorrent oneFileLayout),
    ({ createManifest := true }, .write retriedTorrent ⟨0⟩ 0 [7, 7]),
    (.none, .write retriedTorrent ⟨0⟩ 0 [7, 7])]

/-- The store then accounts for two bytes and the registry for none. -/
theorem retriedWrite_disagrees :
    let c := Mealy.after step (new (DiskStore.new .empty) 0) retriedWrite
    (c.torrents.lookup retriedTorrent).map Entry.stored = some 0 ∧
      (c.store.torrents.lookup retriedTorrent).map Torrent.stored = some 2 ∧ ¬Agrees c := by
  intro c
  have hentry : (c.torrents.lookup retriedTorrent).map Entry.stored = some 0 := by decide
  have hrecord : (c.store.torrents.lookup retriedTorrent).map Torrent.stored = some 2 := by decide
  refine ⟨hentry, hrecord, fun hagrees => ?_⟩
  obtain ⟨e, he, hzero⟩ := Option.map_eq_some_iff.mp hentry
  obtain ⟨t, ht, hagree⟩ := hagrees retriedTorrent e he
  rw [ht, Option.map_some, ← hagree.stored, hzero] at hrecord
  cases hrecord

end Cache

end Rustorr
