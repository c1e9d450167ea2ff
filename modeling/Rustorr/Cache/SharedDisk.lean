import Rustorr.Cache.Refinement

/-! The disk store (`disk.rs`) with shared records: a call keeps the record it was
handed while the map of open torrents changes under it. What `write` does between
two locks is an operation of its own. -/

namespace Rustorr

open Function (update)
open Cache (Error)

/-- How much of `data` a call of `write_all_at` puts on the file. -/
def Faults.reached (faults : Faults) (data : List UInt8) : List UInt8 :=
  match faults.writeAt with
  | some n => data.take n
  | .none => data

/-- `torrents` leads to a place in `heap`, as an `Arc` does; places from `allocated` on are
not in use. `inodes` numbers the data files, by which an open file is told from a later one
of its name. -/
structure SharedDisk where
  torrents : AList fun _ : InfoHash => ℕ
  heap : ℕ → Disk.Torrent
  allocated : ℕ
  fs : FileSystem
  inodes : List Char → ℕ → ℕ
  nextInode : ℕ

namespace SharedDisk

open Disk

variable (faults : Faults) (d : SharedDisk)

def torrent (torrent : InfoHash) : Except Error ℕ :=
  match d.torrents.lookup torrent with
  | some r => .ok r
  | none => .error (.unknownTorrent torrent)

/-- Opens a data file for writing and creates it where it is missing. -/
def openFile (name : List Char) (index : ℕ) : Except Error ℕ × SharedDisk :=
  match d.fs.entries name with
  | none => (.error (.io "open cache file for writing" .notFound), d)
  | some dir =>
    if faults.openFile then (.error (.io "open cache file for writing" .other), d)
    else match dir.files index with
      | some _ => (.ok (d.inodes name index), d)
      | none => (.ok d.nextInode, { d with
          fs := d.fs.set name (some (dir.setFile index []))
          inodes := update d.inodes name (update (d.inodes name) index d.nextInode)
          nextInode := d.nextInode + 1 })

/-- The directory and the bytes of an open file, while the file has not been removed. -/
def linked (name : List Char) (index inode : ℕ) : Option (Dir × List UInt8) := do
  let dir ← d.fs.entries name
  let bytes ← dir.files index
  guard (d.inodes name index = inode)
  return (dir, bytes)

/-- The bytes on an open file after `write_all_at`. -/
def taken (bytes : List UInt8) (offset : ℕ) (data : List UInt8) : List UInt8 :=
  if faults.reached data = [] then bytes else overwrite bytes offset (faults.reached data)

/-- `write_all_at`. The bytes of a file that was removed go with it. -/
def writeAt (name : List Char) (index inode offset : ℕ) (data : List UInt8) :
    Except Error Unit × SharedDisk :=
  let result := if faults.writeAt.isSome then .error (.io "write cache file" .other) else .ok ()
  match d.linked name index inode with
  | none => (result, d)
  | some (dir, bytes) =>
    (result, { d with
      fs := d.fs.set name (some (dir.setFile index (taken faults bytes offset data))) })

/-- The last section of `write`: the record takes the range and the manifest follows. -/
def account (record : ℕ) (file : FileIndex) (range : ByteRange) : Except Error ℕ × SharedDisk :=
  let (added, t) := (d.heap record).insert file range
  let (result, fs) := writeManifest d.fs t faults
  (result.map fun _ => added, { d with heap := update d.heap record t, fs := fs })

/-- `write` with nothing in between. -/
def write (torrent : InfoHash) (file : FileIndex) (offset : U64) (data : List UInt8) :
    Except Error ℕ × SharedDisk :=
  match d.torrent torrent with
  | .error e => (.error e, d)
  | .ok record => match (d.heap record).layout.checkRange torrent file offset data.length with
    | .error e => (.error e, d)
    | .ok range =>
      if data = [] then (.ok 0, d)
      else match d.openFile faults (d.heap record).dir file.zeroBased with
        | (.error e, d) => (.error e, d)
        | (.ok inode, d) =>
          match d.writeAt faults (d.heap record).dir file.zeroBased inode offset data with
          | (.error e, d) => (.error e, d)
          | (.ok (), d) => d.account faults record file range

/-- A new record, and the map leads to it. -/
def register (torrent : InfoHash) (t : Disk.Torrent) : SharedDisk :=
  { d with
    torrents := d.torrents.insert torrent d.allocated
    heap := update d.heap d.allocated t
    allocated := d.allocated + 1 }

/-! ### One call at a time -/

/-- The store without sharing: every open torrent has the record its place holds, and no
two torrents share a place. -/
structure Represents (s : DiskStore) : Prop where
  fs : s.fs = d.fs
  records : ∀ h, s.torrents.lookup h = (d.torrents.lookup h).map d.heap
  separate : ∀ h k r, d.torrents.lookup h = some r → d.torrents.lookup k = some r → h = k

variable {faults d}

theorem openFile_eq_error {name : List Char} {index : ℕ} {e : Error} {d' : SharedDisk}
    (h : d.openFile faults name index = (.error e, d')) : d' = d := by
  unfold openFile at h
  split at h
  · exact (Prod.mk.inj h).2.symm
  · split at h
    · exact (Prod.mk.inj h).2.symm
    · split at h
      · exact absurd (Prod.mk.inj h).1 nofun
      · exact absurd (Prod.mk.inj h).1 nofun

/-- What opening a data file changes: the file is there afterwards and a file that was
there has kept its number. -/
structure Opened (d d' : SharedDisk) (name : List Char) (index inode : ℕ) (dir : Dir) : Prop where
  torrents : d'.torrents = d.torrents
  heap : d'.heap = d.heap
  allocated : d'.allocated = d.allocated
  before : d.fs.entries name = some dir
  after : d'.fs = d.fs.set name (some (dir.setFile index ((dir.files index).getD [])))
  inode : d'.inodes name index = inode
  others : ∀ n ≠ name, d'.inodes n = d.inodes n
  kept : ∀ k bytes, dir.files k = some bytes → d'.inodes name k = d.inodes name k

theorem setFile_same {dir : Dir} {index : ℕ} {bytes : List UInt8}
    (h : dir.files index = some bytes) : dir.setFile index bytes = dir := by
  obtain ⟨manifest, temporary, files⟩ := dir
  simp only [Dir.setFile, Dir.mk.injEq, true_and]
  funext k
  by_cases hk : k = index
  · rw [if_pos hk, hk]
    exact h.symm
  · exact if_neg hk

theorem set_same {fs : FileSystem} {name : List Char} {dir : Option Dir}
    (h : fs.entries name = dir) : fs.set name dir = fs := by
  obtain ⟨entries⟩ := fs
  simp only [FileSystem.set, FileSystem.mk.injEq]
  funext n
  by_cases hn : n = name
  · rw [if_pos hn, hn]
    exact h.symm
  · exact if_neg hn

theorem openFile_eq_ok {name : List Char} {index inode : ℕ} {d' : SharedDisk}
    (h : d.openFile faults name index = (.ok inode, d')) :
    ∃ dir, Opened d d' name index inode dir := by
  unfold openFile at h
  cases hdir : d.fs.entries name with
  | none => simp [hdir] at h
  | some dir =>
    cases hfault : faults.openFile with
    | true => simp [hdir, hfault] at h
    | false =>
      cases hfile : dir.files index with
      | some bytes =>
        simp only [hdir, hfault, hfile, Bool.false_eq_true, if_false, Prod.mk.injEq,
          Except.ok.injEq] at h
        obtain ⟨hinode, rfl⟩ := h
        refine ⟨dir, rfl, rfl, rfl, hdir, ?_, hinode, fun _ _ => rfl, fun _ _ _ => rfl⟩
        rw [hfile, Option.getD_some, setFile_same hfile, set_same hdir]
      | none =>
        simp only [hdir, hfault, hfile, Bool.false_eq_true, if_false, Prod.mk.injEq,
          Except.ok.injEq] at h
        obtain ⟨hinode, rfl⟩ := h
        refine ⟨dir, rfl, rfl, rfl, hdir, ?_, ?_, fun n hn => Function.update_of_ne hn _ _,
          fun k bytes hk => ?_⟩
        · rw [hfile, Option.getD_none]
        · show update d.inodes name _ name index = inode
          rw [Function.update_self, Function.update_self]
          exact hinode
        · have hne : k ≠ index := by
            rintro rfl
            rw [hfile] at hk
            cases hk
          show update d.inodes name _ name k = _
          rw [Function.update_self, Function.update_of_ne hne]

theorem writeAt_of_linked {name : List Char} {index inode offset : ℕ} {data : List UInt8}
    {dir : Dir} {bytes : List UInt8} (h : d.linked name index inode = some (dir, bytes)) :
    d.writeAt faults name index inode offset data =
      (if faults.writeAt.isSome then .error (.io "write cache file" .other) else .ok (),
        { d with fs := d.fs.set name (some (dir.setFile index (taken faults bytes offset data))) }) := by
  simp only [writeAt, h]

theorem linked_eq_some {name : List Char} {index inode : ℕ} {dir : Dir} {bytes : List UInt8}
    (hdir : d.fs.entries name = some dir) (hfile : dir.files index = some bytes)
    (hinode : d.inodes name index = inode) : d.linked name index inode = some (dir, bytes) := by
  simp [linked, hdir, hfile, hinode]

theorem setFile_setFile (dir : Dir) (index : ℕ) (a b : List UInt8) :
    (dir.setFile index a).setFile index b = dir.setFile index b := by
  simp only [Dir.setFile, Dir.mk.injEq, true_and]
  funext k
  split <;> rfl

theorem set_set (fs : FileSystem) (name : List Char) (a b : Option Dir) :
    (fs.set name a).set name b = fs.set name b := by
  simp only [FileSystem.set, FileSystem.mk.injEq]
  funext n
  split <;> rfl

/-- Opening a file and writing to it is what `writeFile` does in one step. -/
theorem writeFile_eq (d : SharedDisk) (faults : Faults) (name : List Char) (index offset : ℕ)
    {data : List UInt8} (hne : data ≠ []) :
    (∃ e, d.openFile faults name index = (.error e, d) ∧
      writeFile d.fs name index offset data faults = (.error e, d.fs)) ∨
    ∃ inode d1 d2 dir result, d.openFile faults name index = (.ok inode, d1) ∧
      Opened d d1 name index inode dir ∧
      d1.writeAt faults name index inode offset data = (result, d2) ∧
      d2 = { d1 with fs := d2.fs } ∧
      writeFile d.fs name index offset data faults = (result, d2.fs) := by
  cases hopen : d.openFile faults name index with
  | mk result d1 =>
    cases result with
    | error e =>
      refine Or.inl ⟨e, by rw [openFile_eq_error hopen], ?_⟩
      unfold openFile at hopen
      unfold writeFile
      cases hdir : d.fs.entries name with
      | none =>
        simp only [hdir, Prod.mk.injEq, Except.error.injEq] at hopen
        rw [← hopen.1]
      | some dir =>
        cases hfault : faults.openFile with
        | true =>
          simp only [hdir, hfault, if_true, Prod.mk.injEq, Except.error.injEq] at hopen
          simp only [if_true, hopen.1]
        | false => cases hfile : dir.files index <;> simp [hdir, hfault, hfile] at hopen
    | ok inode =>
      obtain ⟨dir, ho⟩ := openFile_eq_ok hopen
      have hfault : faults.openFile = false := by
        cases hfault : faults.openFile with
        | false => rfl
        | true =>
          unfold openFile at hopen
          simp [ho.before, hfault] at hopen
      have hlinked : d1.linked name index inode =
          some (dir.setFile index ((dir.files index).getD []), (dir.files index).getD []) :=
        linked_eq_some (by rw [ho.after, FileSystem.set_self]) (Dir.setFile_self _ _ _) ho.inode
      refine Or.inr ⟨inode, d1, _, dir, _, rfl, ho, writeAt_of_linked hlinked, rfl, ?_⟩
      rw [ho.after, set_set, setFile_setFile]
      unfold writeFile taken Faults.reached
      rw [ho.before]
      simp only [hfault, Bool.false_eq_true, if_false]
      cases hat : faults.writeAt with
      | some n => rfl
      | none =>
        simp only [Option.isSome_none, Bool.false_eq_true, if_false, if_neg hne]

theorem Represents.account {s : DiskStore} (h : d.Represents s) {torrent : InfoHash} {r : ℕ}
    (hr : d.torrents.lookup torrent = some r) (file : FileIndex) (range : ByteRange)
    {d1 : SharedDisk} (hd1 : d1.torrents = d.torrents) (hheap : d1.heap = d.heap) :
    Represents (d1.account faults r file range).2
      ⟨s.torrents.insert torrent ((d.heap r).insert file range).2,
        (writeManifest d1.fs ((d.heap r).insert file range).2 faults).2⟩ where
  fs := by rw [SharedDisk.account, hheap]
  records k := by
    show _ = (d1.torrents.lookup k).map (update d1.heap r ((d1.heap r).insert file range).2)
    rw [hd1, hheap]
    by_cases hk : k = torrent
    · rw [hk, AList.lookup_insert, hr, Option.map_some, Function.update_self]
    · rw [AList.lookup_insert_ne hk, h.records k]
      cases hk' : d.torrents.lookup k with
      | none => rfl
      | some r' =>
        have hne : r' ≠ r := by
          rintro rfl
          exact hk (h.separate k torrent r' hk' hr)
        rw [Option.map_some, Option.map_some, Function.update_of_ne hne]
  separate k k' r' hk hk' := by
    have hsame : (d1.account faults r file range).2.torrents = d.torrents := hd1
    rw [hsame] at hk hk'
    exact h.separate k k' r' hk hk'

/-- `write` with nothing in between is `write` of the store without sharing. -/
theorem Represents.write {s : DiskStore} (h : d.Represents s) (torrent : InfoHash)
    (file : FileIndex) (offset : U64) (data : List UInt8) :
    (d.write faults torrent file offset data).1 = (s.write faults torrent file offset data).1 ∧
    Represents (d.write faults torrent file offset data).2
      (s.write faults torrent file offset data).2 := by
  have hrecord := h.records torrent
  unfold SharedDisk.write DiskStore.write
  cases hr : d.torrents.lookup torrent with
  | none =>
    rw [hr, Option.map_none] at hrecord
    simp only [SharedDisk.torrent, DiskStore.torrent, hr, hrecord]
    exact ⟨trivial, h⟩
  | some r =>
    rw [hr, Option.map_some] at hrecord
    simp only [SharedDisk.torrent, DiskStore.torrent, hr, hrecord]
    cases (d.heap r).layout.checkRange torrent file offset data.length with
    | error e => exact ⟨rfl, h⟩
    | ok range =>
      by_cases hnil : data = []
      · simp only [if_pos hnil]
        exact ⟨trivial, h⟩
      · simp only [if_neg hnil]
        rcases writeFile_eq d faults (d.heap r).dir file.zeroBased offset hnil with
          ⟨e, hopen, hwrite⟩ | ⟨inode, d1, d2, dir, result, hopen, ho, hat, hd2, hwrite⟩
        · rw [hopen, h.fs, hwrite]
          exact ⟨rfl, rfl, h.records, h.separate⟩
        · rw [hopen, h.fs, hwrite]
          simp only [ho.heap, hat]
          have htorrents : d2.torrents = d.torrents := by rw [hd2]; exact ho.torrents
          have hheap : d2.heap = d.heap := by rw [hd2]; exact ho.heap
          cases result with
          | error e =>
            refine ⟨rfl, rfl, fun k => ?_, fun k k' r' hk hk' => ?_⟩
            · show s.torrents.lookup k = _
              rw [htorrents, hheap]
              exact h.records k
            · have hk1 : d2.torrents.lookup k = some r' := hk
              have hk2 : d2.torrents.lookup k' = some r' := hk'
              rw [htorrents] at hk1 hk2
              exact h.separate k k' r' hk1 hk2
          | ok u =>
            refine ⟨?_, h.account hr file range htorrents hheap⟩
            show (d2.account faults r file range).1 =
              (writeManifest d2.fs ((d.heap r).insert file range).2 faults).1.map fun _ =>
                ((d.heap r).insert file range).1
            rw [SharedDisk.account, hheap]

end SharedDisk

namespace Disk

/-- Only the manifest and its replacement change. -/
theorem writeManifest_cases (fs : FileSystem) (t : Torrent) (faults : Faults) :
    (∀ name ≠ t.dir, (writeManifest fs t faults).2.entries name = fs.entries name) ∧
    (fs.entries t.dir = none → (writeManifest fs t faults).2.entries t.dir = none) ∧
    ∀ dir, fs.entries t.dir = some dir → ∃ dir',
      (writeManifest fs t faults).2.entries t.dir = some dir' ∧ dir'.files = dir.files ∧
      (dir'.manifest = dir.manifest ∨ dir'.manifest = some (manifest t)) := by
  unfold writeManifest
  cases hdir : fs.entries t.dir with
  | none => exact ⟨fun _ _ => rfl, fun _ => hdir, nofun⟩
  | some dir =>
    refine ⟨fun name hname => ?_, nofun, ?_⟩
    · cases faults.createManifest <;> cases faults.writeManifest <;> cases faults.syncManifest <;>
        cases faults.renameManifest <;> simp [FileSystem.set_of_ne _ _ hname]
    · rintro _ ⟨⟩
      cases faults.createManifest <;> cases faults.writeManifest <;> cases faults.syncManifest <;>
        cases faults.renameManifest <;> simp [hdir]

end Disk

end Rustorr
