import Rustorr.Cache.Disk
import Rustorr.Cache.Memory

/-! Both stores refine the byte map, so their replies are the same wherever a
store does not keep completed pieces. -/

namespace Rustorr

open PieceStore (Op Reply Answer)
open Cache (Error)

namespace ByteMap

variable {m : ByteMap} {torrent : InfoHash} {file : FileIndex} {offset len : ℕ}

theorem admitted_of_none (h : m torrent = none) :
    m.admitted torrent file offset len = .error (.unknownTorrent torrent) := by
  simp [admitted, h]

theorem admitted_of_some {e : Entry} (h : m torrent = some e) :
    m.admitted torrent file offset len =
      (e.layout.checkRange torrent file offset len).map fun range => (e, range) := by
  simp [admitted, h]

end ByteMap

/-! ### The memory store -/

namespace MemoryStore

open Memory ByteMap

structure TorrentAgrees (t : Memory.Torrent) (e : ByteMap.Entry) : Prop where
  layout : t.layout = e.layout
  files : ∀ (i : ℕ) stored, t.files[i]? = some stored → Whole stored.blocks ∧
    FileAgrees stored.extents (e.bytes i) (byteAt stored.blocks)

def Agrees (s : MemoryStore) (m : ByteMap) : Prop :=
  ∀ h, Option.Rel TorrentAgrees (s.torrents.lookup h) (m h)

theorem agrees_new : Agrees new ByteMap.empty := fun _ => .none

theorem Agrees.set {s : MemoryStore} {m : ByteMap} (h : Agrees s m) (torrent : InfoHash)
    {t : Memory.Torrent} {e : ByteMap.Entry} (ht : TorrentAgrees t e) :
    Agrees ⟨s.torrents.insert torrent t⟩ (m.set torrent (some e)) := by
  intro k
  by_cases hk : k = torrent
  · subst hk
    rw [AList.lookup_insert, ByteMap.set_self]
    exact .some ht
  · rw [AList.lookup_insert_ne hk, ByteMap.set_of_ne _ _ hk]
    exact h k

theorem agrees_opened (layout : TorrentLayout) :
    TorrentAgrees ⟨layout, List.replicate layout.fileCount File.empty, List.length_replicate⟩
      (.opened layout) where
  layout := rfl
  files i stored h := by
    obtain rfl := List.eq_of_mem_replicate (List.mem_of_getElem? h)
    exact ⟨whole_empty, .empty _⟩

theorem TorrentAgrees.fileOf {t : Memory.Torrent} {e : ByteMap.Entry} (h : TorrentAgrees t e)
    {file : FileIndex} (hlt : (file.zeroBased : ℕ) < t.layout.fileCount) :
    Whole (fileOf t file).blocks ∧ FileAgrees (fileOf t file).extents (e.bytes file.zeroBased)
      (byteAt (fileOf t file).blocks) := by
  refine h.files file.zeroBased _ ?_
  rw [MemoryStore.fileOf, List.getD_eq_getElem?_getD,
    List.getElem?_eq_getElem (t.length_files ▸ hlt), Option.getD_some]

theorem TorrentAgrees.write {t : Memory.Torrent} {e : ByteMap.Entry} (h : TorrentAgrees t e)
    {torrent : InfoHash} {file : FileIndex} {offset : ℕ} {data : List UInt8} {range : ByteRange}
    (hrange : t.layout.checkRange torrent file offset data.length = .ok range) :
    TorrentAgrees (setFile t file ⟨((MemoryStore.fileOf t file).extents.insert range).2,
        writeBlocks (MemoryStore.fileOf t file).blocks offset data⟩)
      (e.write file.zeroBased offset data) := by
  obtain ⟨hstart, hend, fileLen, hlen, -⟩ := TorrentLayout.checkRange_eq_ok hrange
  have hlt := TorrentLayout.fileLength_lt hlen
  obtain ⟨hwhole, hfile⟩ := h.fileOf hlt
  obtain ⟨hwhole', hnew, hold⟩ := writeBlocks_spec hwhole offset data
  refine ⟨h.layout, fun i stored hi => ?_⟩
  by_cases hif : (file.zeroBased : ℕ) = i
  · subst hif
    rw [setFile, List.getElem?_set_self (t.length_files ▸ hlt), Option.some.injEq] at hi
    subst hi
    refine ⟨hwhole', ?_⟩
    simpa [ByteMap.Entry.write] using hfile.insert hstart hend hnew hold
  · rw [setFile, List.getElem?_set_ne hif] at hi
    simpa [ByteMap.Entry.write, Ne.symm hif] using h.files i stored hi

theorem Agrees.write {s : MemoryStore} {m : ByteMap} (h : Agrees s m) (torrent : InfoHash)
    (file : FileIndex) (offset : U64) (data : List UInt8) :
    (MemoryStore.write torrent file offset data s).1.map Answer.added =
        m.reply (.write torrent file offset data) ∧
      Agrees (MemoryStore.write torrent file offset data s).2
        (m.next (.write torrent file offset data)) := by
  simp only [MemoryStore.write, MemoryStore.torrent, ByteMap.reply, ByteMap.next]
  rcases optionRel_cases (h torrent) with ⟨hs, hm⟩ | ⟨t, e, hs, hm, hte⟩
  · rw [hs, admitted_of_none hm]
    exact ⟨rfl, h⟩
  · rw [hs, admitted_of_some hm, ← hte.layout]
    cases hrange : t.layout.checkRange torrent file offset data.length with
    | error error => exact ⟨by simp [hrange, Except.map], by simpa [hrange, Except.map] using h⟩
    | ok range =>
      obtain ⟨-, -, fileLen, hlen, -⟩ := TorrentLayout.checkRange_eq_ok hrange
      have hadded := (hte.fileOf (TorrentLayout.fileLength_lt hlen)).2.added_eq range
      refine ⟨?_, ?_⟩
      · simp [hrange, Except.map, hadded]
      · simpa [hrange, Except.map] using h.set torrent (hte.write hrange)

theorem Agrees.read {s : MemoryStore} {m : ByteMap} (h : Agrees s m) (torrent : InfoHash)
    (file : FileIndex) (offset : U64) (len : ℕ) :
    (MemoryStore.read torrent file offset len s).map Answer.bytes =
      m.reply (.read torrent file offset len) := by
  simp only [MemoryStore.read, MemoryStore.torrent, ByteMap.reply]
  rcases optionRel_cases (h torrent) with ⟨hs, hm⟩ | ⟨t, e, hs, hm, hte⟩
  · rw [hs, admitted_of_none hm]
    rfl
  · rw [hs, admitted_of_some hm, ← hte.layout]
    cases hrange : t.layout.checkRange torrent file offset len with
    | error error => simp [hrange, Except.map, Except.bind]
    | ok range =>
      obtain ⟨hstart, hend, fileLen, hlen, -⟩ := TorrentLayout.checkRange_eq_ok hrange
      obtain ⟨hwhole, hfile⟩ := hte.fileOf (TorrentLayout.fileLength_lt hlen)
      rcases hfile.read_cases hstart hend with ⟨hc, data, hread, hdata, hall⟩ | ⟨hc, hread⟩
      · subst hdata
        simp [hrange, hc, hread, readBlocks_eq hwhole hall, readReply, Except.map, Except.bind]
      · simp [hrange, hc, hread, readReply, Except.map, Except.bind]

/-- The memory store gives the byte map's reply to every operation. -/
theorem Agrees.apply {s : MemoryStore} {m : ByteMap} (h : Agrees s m) (op : Op) :
    (pieceStore.apply () s op).1 = m.reply op ∧ Agrees (pieceStore.apply () s op).2 (m.next op) := by
  cases op with
  | openTorrent torrent layout => exact ⟨rfl, h.set torrent (agrees_opened layout)⟩
  | write torrent file offset data => exact h.write torrent file offset data
  | read torrent file offset len => exact ⟨h.read torrent file offset len, h⟩
  | remove torrent =>
    refine ⟨rfl, fun k => ?_⟩
    by_cases hk : k = torrent
    · subst hk
      simp only [PieceStore.apply, pieceStore, remove, AList.lookup_erase, ByteMap.next,
        ByteMap.set_self]
      exact .none
    · simp only [PieceStore.apply, pieceStore, remove, AList.lookup_erase_ne hk, ByteMap.next,
        ByteMap.set_of_ne _ _ hk]
      exact h k
  | pieceCompleted torrent piece => exact ⟨rfl, h⟩

end MemoryStore

/-! ### The disk store -/

namespace DiskStore

open Disk ByteMap

/-- The bytes of a data file on disk. -/
def content (dir : Dir) (i pos : ℕ) : Option UInt8 := (dir.files i).bind fun bytes => bytes[pos]?

structure TorrentAgrees (fs : FileSystem) (torrent : InfoHash) (t : Disk.Torrent)
    (e : ByteMap.Entry) : Prop where
  layout : t.layout = e.layout
  dir : t.dir = torrent.toText
  files : ∃ dir, fs.entries torrent.toText = some dir ∧
    ∀ (i : ℕ) x, t.extents[i]? = some x → FileAgrees x (e.bytes i) (content dir i)

/-- Open torrents agree with the byte map and no other torrent has a directory. -/
structure Agrees (s : DiskStore) (m : ByteMap) : Prop where
  torrents : ∀ h, Option.Rel (TorrentAgrees s.fs h) (s.torrents.lookup h) (m h)
  absent : ∀ h, m h = none → s.fs.entries h.toText = none

theorem agrees_new : Agrees (new .empty) ByteMap.empty := ⟨fun _ => .none, fun _ _ => rfl⟩

/-- What happens in one torrent's directory leaves the others as they are. -/
theorem Agrees.set {s : DiskStore} {m : ByteMap} (h : Agrees s m) {torrent : InfoHash}
    {t : Disk.Torrent} {e : ByteMap.Entry} {fs : FileSystem}
    (hfs : ∀ name ≠ torrent.toText, fs.entries name = s.fs.entries name)
    (ht : TorrentAgrees fs torrent t e) :
    Agrees ⟨s.torrents.insert torrent t, fs⟩ (m.set torrent (some e)) := by
  have hother : ∀ k ≠ torrent, fs.entries k.toText = s.fs.entries k.toText := fun k hk =>
    hfs _ fun he => hk (InfoHash.toText_injective he)
  refine ⟨fun k => ?_, fun k hk => ?_⟩
  · by_cases hk : k = torrent
    · subst hk
      rw [AList.lookup_insert, ByteMap.set_self]
      exact .some ht
    · rw [AList.lookup_insert_ne hk, ByteMap.set_of_ne _ _ hk]
      rcases optionRel_cases (h.torrents k) with ⟨h1, h2⟩ | ⟨t', e', h1, h2, hte⟩
      · rw [h1, h2]
        exact .none
      · rw [h1, h2]
        refine .some ⟨hte.layout, hte.dir, ?_⟩
        rw [hother k hk]
        exact hte.files
  · by_cases hkt : k = torrent
    · subst hkt
      rw [ByteMap.set_self] at hk
      cases hk
    · rw [ByteMap.set_of_ne _ _ hkt] at hk
      exact (hother k hkt).trans (h.absent k hk)

theorem Agrees.forget {s : DiskStore} {m : ByteMap} (h : Agrees s m) (torrent : InfoHash) :
    Agrees ⟨s.torrents.erase torrent, s.fs.set torrent.toText none⟩ (m.set torrent none) := by
  have hother : ∀ k ≠ torrent,
      (s.fs.set torrent.toText none).entries k.toText = s.fs.entries k.toText := fun k hk =>
    FileSystem.set_of_ne _ _ fun he => hk (InfoHash.toText_injective he)
  refine ⟨fun k => ?_, fun k hk => ?_⟩
  · by_cases hk : k = torrent
    · subst hk
      rw [AList.lookup_erase, ByteMap.set_self]
      exact .none
    · rw [AList.lookup_erase_ne hk, ByteMap.set_of_ne _ _ hk]
      rcases optionRel_cases (h.torrents k) with ⟨h1, h2⟩ | ⟨t', e', h1, h2, hte⟩
      · rw [h1, h2]
        exact .none
      · rw [h1, h2]
        refine .some ⟨hte.layout, hte.dir, ?_⟩
        change ∃ dir, (s.fs.set torrent.toText none).entries k.toText = some dir ∧ _
        rw [hother k hk]
        exact hte.files
  · by_cases hkt : k = torrent
    · rw [hkt]
      exact FileSystem.set_self _ _ _
    · rw [ByteMap.set_of_ne _ _ hkt] at hk
      exact (hother k hkt).trans (h.absent k hk)

theorem restoreTorrent_of_absent {fs : FileSystem} {name : List Char} {layout : TorrentLayout}
    {faults : Faults} (h : fs.entries name = none) : restoreTorrent fs name layout faults = none := by
  have hrestore : restore (fs.entries name) layout faults = none := by
    rw [h]
    rfl
  unfold restoreTorrent
  split
  · rfl
  · rename_i hsome
    rw [hrestore] at hsome
    cases hsome

theorem flagged_replicate (n : ℕ) : PieceSet.flagged (List.replicate n false) = [] := by
  refine List.eq_nil_iff_forall_not_mem.mpr fun i hi => ?_
  have := PieceSet.mem_flagged.mp hi
  rw [List.getElem?_replicate] at this
  split at this <;> cases this

/-- Without faults `open` leaves an empty directory, whatever was open before. -/
theorem openTorrent_spec (s : DiskStore) (torrent : InfoHash) (layout : TorrentLayout)
    (hrestored : torrent ∉ s.torrents → s.fs.entries torrent.toText = none) :
    ∃ fs, openTorrent .none torrent layout s =
        (.ok ⟨0, []⟩, ⟨s.torrents.insert torrent (emptyTorrent torrent.toText layout), fs⟩) ∧
      fs.entries torrent.toText = some Dir.empty ∧
      ∀ name ≠ torrent.toText, fs.entries name = s.fs.entries name := by
  have hrestore : (if decide (torrent ∈ s.torrents) = true then none
      else restoreTorrent s.fs torrent.toText layout .none) = none := by
    split
    · rfl
    · rename_i hnot
      exact restoreTorrent_of_absent (hrestored (by simpa using hnot))
  have hremove : ∃ fs, s.fs.removeDir torrent.toText .none = (.ok (), fs) ∧
      fs.entries torrent.toText = none ∧
      ∀ name ≠ torrent.toText, fs.entries name = s.fs.entries name := by
    unfold FileSystem.removeDir
    cases hdir : s.fs.entries torrent.toText with
    | none => exact ⟨s.fs, rfl, hdir, fun _ _ => rfl⟩
    | some dir =>
      exact ⟨s.fs.set torrent.toText none, rfl, FileSystem.set_self _ _ _,
        fun name hne => FileSystem.set_of_ne _ _ hne⟩
  obtain ⟨fs, hremove, habsent, hother⟩ := hremove
  have hcreate : fs.createDirAll torrent.toText .none =
      (.ok (), fs.set torrent.toText (some Dir.empty)) := by
    simp [FileSystem.createDirAll, Faults.none, habsent]
  refine ⟨fs.set torrent.toText (some Dir.empty), ?_, FileSystem.set_self _ _ _, fun name hne => ?_⟩
  · simp only [openTorrent, hrestore, Option.isNone_none, if_true, hremove, hcreate,
      Option.getD_none]
    simp [recovered, emptyTorrent, flagged_replicate]
  · rw [FileSystem.set_of_ne _ _ hne, hother name hne]

theorem Agrees.openTorrent {s : DiskStore} {m : ByteMap} (h : Agrees s m) (torrent : InfoHash)
    (layout : TorrentLayout) :
    (DiskStore.openTorrent .none torrent layout s).1.map Answer.recovered =
        m.reply (.openTorrent torrent layout) ∧
      Agrees (DiskStore.openTorrent .none torrent layout s).2
        (m.next (.openTorrent torrent layout)) := by
  obtain ⟨fs, heq, hdir, hother⟩ := openTorrent_spec s torrent layout
    fun hnot => by
      rcases optionRel_cases (h.torrents torrent) with ⟨-, hm⟩ | ⟨t, e, hs, -, -⟩
      · exact h.absent torrent hm
      · exact absurd (AList.lookup_isSome.mp (by simp [hs])) hnot
  rw [heq]
  refine ⟨rfl, h.set hother ⟨rfl, rfl, Dir.empty, hdir, fun i x hx => ?_⟩⟩
  obtain rfl := List.eq_of_mem_replicate (List.mem_of_getElem? hx)
  exact .empty _

theorem TorrentAgrees.extentsOf {fs : FileSystem} {torrent : InfoHash} {t : Disk.Torrent}
    {e : ByteMap.Entry} (h : TorrentAgrees fs torrent t e) {file : FileIndex}
    (hlt : (file.zeroBased : ℕ) < t.layout.fileCount) :
    ∃ dir, fs.entries torrent.toText = some dir ∧
      FileAgrees (t.extentsOf file) (e.bytes file.zeroBased) (content dir file.zeroBased) := by
  obtain ⟨dir, hdir, hfiles⟩ := h.files
  refine ⟨dir, hdir, hfiles _ _ ?_⟩
  rw [Torrent.extentsOf, List.getD_eq_getElem?_getD,
    List.getElem?_eq_getElem (t.length_extents ▸ hlt), Option.getD_some]

/-- Without faults a manifest replaces the old one and nothing else changes. -/
theorem writeManifest_none {fs : FileSystem} {t : Disk.Torrent} {dir : Dir}
    (h : fs.entries t.dir = some dir) :
    writeManifest fs t .none =
      (.ok (), fs.set t.dir (some { dir with manifest := some (manifest t), temporary := none })) := by
  simp [writeManifest, h, Faults.none]

theorem writeFile_none {fs : FileSystem} {name : List Char} {dir : Dir} {index offset : ℕ}
    {data : List UInt8} (h : fs.entries name = some dir) :
    writeFile fs name index offset data .none =
      (.ok (), fs.set name (some (dir.setFile index
        (overwrite ((dir.files index).getD []) offset data)))) := by
  simp [writeFile, h, Faults.none]

theorem content_overwrite {dir : Dir} {index offset pos : ℕ} {data : List UInt8} (hne : data ≠ []) :
    (offset ≤ pos → pos < offset + data.length →
      content (dir.setFile index (overwrite ((dir.files index).getD []) offset data)) index pos =
        data[pos - offset]?) ∧
    ∀ v, ¬(offset ≤ pos ∧ pos < offset + data.length) → content dir index pos = some v →
      content (dir.setFile index (overwrite ((dir.files index).getD []) offset data)) index pos =
        some v := by
  have hget : content (dir.setFile index (overwrite ((dir.files index).getD []) offset data)) index
      pos = (overwrite ((dir.files index).getD []) offset data)[pos]? := by
    rw [content, Dir.setFile_self, Option.bind_some]
  rw [hget, getElem?_overwrite _ _ _ _ hne]
  refine ⟨fun h1 h2 => if_pos ⟨h1, h2⟩, fun v hout hv => ?_⟩
  obtain ⟨bytes, hbytes, hv⟩ := Option.bind_eq_some_iff.mp hv
  have hlt := (List.getElem?_eq_some_iff.mp hv).1
  rw [if_neg hout, hbytes, Option.getD_some, if_pos hlt, hv]

theorem content_setFile_of_ne {dir : Dir} {index i : ℕ} {bytes : List UInt8} (hne : i ≠ index) :
    content (dir.setFile index bytes) i = content dir i := by
  funext pos
  rw [content, content, Dir.setFile_of_ne _ _ hne]

theorem TorrentAgrees.write {fs : FileSystem} {torrent : InfoHash} {t : Disk.Torrent}
    {e : ByteMap.Entry} (h : TorrentAgrees fs torrent t e) {file : FileIndex} {offset : ℕ}
    {data : List UInt8} {range : ByteRange} (hne : data ≠ [])
    (hrange : t.layout.checkRange torrent file offset data.length = .ok range) :
    ∃ fs1 fs2, writeFile fs t.dir file.zeroBased offset data .none = (.ok (), fs1) ∧
      writeManifest fs1 (t.insert file range).2 .none = (.ok (), fs2) ∧
      (∀ name ≠ torrent.toText, fs2.entries name = fs.entries name) ∧
      TorrentAgrees fs2 torrent (t.insert file range).2 (e.write file.zeroBased offset data) := by
  obtain ⟨hstart, hend, fileLen, hlen, -⟩ := TorrentLayout.checkRange_eq_ok hrange
  have hlt := TorrentLayout.fileLength_lt hlen
  obtain ⟨dir, hdir, hfiles⟩ := h.files
  have hdir' : fs.entries t.dir = some dir := by rw [h.dir, hdir]
  refine ⟨_, _, writeFile_none hdir', writeManifest_none (FileSystem.set_self _ _ _),
    fun name hname => ?_, h.layout, h.dir, ?_⟩
  · rw [← h.dir] at hname
    rw [FileSystem.set_of_ne _ _ (by simpa using hname), FileSystem.set_of_ne _ _ hname]
  · refine ⟨_, by rw [Torrent.insert_dir, h.dir]; exact FileSystem.set_self _ _ _, fun i x hx => ?_⟩
    have hcontent : ∀ (d : Dir) text temporary,
        content { d with manifest := text, temporary := temporary } = content d := fun _ _ _ => rfl
    rw [hcontent]
    rw [Torrent.insert_extents] at hx
    by_cases hi : (file.zeroBased : ℕ) = i
    · subst hi
      have hltx : (file.zeroBased : ℕ) < t.extents.length := t.length_extents ▸ hlt
      rw [List.getElem?_set_self hltx, Option.some.injEq] at hx
      subst hx
      have hold : t.extents[(file.zeroBased : ℕ)]? = some (t.extentsOf file) := by
        rw [Torrent.extentsOf, List.getD_eq_getElem?_getD, List.getElem?_eq_getElem hltx,
          Option.getD_some]
      have hfile := (hfiles _ _ hold).insert hstart hend
        (fun pos h1 h2 => (content_overwrite hne).1 h1 h2)
        (fun pos v hout hv => (content_overwrite hne).2 v hout hv)
      simpa [ByteMap.Entry.write] using hfile
    · rw [List.getElem?_set_ne hi] at hx
      rw [content_setFile_of_ne (Ne.symm hi)]
      simpa [ByteMap.Entry.write, Ne.symm hi] using hfiles i x hx

theorem Agrees.write {s : DiskStore} {m : ByteMap} (h : Agrees s m) (torrent : InfoHash)
    (file : FileIndex) (offset : U64) (data : List UInt8) :
    (DiskStore.write .none torrent file offset data s).1.map Answer.added =
        m.reply (.write torrent file offset data) ∧
      Agrees (DiskStore.write .none torrent file offset data s).2
        (m.next (.write torrent file offset data)) := by
  simp only [DiskStore.write, DiskStore.torrent, ByteMap.reply, ByteMap.next]
  rcases optionRel_cases (h.torrents torrent) with ⟨hs, hm⟩ | ⟨t, e, hs, hm, hte⟩
  · rw [hs, admitted_of_none hm]
    exact ⟨rfl, h⟩
  · rw [hs, admitted_of_some hm, ← hte.layout]
    cases hrange : t.layout.checkRange torrent file offset data.length with
    | error error => exact ⟨by simp [hrange, Except.map], by simpa [hrange, Except.map] using h⟩
    | ok range =>
      obtain ⟨hstart, hend, fileLen, hlen, -⟩ := TorrentLayout.checkRange_eq_ok hrange
      obtain ⟨dir, -, hfile⟩ := hte.extentsOf (TorrentLayout.fileLength_lt hlen)
      simp only [hrange]
      by_cases hne : data = []
      · subst hne
        have hbytes : range.bytes = ∅ := by simp [ByteRange.bytes, hstart, hend]
        refine ⟨?_, ?_⟩
        · simp [Except.map, ByteMap.Entry.fresh, hbytes]
        · simpa [Except.map, ByteMap.set_of_eq hm] using h
      · obtain ⟨fs1, fs2, h1, h2, hother, hte'⟩ := hte.write hne hrange
        have hadded : (t.insert file range).1 = e.fresh file.zeroBased range := hfile.added_eq range
        refine ⟨?_, ?_⟩
        · simp [hne, h1, h2, hadded, Except.map]
        · simpa [hne, h1, h2, Except.map] using h.set hother hte'

theorem readFile_none {fs : FileSystem} {name : List Char} {dir : Dir} {index offset : ℕ}
    {data : List UInt8} (hdir : fs.entries name = some dir) (hne : data ≠ [])
    (h : ∀ i < data.length, content dir index (offset + i) = data[i]?) :
    readFile fs name index offset data.length .none = .ok data := by
  have hpos : 0 < data.length := List.length_pos_iff.mpr hne
  have hlast := h (data.length - 1) (by omega)
  rw [List.getElem?_eq_getElem (by omega)] at hlast
  obtain ⟨bytes, hbytes, hlast⟩ := Option.bind_eq_some_iff.mp hlast
  have hlt := (List.getElem?_eq_some_iff.mp hlast).1
  have hslice : (bytes.drop offset).take data.length = data := by
    refine List.ext_getElem? fun i => ?_
    by_cases hi : i < data.length
    · have hbyte := h i hi
      rw [content, hbytes, Option.bind_some] at hbyte
      rw [List.getElem?_take_of_lt hi, List.getElem?_drop, hbyte]
    · rw [List.getElem?_eq_none (by simp; omega), List.getElem?_eq_none (by omega)]
  have hlong : ¬bytes.length < offset + data.length := by omega
  simp [readFile, hdir, hbytes, Faults.none, hlong, hslice]

theorem Agrees.read {s : DiskStore} {m : ByteMap} (h : Agrees s m) (torrent : InfoHash)
    (file : FileIndex) (offset : U64) (len : ℕ) :
    (DiskStore.read .none torrent file offset len s).map Answer.bytes =
      m.reply (.read torrent file offset len) := by
  simp only [DiskStore.read, DiskStore.torrent, ByteMap.reply]
  rcases optionRel_cases (h.torrents torrent) with ⟨hs, hm⟩ | ⟨t, e, hs, hm, hte⟩
  · rw [hs, admitted_of_none hm]
    rfl
  · rw [hs, admitted_of_some hm, ← hte.layout]
    cases hrange : t.layout.checkRange torrent file offset len with
    | error error => simp [hrange, Except.map, Except.bind]
    | ok range =>
      obtain ⟨hstart, hend, fileLen, hlen, -⟩ := TorrentLayout.checkRange_eq_ok hrange
      obtain ⟨dir, hdir, hfile⟩ := hte.extentsOf (TorrentLayout.fileLength_lt hlen)
      rcases hfile.read_cases hstart hend with ⟨hc, data, hread, hdata, hall⟩ | ⟨hc, hread⟩
      · have hreply : (if len = 0 then .ok [] else
            readFile s.fs t.dir file.zeroBased offset len .none) = .ok data := by
          subst hdata
          by_cases hne : data = []
          · simp [hne]
          · have hdir' : s.fs.entries t.dir = some dir := by rw [hte.dir, hdir]
            rw [if_neg (by simpa using hne), readFile_none hdir' hne hall]
        simp [hrange, hc, hread, hreply, readReply, Except.map, Except.bind]
      · simp [hrange, hc, hread, readReply, Except.map, Except.bind]

theorem Agrees.remove {s : DiskStore} {m : ByteMap} (h : Agrees s m) (torrent : InfoHash) :
    (DiskStore.remove .none torrent s).1 = .ok () ∧
      Agrees (DiskStore.remove .none torrent s).2 (m.set torrent none) := by
  rcases optionRel_cases (h.torrents torrent) with ⟨hs, hm⟩ | ⟨t, e, hs, hm, hte⟩
  · rw [DiskStore.remove, hs, ByteMap.set_of_eq hm]
    exact ⟨rfl, h⟩
  · obtain ⟨dir, hdir, -⟩ := hte.files
    have hremove : s.fs.removeDir t.dir .none = (.ok (), s.fs.set torrent.toText none) := by
      rw [hte.dir, FileSystem.removeDir, hdir]
      rfl
    rw [DiskStore.remove, hs]
    simp only [hremove]
    exact ⟨trivial, h.forget torrent⟩

/-- What the disk store answers for a completed piece; the byte map only knows
which torrents are open. -/
def pieceReply (m : ByteMap) (torrent : InfoHash) (piece : PieceIndex) : Reply :=
  match m torrent with
  | none => .error (.unknownTorrent torrent)
  | some e =>
    if (piece.get : ℕ) < e.layout.pieceCount then .ok .done
    else .error (.pieceOutOfRange piece e.layout.pieceCount)

theorem Agrees.pieceCompleted {s : DiskStore} {m : ByteMap} (h : Agrees s m) (torrent : InfoHash)
    (piece : PieceIndex) :
    ((DiskStore.pieceCompleted .none torrent piece s).1.map fun _ => Answer.done) =
        pieceReply m torrent piece ∧
      Agrees (DiskStore.pieceCompleted .none torrent piece s).2 m := by
  simp only [DiskStore.pieceCompleted, DiskStore.torrent, pieceReply]
  rcases optionRel_cases (h.torrents torrent) with ⟨hs, hm⟩ | ⟨t, e, hs, hm, hte⟩
  · rw [hs, hm]
    exact ⟨rfl, h⟩
  · rw [hs, hm]
    simp only [t.length_completed, hte.layout]
    split
    · obtain ⟨dir, hdir, hfiles⟩ := hte.files
      have hpresent : s.fs.entries (t.complete piece).dir = some dir := by
        rw [Torrent.complete_dir, hte.dir, hdir]
      rw [writeManifest_none hpresent]
      rw [Torrent.complete_dir, hte.dir]
      have hagrees : TorrentAgrees (s.fs.set torrent.toText (some
          { dir with manifest := some (manifest (t.complete piece)), temporary := none })) torrent
          (t.complete piece) e :=
        ⟨hte.layout, hte.dir, { dir with manifest := _, temporary := none },
          FileSystem.set_self _ _ _, hfiles⟩
      have hset := h.set (fun name hne => FileSystem.set_of_ne _ _ hne) hagrees
      rw [ByteMap.set_of_eq hm] at hset
      exact ⟨rfl, hset⟩
    · exact ⟨rfl, h⟩

def reply (m : ByteMap) : Op → Reply
  | .pieceCompleted torrent piece => pieceReply m torrent piece
  | op => m.reply op

/-- The disk store gives the byte map's reply to every operation but a
completed piece, which it checks against the torrent's layout. -/
theorem Agrees.apply {s : DiskStore} {m : ByteMap} (h : Agrees s m) (op : Op) :
    (pieceStore.apply .none s op).1 = reply m op ∧
      Agrees (pieceStore.apply .none s op).2 (m.next op) := by
  cases op with
  | openTorrent torrent layout => exact h.openTorrent torrent layout
  | write torrent file offset data => exact h.write torrent file offset data
  | read torrent file offset len => exact ⟨h.read torrent file offset len, h⟩
  | remove torrent =>
    obtain ⟨hok, hagrees⟩ := h.remove torrent
    refine ⟨?_, hagrees⟩
    simp only [PieceStore.apply, pieceStore, hok]
    rfl
  | pieceCompleted torrent piece => exact h.pieceCompleted torrent piece

end DiskStore

namespace PieceStore

/-- The replies of the memory store to a sequence of operations. -/
def memoryReplies (ops : List Op) : List Reply := (MemoryStore.pieceStore.run () .new ops).1

/-- The replies of the disk store over an empty root, without an I/O error. -/
def diskReplies (ops : List Op) : List Reply :=
  (DiskStore.pieceStore.run .none (.new .empty) ops).1

theorem memoryReplies_getElem? (ops : List Op) (k : ℕ) :
    (memoryReplies ops)[k]? = ops[k]?.map (ByteMap.after (ops.take k)).reply := by
  rw [memoryReplies, run, Mealy.run_output]
  refine Option.map_congr fun op _ => ?_
  exact ((Mealy.after_simulation _ ByteMap.step (R := MemoryStore.Agrees)
    (fun s m op h => (h.apply op).2) MemoryStore.agrees_new (ops.take k)).apply op).1

theorem diskReplies_getElem? (ops : List Op) (k : ℕ) :
    (diskReplies ops)[k]? = ops[k]?.map (DiskStore.reply (ByteMap.after (ops.take k))) := by
  rw [diskReplies, run, Mealy.run_output]
  refine Option.map_congr fun op _ => ?_
  exact ((Mealy.after_simulation _ ByteMap.step (R := DiskStore.Agrees)
    (fun s m op h => (h.apply op).2) DiskStore.agrees_new (ops.take k)).apply op).1

/-- A read of the byte map succeeds exactly where every byte of an admitted
range holds a value, and returns these values. -/
theorem reply_read_eq_ok {m : ByteMap} {torrent : InfoHash} {file : FileIndex} {offset : U64}
    {len : ℕ} {data : List UInt8} :
    m.reply (.read torrent file offset len) = .ok (.bytes data) ↔
      ∃ e, m torrent = some e ∧ (∃ range, e.layout.checkRange torrent file offset len = .ok range) ∧
        data.length = len ∧ ∀ i < len, e.bytes file.zeroBased (offset + i) = data[i]? := by
  rw [ByteMap.reply]
  cases hm : m torrent with
  | none => simp [ByteMap.admitted_of_none hm, Except.bind]
  | some e =>
    cases hrange : e.layout.checkRange torrent file offset len with
    | error error => simp [ByteMap.admitted_of_some hm, hrange, Except.map, Except.bind]
    | ok range =>
      cases hread : e.read file.zeroBased offset len with
      | none =>
        have hne : ¬(data.length = len ∧ ∀ i < len, e.bytes file.zeroBased (offset + i) = data[i]?) :=
          fun h => by
            rw [ByteMap.Entry.read_eq_some.mpr h] at hread
            cases hread
        simpa [ByteMap.admitted_of_some hm, hrange, Except.map, Except.bind, ByteMap.readReply, hread]
          using hne
      | some held =>
        have hiff : e.read file.zeroBased offset len = some data ↔ _ := ByteMap.Entry.read_eq_some
        rw [hread, Option.some.injEq] at hiff
        simpa [ByteMap.admitted_of_some hm, hrange, Except.map, Except.bind, ByteMap.readReply, hread]
          using hiff

/-- Over any operations the two stores answer alike and as the byte map does,
except for completed pieces: the memory store accepts every one, the disk store
those within the layout of an open torrent. A read succeeds exactly when every
byte of an admitted range was written since the torrent was last opened, and
returns the value of the last write to each. -/
theorem stores_refine_byteMap (ops : List Op) (k : ℕ) (op : Op) (hop : ops[k]? = some op) :
    (∀ torrent piece, op = .pieceCompleted torrent piece →
      (memoryReplies ops)[k]? = some (.ok .done) ∧
      (diskReplies ops)[k]? =
        some (DiskStore.pieceReply (ByteMap.after (ops.take k)) torrent piece)) ∧
    ((∀ torrent piece, op ≠ .pieceCompleted torrent piece) →
      (memoryReplies ops)[k]? = some ((ByteMap.after (ops.take k)).reply op) ∧
      (diskReplies ops)[k]? = some ((ByteMap.after (ops.take k)).reply op)) ∧
    ∀ torrent file offset len, op = .read torrent file offset len → ∀ data,
      (diskReplies ops)[k]? = some (.ok (.bytes data)) ↔
        ∃ e, ByteMap.after (ops.take k) torrent = some e ∧
          (∃ range, e.layout.checkRange torrent file offset len = .ok range) ∧
          data.length = len ∧ ∀ i < len, e.bytes file.zeroBased (offset + i) = data[i]? := by
  rw [memoryReplies_getElem?, diskReplies_getElem?, hop, Option.map_some, Option.map_some]
  refine ⟨?_, fun hne => ⟨rfl, ?_⟩, ?_⟩
  · rintro torrent piece rfl
    exact ⟨rfl, rfl⟩
  · cases op with
    | pieceCompleted torrent piece => exact absurd rfl (hne torrent piece)
    | _ => rfl
  · rintro torrent file offset len rfl data
    rw [Option.some.injEq]
    exact reply_read_eq_ok

def sampleTorrent : InfoHash := ⟨List.replicate 20 1, InfoHash.length_ones⟩

/-- Two bytes written over a longer write, then read with their neighbour. -/
def sampleOps : List Op :=
  [.openTorrent sampleTorrent Disk.oneFileLayout, .write sampleTorrent ⟨0⟩ 0 [1, 1, 1],
    .write sampleTorrent ⟨0⟩ 1 [2, 2], .read sampleTorrent ⟨0⟩ 0 3]

theorem stores_refine_byteMap_sampleOps :
    (diskReplies sampleOps)[3]? = some (.ok (.bytes [1, 2, 2])) := by
  refine ((stores_refine_byteMap sampleOps 3 (.read sampleTorrent ⟨0⟩ 0 3) rfl).2.2 _ _ _ _ rfl
    [1, 2, 2]).mpr ?_
  refine ⟨_, rfl, ⟨⟨0, 3, by decide, by decide⟩, by decide⟩, rfl, ?_⟩
  decide

/-- A completed piece of a torrent that is not open is accepted by one store
and refused by the other. -/
theorem pieceCompleted_differs : ∃ ops : List Op,
    (memoryReplies ops).map Except.isOk ≠ (diskReplies ops).map Except.isOk :=
  ⟨[.pieceCompleted sampleTorrent ⟨0⟩], by decide⟩

end PieceStore

end Rustorr
