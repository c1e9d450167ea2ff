import Rustorr.Cache.InFlight

/-! What holds of a torrent between the steps of calls under way at once, and that the
steps of a write keep it. -/

namespace Rustorr

open Function (update)
open Cache (Error)
open Disk (Torrent)

/-- What a task still has to tell the entry of a torrent. -/
def CacheTask.due (torrent : InfoHash) : CacheTask → ℕ
  | .write w (.added bytes) => if w.torrent = torrent then bytes else 0
  | _ => 0

namespace CachePool

/-- All that a pool holds of one torrent. -/
structure View where
  stored : Option ℕ
  place : Option ℕ
  record : Option Torrent
  dir : Option Dir
  inodes : ℕ → ℕ
  removed : Bool
  written : ℕ → ℕ → Option UInt8
  due : ℕ
  critical : Option Critical

def view (p : CachePool) (torrent : InfoHash) : View where
  stored := (p.cache.torrents.lookup torrent).map Cache.Entry.stored
  place := p.disk.torrents.lookup torrent
  record := (p.disk.torrents.lookup torrent).map p.disk.heap
  dir := p.disk.fs.entries torrent.toText
  inodes := p.disk.inodes torrent.toText
  removed := p.removed torrent
  written := p.written torrent
  due := (p.tasks.map (CacheTask.due torrent)).sum
  critical := (p.critical.map Prod.snd).filter fun c => decide (c.torrent = torrent)

namespace View

variable {v v' : View} {h : InfoHash}

/-- The count `n` and what is on its way to it fit the record, and the record is backed. -/
structure Live (n : ℕ) (v : View) (t : Torrent) (d : Dir) : Prop where
  record : v.record = some t
  dir : v.dir = some d
  count : n + v.due ≤ t.stored
  backed : Backed v.written t d

structure Vacant (v : View) : Prop where
  stored : v.stored = none
  place : v.place = none
  due : v.due = 0

/-- What `restore` found in the directory. -/
def Found (h : InfoHash) (layout : TorrentLayout) (found : Option (Torrent × ℕ)) : Prop :=
  ∀ t n, found = some (t, n) → t.layout = layout ∧ t.dir = h.toText

def OpenSound (h : InfoHash) (layout : TorrentLayout) (v : View) : OpenPoint → Prop
  | .entered => v.removed = true → v.dir = none
  | .restored found => Found h layout found ∧ (v.removed = true → found = none ∧ v.dir = none)
  | .cleared found => Found h layout found ∧ (v.removed = true → found = none ∧ v.dir = none)
  | .created found =>
    Found h layout found ∧ (v.removed = true → found = none ∧ v.dir = some Dir.empty)
  | .inserted _ => False

/-- The states of a torrent between the steps of a run. -/
inductive Sound (h : InfoHash) (v : View) : Prop
  | absent : v.critical = none → Vacant v → (v.removed = true → v.dir = none) → Sound h v
  | registered (n : ℕ) : v.critical = none → v.stored = some n → v.place.isSome →
    (v.removed = true → ∃ t dir, Live n v t dir) → Sound h v
  | removing (r : ℕ) : v.critical = some (.removing h (some r)) → v.stored.isSome →
    v.place = none → v.due = 0 → Sound h v
  | opening (layout : TorrentLayout) (point : OpenPoint) :
    v.critical = some (.opening h layout point) → Vacant v → OpenSound h layout v point →
    Sound h v
  | inserted (layout : TorrentLayout) (recovered : Recovered) (pieces : PieceSet) :
    v.critical = some (.opening h layout (.inserted recovered)) → v.stored = none →
    v.place.isSome →
    Cache.insertPieces (PieceSet.new layout.pieceCount) recovered.completedPieces = .ok pieces →
    (v.removed = true → recovered.storedBytes = 0 ∧ ∃ t dir, Live 0 v t dir) → Sound h v

/-- The position of a data file holds what was put there. -/
def Put (v : View) (k pos : ℕ) : Prop :=
  ∃ dir b, v.dir = some dir ∧ v.written k pos = some b ∧ DiskStore.content dir k pos = some b

def InRange (v : View) (w : PieceWrite) (range : ByteRange) : Prop :=
  ∃ t, v.record = some t ∧
    t.layout.checkRange w.torrent w.file w.offset w.data.length = .ok range

/-- What a write that is under way relies on. -/
def Flying (v : View) (w : PieceWrite) : WritePoint → Prop
  | .called => True
  | .checked => True
  | .handled r => v.place = some r
  | .ranged r range => v.place = some r ∧ v.InRange w range
  | .opened r range inode => v.place = some r ∧ v.InRange w range ∧
    ∃ dir bytes, v.dir = some dir ∧ dir.files w.file.zeroBased = some bytes ∧
      v.inodes w.file.zeroBased = inode
  | .written r range => v.place = some r ∧ v.InRange w range ∧
    ∀ pos, range.start ≤ pos → pos < range.end_ → v.Put w.file.zeroBased pos
  | .added _ => True

theorem Flying.of_vacant {w : PieceWrite} {point : WritePoint} (hf : Flying v w point)
    (hplace : v.place = none) : Flying v' w point := by
  cases point with
  | called => trivial
  | checked => trivial
  | handled r => exact absurd (hplace.symm.trans hf) nofun
  | ranged r range => exact absurd (hplace.symm.trans hf.1) nofun
  | opened r range inode => exact absurd (hplace.symm.trans hf.1) nofun
  | written r range => exact absurd (hplace.symm.trans hf.1) nofun
  | added bytes => trivial

/-- What the steps of one write leave to the others of the torrent. -/
structure Grows (v v' : View) : Prop where
  place : v'.place = v.place
  record : ∀ t, v.record = some t → ∃ t', v'.record = some t' ∧ t'.layout = t.layout
  files : ∀ dir k bytes, v.dir = some dir → dir.files k = some bytes →
    ∃ dir' bytes', v'.dir = some dir' ∧ dir'.files k = some bytes' ∧ v'.inodes k = v.inodes k
  put : ∀ k pos, v.Put k pos → v'.Put k pos

theorem Grows.refl (v : View) : Grows v v :=
  ⟨rfl, fun t ht => ⟨t, ht, rfl⟩, fun dir _ bytes hd hb => ⟨dir, bytes, hd, hb, rfl⟩,
    fun _ _ hp => hp⟩

theorem Grows.inRange (hg : Grows v v') {w : PieceWrite} {range : ByteRange}
    (h : v.InRange w range) : v'.InRange w range := by
  obtain ⟨t, ht, hrange⟩ := h
  obtain ⟨t', ht', hlayout⟩ := hg.record t ht
  exact ⟨t', ht', hlayout ▸ hrange⟩

theorem Flying.grow {w : PieceWrite} {point : WritePoint} (hf : Flying v w point)
    (hg : Grows v v') : Flying v' w point := by
  cases point with
  | called => trivial
  | checked => trivial
  | handled r => exact hg.place.trans hf
  | ranged r range => exact ⟨hg.place.trans hf.1, hg.inRange hf.2⟩
  | opened r range inode =>
    obtain ⟨hplace, hrange, dir, bytes, hdir, hfile, hinode⟩ := hf
    obtain ⟨dir', bytes', hdir', hfile', hsame⟩ := hg.files dir _ bytes hdir hfile
    exact ⟨hg.place.trans hplace, hg.inRange hrange, dir', bytes', hdir', hfile',
      hsame.trans hinode⟩
  | written r range =>
    obtain ⟨hplace, hrange, hput⟩ := hf
    exact ⟨hg.place.trans hplace, hg.inRange hrange, fun pos h1 h2 => hg.put _ _ (hput pos h1 h2)⟩
  | added bytes => trivial

/-- A step of a write that has its torrent's record. -/
theorem Sound.step (hs : Sound h v) {r : ℕ} (hplace : v.place = some r)
    (hplace' : v'.place = some r) (hcritical : v'.critical = v.critical)
    (hstored : v'.stored = v.stored) (hremoved : v'.removed = v.removed)
    (hlive : ∀ n t dir, Live n v t dir → ∃ t' dir', Live n v' t' dir') : Sound h v' := by
  have hsome : v'.place.isSome := by rw [hplace']; rfl
  cases hs with
  | absent hc hvacant => exact absurd (hplace.symm.trans hvacant.place) nofun
  | registered n hc hn hp hl =>
    refine .registered n (hcritical.trans hc) (hstored.trans hn) hsome fun hr => ?_
    obtain ⟨t, dir, hlv⟩ := hl (hremoved ▸ hr)
    exact hlive n t dir hlv
  | removing r' hc hn hp => exact absurd (hplace.symm.trans hp) nofun
  | opening layout point hc hvacant => exact absurd (hplace.symm.trans hvacant.place) nofun
  | inserted layout recovered pieces hc hn hp hpieces hl =>
    refine .inserted layout recovered pieces (hcritical.trans hc) (hstored.trans hn) hsome hpieces
      fun hr => ?_
    obtain ⟨hzero, t, dir, hlv⟩ := hl (hremoved ▸ hr)
    exact ⟨hzero, hlive 0 t dir hlv⟩

end View

structure Inv (p : CachePool) : Prop where
  places : ∀ h r, p.disk.torrents.lookup h = some r →
    r < p.disk.allocated ∧ (p.disk.heap r).dir = h.toText
  taken : ∀ j h r, p.critical = some (j, .removing h (some r)) → (p.disk.heap r).dir = h.toText
  sound : ∀ h, (p.view h).Sound h
  flying : ∀ (j : ℕ) w point, p.tasks[j]? = some (CacheTask.write w point) → (p.view w.torrent).Flying w point

variable {p p' : CachePool} {i : ℕ}

theorem inv_start (fs : FileSystem) (heap : ℕ → Torrent) (inodes : List Char → ℕ → ℕ)
    (nextInode capBytes : ℕ) : Inv (start fs heap inodes nextInode capBytes) where
  places _ _ hr := absurd hr nofun
  taken _ _ _ hc := absurd hc nofun
  sound _ := .absent rfl ⟨rfl, rfl, rfl⟩ nofun
  flying _ _ _ ht := absurd ht nofun

/-- A step at the torrent `g`. -/
theorem Inv.move (h : Inv p) {g : InfoHash} (hother : ∀ k ≠ g, p'.view k = p.view k)
    (hplaces : ∀ k r, p'.disk.torrents.lookup k = some r →
      r < p'.disk.allocated ∧ (p'.disk.heap r).dir = k.toText)
    (htaken : ∀ j k r, p'.critical = some (j, .removing k (some r)) →
      (p'.disk.heap r).dir = k.toText)
    (hsound : (p'.view g).Sound g)
    (hflying : ∀ w point, (∃ j : ℕ, p.tasks[j]? = some (CacheTask.write w point)) → w.torrent = g →
      (p.view g).Flying w point → (p'.view g).Flying w point)
    (htasks : ∀ (j : ℕ) w point, p'.tasks[j]? = some (CacheTask.write w point) →
      p.tasks[j]? = some (CacheTask.write w point) ∨ w.torrent = g ∧ (p'.view g).Flying w point) :
    Inv p' := by
  refine ⟨hplaces, htaken, fun k => ?_, fun j w point hj => ?_⟩
  · by_cases hk : k = g
    · exact hk ▸ hsound
    · rw [hother k hk]
      exact h.sound k
  · rcases htasks j w point hj with hold | ⟨hg, hf⟩
    · by_cases hg : w.torrent = g
      · rw [hg]
        exact hflying w point ⟨j, hold⟩ hg (hg ▸ h.flying j w point hold)
      · rw [hother _ hg]
        exact h.flying j w point hold
    · exact hg ▸ hf

theorem sum_map_set {α : Type} (f : α → ℕ) {l : List α} {i : ℕ} {a : α} (h : l[i]? = some a)
    (b : α) : ((l.set i b).map f).sum + f a = (l.map f).sum + f b := by
  induction l generalizing i with
  | nil => cases h
  | cons x l ih =>
    cases i with
    | zero =>
      have hx : x = a := by simpa using h
      simp only [List.set_cons_zero, List.map_cons, List.sum_cons, hx]
      omega
    | succ i =>
      have hrest := ih (i := i) (by simpa using h)
      simp only [List.set_cons_succ, List.map_cons, List.sum_cons]
      omega

theorem due_setTask {old : CacheTask} (hi : p.tasks[i]? = some old) (task : CacheTask)
    (h : InfoHash) :
    ((p.setTask i task).view h).due + old.due h = (p.view h).due + task.due h :=
  sum_map_set _ hi task

/-- A task that owes a torrent as much as before changes nothing of the torrent. -/
theorem view_setTask {old : CacheTask} (hi : p.tasks[i]? = some old) {task : CacheTask}
    {h : InfoHash} (hdue : task.due h = old.due h) : (p.setTask i task).view h = p.view h := by
  have hsame := due_setTask hi task h
  rw [hdue] at hsame
  show { p.view h with due := ((p.setTask i task).view h).due } = p.view h
  rw [Nat.add_right_cancel hsame]

theorem due_write_of_ne {w : PieceWrite} {h : InfoHash} (hne : h ≠ w.torrent)
    (point : WritePoint) : (CacheTask.write w point).due h = 0 := by
  cases point with
  | added bytes => exact if_neg hne.symm
  | _ => rfl

/-- A step of a write: the map of open torrents and where the records point stay. -/
theorem Inv.moveWrite (h : Inv p) {w : PieceWrite} {old : WritePoint} {task : CacheTask}
    (hi : p.tasks[i]? = some (CacheTask.write w old)) (htasks : p'.tasks = p.tasks.set i task)
    (hcritical : p'.critical = p.critical) (htorrents : p'.disk.torrents = p.disk.torrents)
    (hallocated : p'.disk.allocated = p.disk.allocated)
    (hdirs : ∀ r, (p'.disk.heap r).dir = (p.disk.heap r).dir)
    (hother : ∀ k ≠ w.torrent, p'.view k = p.view k)
    (hsound : (p'.view w.torrent).Sound w.torrent)
    (hgrows : (p.view w.torrent).Grows (p'.view w.torrent))
    (htask : ∀ w' point, task = .write w' point →
      w'.torrent = w.torrent ∧ (p'.view w.torrent).Flying w' point) : Inv p' := by
  have hlt : i < p.tasks.length := (List.getElem?_eq_some_iff.mp hi).1
  refine h.move (g := w.torrent) hother (fun k r hr => ?_) (fun j k r hc => ?_) hsound
    (fun w' point _ _ hf => hf.grow hgrows) fun j w' point hj => ?_
  · rw [htorrents] at hr
    rw [hallocated, hdirs]
    exact h.places k r hr
  · rw [hdirs]
    exact h.taken j k r (hcritical ▸ hc)
  · rw [htasks] at hj
    by_cases hij : i = j
    · subst hij
      rw [List.getElem?_set_self hlt, Option.some.injEq] at hj
      exact Or.inr (htask w' point hj)
    · rw [List.getElem?_set_ne hij] at hj
      exact Or.inl hj

/-- A step of a write that changes nothing but where the write stands. -/
theorem Inv.setTask (h : Inv p) {w : PieceWrite} {old : WritePoint} {task : CacheTask}
    (hi : p.tasks[i]? = some (CacheTask.write w old))
    (hdue : ∀ k, task.due k = (CacheTask.write w old).due k)
    (htask : ∀ w' point, task = .write w' point →
      w'.torrent = w.torrent ∧ (p.view w.torrent).Flying w' point) : Inv (p.setTask i task) := by
  have hview : ∀ k, (p.setTask i task).view k = p.view k := fun k => view_setTask hi (hdue k)
  refine h.moveWrite hi rfl rfl rfl rfl (fun _ => rfl) (fun k _ => hview k) ?_ ?_ ?_
  · rw [hview]
    exact h.sound _
  · rw [hview]
    exact .refl _
  · rw [hview]
    exact htask

theorem view_setDisk {d : SharedDisk} {h : InfoHash}
    (htorrents : d.torrents.lookup h = p.disk.torrents.lookup h)
    (hheap : ∀ r, p.disk.torrents.lookup h = some r → d.heap r = p.disk.heap r)
    (hdir : d.fs.entries h.toText = p.disk.fs.entries h.toText)
    (hinodes : d.inodes h.toText = p.disk.inodes h.toText) : (p.setDisk d).view h = p.view h := by
  have hrecord : (d.torrents.lookup h).map d.heap = (p.disk.torrents.lookup h).map p.disk.heap := by
    rw [htorrents]
    cases hr : p.disk.torrents.lookup h with
    | none => rfl
    | some r => rw [Option.map_some, Option.map_some, hheap r hr]
  simp only [view, disk, setDisk] at *
  rw [hrecord, htorrents, hdir, hinodes]

theorem toText_ne {h k : InfoHash} (hne : h ≠ k) : h.toText ≠ k.toText :=
  fun he => hne (InfoHash.toText_injective he)

/-- The record of a write under way is the one its torrent has now. -/
theorem Inv.current (h : Inv p) {w : PieceWrite} {r : ℕ} {range : ByteRange}
    (hplace : (p.view w.torrent).place = some r) (hrange : (p.view w.torrent).InRange w range) :
    (p.disk.heap r).dir = w.torrent.toText ∧
    (p.view w.torrent).record = some (p.disk.heap r) ∧
    (p.disk.heap r).layout.checkRange w.torrent w.file w.offset w.data.length = .ok range := by
  have hrecord : (p.view w.torrent).record = some (p.disk.heap r) := by
    show (p.disk.torrents.lookup w.torrent).map p.disk.heap = _
    rw [show p.disk.torrents.lookup w.torrent = some r from hplace, Option.map_some]
  obtain ⟨t, ht, hr⟩ := hrange
  rw [hrecord, Option.some.injEq] at ht
  exact ⟨(h.places _ _ hplace).2, hrecord, ht ▸ hr⟩

/-- The directory and what it holds change, the record does not. -/
theorem View.Live.grow {v v' : View} {n : ℕ} {t : Torrent} {dir dir' : Dir}
    (hl : v.Live n t dir) (hg : v.Grows v') (hrecord : v'.record = v.record)
    (hdue : v'.due = v.due) (hdir : v'.dir = some dir') (hmanifest : dir'.manifest = dir.manifest) :
    v'.Live n t dir' where
  record := hrecord.trans hl.record
  dir := hdir
  count := hdue ▸ hl.count
  backed := by
    refine ⟨fun k x hx pos hpos => ?_, fun text htext => hl.backed.manifest text ?_⟩
    · obtain ⟨b, hb, hc⟩ := hl.backed.extents k x hx pos hpos
      obtain ⟨d, b', hd, hw, hcontent⟩ := hg.put k pos ⟨dir, b, hl.dir, hb, hc⟩
      rw [hdir, Option.some.injEq] at hd
      exact ⟨b', hw, hd ▸ hcontent⟩
    · exact hmanifest ▸ htext

theorem content_opened (dir : Dir) (index k pos : ℕ) :
    DiskStore.content (dir.setFile index ((dir.files index).getD [])) k pos =
      DiskStore.content dir k pos := by
  by_cases hk : k = index
  · subst hk
    cases hfile : dir.files k with
    | none => simp [DiskStore.content, hfile]
    | some bytes => simp [DiskStore.content, hfile]
  · rw [DiskStore.content_setFile_of_ne hk]

theorem Inv.openFile (h : Inv p) {w : PieceWrite} {r : ℕ} {range : ByteRange} (faults : Faults)
    (hi : p.tasks[i]? = some (CacheTask.write w (.ranged r range))) :
    Inv (p.stepWrite faults i w (.ranged r range)) := by
  obtain ⟨hplace, hrange⟩ := h.flying i w _ hi
  obtain ⟨hname, hrecord, -⟩ := h.current hplace hrange
  rw [stepWrite]
  cases hopen : p.disk.openFile faults (p.disk.heap r).dir w.file.zeroBased with
  | mk result d =>
    cases result with
    | error e =>
      rw [SharedDisk.openFile_eq_error hopen]
      exact h.setTask hi (fun _ => rfl) fun _ _ hw => by cases hw
    | ok inode =>
      obtain ⟨dir, ho⟩ := SharedDisk.openFile_eq_ok hopen
      rw [hname] at ho
      have hdirv : (p.view w.torrent).dir = some dir := ho.before
      have hdue : ∀ k, (CacheTask.write w (.opened r range inode)).due k =
          (CacheTask.write w (.ranged r range)).due k := fun _ => rfl
      have hview : ∀ k, ((p.setDisk d).setTask i (.write w (.opened r range inode))).view k =
          (p.setDisk d).view k := fun k => view_setTask (p := p.setDisk d) hi (hdue k)
      have hdir' : ((p.setDisk d).view w.torrent).dir =
          some (dir.setFile w.file.zeroBased ((dir.files w.file.zeroBased).getD [])) := by
        show d.fs.entries w.torrent.toText = _
        rw [ho.after, FileSystem.set_self]
      have hgrows : (p.view w.torrent).Grows ((p.setDisk d).view w.torrent) := by
        refine ⟨congrArg (fun m => m.lookup w.torrent) ho.torrents, fun t ht => ⟨t, ?_, rfl⟩,
          fun dir0 k bytes hd hk => ?_, fun k pos hpos => ?_⟩
        · show (d.torrents.lookup w.torrent).map d.heap = _
          rw [ho.torrents, ho.heap]
          exact ht
        · rw [hdirv, Option.some.injEq] at hd
          subst hd
          refine ⟨_, (dir.setFile w.file.zeroBased ((dir.files w.file.zeroBased).getD [])).files k
            |>.getD [], hdir', ?_, ho.kept k bytes hk⟩
          by_cases hkf : k = w.file.zeroBased
          · rw [hkf, Dir.setFile_self, Option.getD_some]
          · rw [Dir.setFile_of_ne _ _ hkf, hk, Option.getD_some]
        · obtain ⟨dir0, b, hd, hw, hc⟩ := hpos
          rw [hdirv, Option.some.injEq] at hd
          subst hd
          exact ⟨_, b, hdir', hw, (content_opened _ _ _ _).trans hc⟩
      refine h.moveWrite hi rfl rfl ho.torrents ho.allocated (fun r => ?_) (fun k hk => ?_) ?_ ?_ ?_
      · show (d.heap r).dir = _
        rw [ho.heap]
      · rw [hview]
        refine view_setDisk ?_ (fun r _ => ?_) ?_ (ho.others _ (toText_ne hk))
        · rw [ho.torrents]
        · rw [ho.heap]
        · rw [ho.after, FileSystem.set_of_ne _ _ (toText_ne hk)]
      · rw [hview]
        refine (h.sound w.torrent).step hplace (hgrows.place.trans hplace) rfl rfl rfl
          fun n t dir0 hl => ?_
        refine ⟨t, _, hl.grow hgrows ?_ rfl hdir' ?_⟩
        · show (d.torrents.lookup w.torrent).map d.heap = _
          rw [ho.torrents, ho.heap]
          rfl
        · have hsame : dir = dir0 := Option.some.inj (hdirv.symm.trans hl.dir)
          rw [Dir.setFile_manifest, hsame]
      · rw [hview]
        exact hgrows
      · rintro w' point ⟨⟩
        rw [hview]
        exact ⟨rfl, hgrows.place.trans hplace, hgrows.inRange hrange, _, _, hdir',
          Dir.setFile_self _ _ _, ho.inode⟩

/-- What `write_all_at` puts on the file of a torrent is there afterwards and what was put
there before is there still, or is overwritten. -/
theorem put_taken {v : View} {dir dir' : Dir} {index offset : ℕ} {bytes data : List UInt8}
    {faults : Faults} {w : ℕ → ℕ → Option UInt8}
    (hdir : v.dir = some dir) (hfile : dir.files index = some bytes)
    (hdir' : dir' = dir.setFile index (SharedDisk.taken faults bytes offset data))
    (hw0 : w = update v.written index fun pos =>
      if offset ≤ pos ∧ pos < offset + (faults.reached data).length then
        (faults.reached data)[pos - offset]?
      else v.written index pos) :
    (∀ k pos, v.Put k pos → View.Put { v with dir := some dir', written := w } k pos) ∧
    ∀ pos, offset ≤ pos → pos < offset + (faults.reached data).length →
      View.Put { v with dir := some dir', written := w } index pos := by
  have hcovered : ∀ pos, offset ≤ pos → pos < offset + (faults.reached data).length →
      View.Put { v with dir := some dir', written := w } index pos := by
    intro pos h1 h2
    have hne : faults.reached data ≠ [] := by
      intro he
      rw [he, List.length_nil] at h2
      omega
    have hlt : pos - offset < (faults.reached data).length := by omega
    refine ⟨dir', (faults.reached data)[pos - offset], rfl, ?_, ?_⟩
    · simp only [hw0, Function.update_self, if_pos (And.intro h1 h2),
        List.getElem?_eq_getElem hlt]
    · have hcontent := (@DiskStore.content_overwrite dir index offset pos _ hne).1 h1 h2
      rw [hfile, Option.getD_some, List.getElem?_eq_getElem hlt] at hcontent
      rw [hdir', SharedDisk.taken, if_neg hne]
      exact hcontent
  refine ⟨fun k pos hput => ?_, hcovered⟩
  obtain ⟨dir0, b, hd, hw, hc⟩ := hput
  rw [hdir, Option.some.injEq] at hd
  subst hd
  by_cases hk : k = index
  · subst hk
    by_cases hin : offset ≤ pos ∧ pos < offset + (faults.reached data).length
    · exact hcovered pos hin.1 hin.2
    · refine ⟨dir', b, rfl, ?_, ?_⟩
      · simp only [hw0, Function.update_self, if_neg hin]
        exact hw
      · rw [hdir', SharedDisk.taken]
        split
        · rw [SharedDisk.setFile_same hfile]
          exact hc
        · rename_i hne
          have hcontent := (@DiskStore.content_overwrite dir k offset pos _ hne).2 b hin hc
          rw [hfile, Option.getD_some] at hcontent
          exact hcontent
  · refine ⟨dir', b, rfl, ?_, ?_⟩
    · simp only [hw0, Function.update_of_ne hk]
      exact hw
    · rw [hdir', DiskStore.content_setFile_of_ne hk]
      exact hc

theorem Inv.writeAt (h : Inv p) {w : PieceWrite} {r inode : ℕ} {range : ByteRange}
    (faults : Faults) (hi : p.tasks[i]? = some (CacheTask.write w (.opened r range inode))) :
    Inv (p.stepWrite faults i w (.opened r range inode)) := by
  obtain ⟨hplace, hrange, dir, bytes, hdir, hfile, hinode⟩ := h.flying i w _ hi
  obtain ⟨hname, hrecord, hcheck⟩ := h.current hplace hrange
  obtain ⟨hstart, hend, -⟩ := TorrentLayout.checkRange_eq_ok hcheck
  have hlinked : p.disk.linked w.torrent.toText w.file.zeroBased inode = some (dir, bytes) :=
    SharedDisk.linked_eq_some hdir hfile hinode
  rw [stepWrite, hname, SharedDisk.writeAt_of_linked hlinked]
  simp only [hlinked, Option.isSome_some, if_true]
  generalize hd : ({ p.disk with fs := p.disk.fs.set w.torrent.toText (some (dir.setFile
    w.file.zeroBased (SharedDisk.taken faults bytes w.offset w.data))) } : SharedDisk) = d
  generalize hq : (p.record w.torrent w.file.zeroBased w.offset (faults.reached w.data)).setDisk d
    = q
  have hfs : d.fs = p.disk.fs.set w.torrent.toText (some (dir.setFile w.file.zeroBased
      (SharedDisk.taken faults bytes w.offset w.data))) := by rw [← hd]
  have hview : q.view w.torrent = { p.view w.torrent with
      dir := some (dir.setFile w.file.zeroBased
        (SharedDisk.taken faults bytes w.offset w.data))
      written := update (p.written w.torrent) w.file.zeroBased fun pos =>
        if (w.offset : ℕ) ≤ pos ∧ pos < w.offset + (faults.reached w.data).length then
          (faults.reached w.data)[pos - w.offset]?
        else p.written w.torrent w.file.zeroBased pos } := by
    subst hq hd
    simp [view, record, setDisk, disk]
  have hput := put_taken (v := p.view w.torrent) (w := update (p.written w.torrent)
    w.file.zeroBased fun pos =>
        if (w.offset : ℕ) ≤ pos ∧ pos < w.offset + (faults.reached w.data).length then
          (faults.reached w.data)[pos - w.offset]?
        else p.written w.torrent w.file.zeroBased pos) hdir hfile rfl rfl
  rw [← hview] at hput
  have hgrows : (p.view w.torrent).Grows (q.view w.torrent) := by
    refine ⟨by rw [hview], fun t ht => ⟨t, by rw [hview]; exact ht, rfl⟩,
      fun dir0 k bytes0 hd0 hk => ?_, hput.1⟩
    rw [hdir, Option.some.injEq] at hd0
    subst hd0
    rw [hview]
    by_cases hkf : k = w.file.zeroBased
    · exact ⟨_, _, rfl, by rw [hkf]; exact Dir.setFile_self _ _ _, rfl⟩
    · exact ⟨_, bytes0, rfl, (Dir.setFile_of_ne _ _ hkf).trans hk, rfl⟩
  have hmove : ∀ task : CacheTask, (∀ k, task.due k = 0) →
      (∀ w' point, task = .write w' point →
        w'.torrent = w.torrent ∧ (q.view w.torrent).Flying w' point) → Inv (q.setTask i task) := by
    intro task hdue htask
    have hiq : q.tasks[i]? = some (CacheTask.write w (.opened r range inode)) := by
      rw [← hq]
      exact hi
    have hsame : ∀ k, (q.setTask i task).view k = q.view k := fun k => view_setTask hiq (hdue k)
    refine h.moveWrite hi (by rw [← hq]; rfl) (by rw [← hq]; rfl) (by rw [← hq, ← hd]; rfl)
      (by rw [← hq, ← hd]; rfl) (fun r => by rw [← hq, ← hd]; rfl) (fun k hk => ?_) ?_ ?_ ?_
    · rw [hsame, ← hq]
      have hwritten : (p.record w.torrent w.file.zeroBased w.offset
          (faults.reached w.data)).view k = p.view k := by
        simp [view, record, disk, Function.update_of_ne hk]
      rw [← hwritten]
      refine view_setDisk (by rw [← hd]; rfl) (fun _ _ => by rw [← hd]; rfl) ?_ (by rw [← hd]; rfl)
      rw [hfs, FileSystem.set_of_ne _ _ (toText_ne hk)]
      rfl
    · rw [hsame]
      refine (h.sound w.torrent).step hplace (hgrows.place.trans hplace) (by rw [hview])
        (by rw [hview]) (by rw [hview]) fun n t dir0 hl => ⟨t, _, hl.grow hgrows (by rw [hview])
          (by rw [hview]) (by rw [hview]) ?_⟩
      have hsame : dir = dir0 := Option.some.inj (hdir.symm.trans hl.dir)
      rw [Dir.setFile_manifest, hsame]
    · rw [hsame]
      exact hgrows
    · rw [hsame]
      exact htask
  cases hfault : faults.writeAt with
  | some n =>
    simp only [Option.isSome_some, if_true]
    exact hmove _ (fun _ => rfl) fun _ _ hw => by cases hw
  | none =>
    simp only [Option.isSome_none, Bool.false_eq_true, if_false]
    refine hmove _ (fun _ => rfl) ?_
    rintro w' point ⟨⟩
    refine ⟨rfl, hgrows.place.trans hplace, hgrows.inRange hrange, fun pos h1 h2 => hput.2 pos ?_ ?_⟩
    · omega
    · have hreached : faults.reached w.data = w.data := by
        rw [Faults.reached, hfault]
      rw [hreached]
      omega

/-- The record with a range that has been put on its file, and a manifest that is the old
one or the record's. -/
theorem View.Live.account {v v' : View} {n : ℕ} {t : Torrent} {dir dir' : Dir}
    (hl : v.Live n t dir) {file : FileIndex} {range : ByteRange}
    (hlt : (file.zeroBased : ℕ) < t.layout.fileCount)
    (hput : ∀ pos, range.start ≤ pos → pos < range.end_ → v.Put file.zeroBased pos)
    (hrecord : v'.record = some (t.insert file range).2) (hdir : v'.dir = some dir')
    (hdue : v'.due ≤ v.due + (t.insert file range).1) (hwritten : v'.written = v.written)
    (hfiles : dir'.files = dir.files)
    (hmanifest : dir'.manifest = dir.manifest ∨
      dir'.manifest = some (Disk.manifest (t.insert file range).2)) :
    v'.Live n (t.insert file range).2 dir' where
  record := hrecord
  dir := hdir
  count := by
    rw [t.stored_insert hlt]
    have := hl.count
    omega
  backed := by
    have hltx : (file.zeroBased : ℕ) < t.extents.length := t.length_extents ▸ hlt
    have hold : t.extents[(file.zeroBased : ℕ)]? = some (t.extentsOf file) := by
      rw [Torrent.extentsOf, List.getD_eq_getElem?_getD, List.getElem?_eq_getElem hltx,
        Option.getD_some]
    have hcontent : DiskStore.content dir' = DiskStore.content dir := by
      funext k pos
      rw [DiskStore.content, DiskStore.content, hfiles]
    constructor
    · intro k x hx pos hpos
      rw [hwritten, hcontent]
      rw [Torrent.insert_extents] at hx
      by_cases hk : (file.zeroBased : ℕ) = k
      · subst hk
        rw [List.getElem?_set_self hltx, Option.some.injEq] at hx
        rw [← hx, Extents.bytes_insert, Finset.mem_union] at hpos
        rcases hpos with hpos | hpos
        · exact hl.backed.extents _ _ hold pos hpos
        · obtain ⟨h1, h2⟩ := Finset.mem_Ico.mp hpos
          obtain ⟨d, b, hd, hw, hc⟩ := hput pos h1 h2
          rw [hl.dir, Option.some.injEq] at hd
          exact ⟨b, hw, hd ▸ hc⟩
      · rw [List.getElem?_set_ne hk] at hx
        exact hl.backed.extents k x hx pos hpos
    · intro text htext
      rcases hmanifest with hm | hm
      · obtain ⟨earlier, h1, h2, h3⟩ := hl.backed.manifest text (hm ▸ htext)
        refine ⟨earlier, h1, h2, fun k x y hx hy => ?_⟩
        rw [Torrent.insert_extents] at hy
        by_cases hk : (file.zeroBased : ℕ) = k
        · subst hk
          rw [List.getElem?_set_self hltx, Option.some.injEq] at hy
          rw [← hy, Extents.bytes_insert]
          exact (h3 _ x _ hx hold).trans Finset.subset_union_left
        · rw [List.getElem?_set_ne hk] at hy
          exact h3 k x y hx hy
      · rw [hm, Option.some.injEq] at htext
        refine ⟨_, htext.symm, rfl, fun k x y hx hy => ?_⟩
        rw [hx, Option.some.injEq] at hy
        rw [hy]

theorem Inv.account (h : Inv p) {w : PieceWrite} {r : ℕ} {range : ByteRange} (faults : Faults)
    (hi : p.tasks[i]? = some (CacheTask.write w (.written r range))) :
    Inv (p.stepWrite faults i w (.written r range)) := by
  obtain ⟨hplace, hrange, hput⟩ := h.flying i w _ hi
  obtain ⟨hname, hrecord, hcheck⟩ := h.current hplace hrange
  obtain ⟨-, -, fileLen, hlen, -⟩ := TorrentLayout.checkRange_eq_ok hcheck
  have hlt := TorrentLayout.fileLength_lt hlen
  generalize ht : p.disk.heap r = t at *
  generalize hmanifest : Disk.writeManifest p.disk.fs (t.insert w.file range).2 faults = written
  obtain ⟨hothers, hgone, hthere⟩ :=
    Disk.writeManifest_cases p.disk.fs (t.insert w.file range).2 faults
  rw [hmanifest, Torrent.insert_dir, hname] at hothers hgone hthere
  obtain ⟨result, fs⟩ := written
  generalize hd : ({ p.disk with
    heap := update p.disk.heap r (t.insert w.file range).2, fs := fs } : SharedDisk) = d
  have haccount : p.disk.account faults r w.file range =
      (result.map fun _ => (t.insert w.file range).1, d) := by
    rw [SharedDisk.account, ht, ← hd]
    simp only [hmanifest]
  have hview : (p.setDisk d).view w.torrent = { p.view w.torrent with
      record := some (t.insert w.file range).2
      dir := fs.entries w.torrent.toText } := by
    have hlookup : p.disk.torrents.lookup w.torrent = some r := hplace
    subst hd
    simp only [view, setDisk, disk] at hlookup ⊢
    rw [hlookup]
    simp
  have hplace' : ((p.setDisk d).view w.torrent).place = some r := by
    rw [hview]
    exact hplace
  have hgrows : ∀ due, (p.view w.torrent).Grows { (p.setDisk d).view w.torrent with due := due } := by
    intro due
    rw [hview]
    refine ⟨rfl, fun t' ht' => ⟨_, rfl, ?_⟩, fun dir k bytes hdir hk => ?_,
      fun k pos hpos => ?_⟩
    · rw [hrecord, Option.some.injEq] at ht'
      rw [← ht', Torrent.insert_layout]
    · obtain ⟨dir', hdir', hfiles, -⟩ := hthere dir hdir
      exact ⟨dir', bytes, hdir', by rw [hfiles]; exact hk, rfl⟩
    · obtain ⟨dir, b, hdir, hw, hc⟩ := hpos
      obtain ⟨dir', hdir', hfiles, -⟩ := hthere dir hdir
      refine ⟨dir', b, hdir', hw, ?_⟩
      rw [DiskStore.content, hfiles]
      exact hc
  have hmove : ∀ task : CacheTask, (∀ k ≠ w.torrent, task.due k = 0) →
      task.due w.torrent ≤ (t.insert w.file range).1 →
      (∀ w' point, task = .write w' point →
        w' = w ∧ point = .added (t.insert w.file range).1) → Inv ((p.setDisk d).setTask i task) := by
    intro task hdue hadded htask
    have hiq : (p.setDisk d).tasks[i]? = some (CacheTask.write w (.written r range)) := hi
    have hown : ((p.setDisk d).setTask i task).view w.torrent =
        { (p.setDisk d).view w.torrent with
          due := (((p.setDisk d).setTask i task).view w.torrent).due } := rfl
    have htotal : (((p.setDisk d).setTask i task).view w.torrent).due =
        (p.view w.torrent).due + task.due w.torrent := due_setTask hiq task w.torrent
    refine h.moveWrite hi rfl rfl (by rw [← hd]; rfl) (by rw [← hd]; rfl) (fun r' => ?_)
      (fun k hk => ?_) ?_ (hown ▸ hgrows _) ?_
    · rw [← hd]
      show (update p.disk.heap r (t.insert w.file range).2 r').dir = _
      by_cases hr : r' = r
      · subst hr
        rw [Function.update_self, Torrent.insert_dir, ht]
      · rw [Function.update_of_ne hr]
    · rw [view_setTask hiq (hdue k hk)]
      refine view_setDisk (by rw [← hd]) (fun r' hr' => ?_) ?_ (by rw [← hd])
      · have hne : r' ≠ r := by
          rintro rfl
          have hdir := (h.places k r' hr').2
          rw [ht, hname] at hdir
          exact toText_ne hk hdir.symm
        rw [← hd]
        exact Function.update_of_ne hne _ _
      · rw [← hd]
        exact hothers _ (toText_ne hk)
    · refine (h.sound w.torrent).step hplace (hown ▸ hplace') rfl rfl rfl fun n t' dir hl => ?_
      have hsame : t = t' := Option.some.inj (hrecord.symm.trans hl.record)
      subst hsame
      obtain ⟨dir', hdir', hfiles, hm⟩ := hthere dir hl.dir
      refine ⟨_, dir', hl.account hlt hput ?_ ?_ ?_ rfl hfiles hm⟩
      · rw [hown, hview]
      · rw [hown, hview]
        exact hdir'
      · rw [htotal]
        omega
    · rintro w' point hw
      obtain ⟨rfl, rfl⟩ := htask w' point hw
      exact ⟨rfl, trivial⟩
  rw [stepWrite, haccount]
  cases result with
  | error e => exact hmove _ (fun _ _ => rfl) (Nat.zero_le _) fun _ _ hw => by cases hw
  | ok u =>
    refine hmove _ (fun k hk => due_write_of_ne hk _) (if_pos rfl).le ?_
    rintro w' point ⟨⟩
    exact ⟨rfl, rfl⟩

theorem Inv.added (h : Inv p) {w : PieceWrite} {bytes : ℕ} (faults : Faults)
    (hi : p.tasks[i]? = some (CacheTask.write w (.added bytes))) :
    Inv (p.stepWrite faults i w (.added bytes)) := by
  rw [stepWrite]
  split
  · exact h
  rename_i hfree
  have hcritical : p.critical = none := by simpa using hfree
  have hnone : (p.view w.torrent).critical = none := by
    show (p.critical.map Prod.snd).filter _ = none
    rw [hcritical]
    rfl
  generalize hdone : (CacheTask.finished (.ok .written)) = done
  have hzero : ∀ k, done.due k = 0 := fun k => by rw [← hdone]; rfl
  have hnot : ∀ w' point, done ≠ CacheTask.write w' point := fun _ _ => by
    rw [← hdone]
    intro hw
    cases hw
  have hdue : ∀ q : CachePool, q.tasks = p.tasks → ∀ k,
      ((q.setTask i done).view k).due + (CacheTask.write w (.added bytes)).due k =
        (q.view k).due := fun q hq k => by
    have hsum := due_setTask (p := q) (i := i) (hq ▸ hi) done k
    rw [hzero, Nat.add_zero] at hsum
    exact hsum
  have hown : (CacheTask.write w (.added bytes)).due w.torrent = bytes := if_pos rfl
  cases he : p.cache.torrents.lookup w.torrent with
  | none =>
    have hview : (p.setTask i done).view w.torrent = { p.view w.torrent with
        due := ((p.setTask i done).view w.torrent).due } := rfl
    show Inv (p.setTask i (.finished (.ok .written)))
    rw [hdone]
    refine h.moveWrite hi rfl rfl rfl rfl (fun _ => rfl) (fun k hk => ?_) ?_
      ⟨rfl, fun t ht => ⟨t, ht, rfl⟩, fun dir _ bytes hd hb => ⟨dir, bytes, hd, hb, rfl⟩,
        fun _ _ hp => hp⟩ (fun _ _ hw => absurd hw (hnot _ _))
    · exact view_setTask hi ((hzero k).trans (due_write_of_ne hk _).symm)
    · have hstored : (p.view w.torrent).stored = none := by
        show (p.cache.torrents.lookup w.torrent).map _ = none
        rw [he]
        rfl
      cases h.sound w.torrent with
      | absent hc hvacant hgone =>
        have hsum := hdue p rfl w.torrent
        rw [hvacant.due] at hsum
        exact .absent hc ⟨hvacant.stored, hvacant.place, by omega⟩ hgone
      | registered n hc hn => cases hstored.symm.trans hn
      | removing r hc => cases hnone.symm.trans hc
      | opening layout point hc => cases hnone.symm.trans hc
      | inserted layout recovered pieces hc => cases hnone.symm.trans hc
  | some e =>
    show Inv (finish i { p with
      cache := p.cache.setEntry w.torrent { e with stored := e.stored + bytes } } (.ok .written))
    generalize hq : ({ p with
      cache := p.cache.setEntry w.torrent { e with stored := e.stored + bytes } } : CachePool) = q
    have hsame : ∀ k ≠ w.torrent, q.view k = p.view k := fun k hk => by
      rw [← hq]
      simp [view, disk, AList.lookup_insert_ne hk]
    have hview : q.view w.torrent = { p.view w.torrent with stored := some (e.stored + bytes) } := by
      rw [← hq]
      simp [view, disk]
    have htasks : q.tasks = p.tasks := by rw [← hq]
    have hiq : q.tasks[i]? = some (CacheTask.write w (.added bytes)) := by rw [htasks, hi]
    have hown' : (q.setTask i done).view w.torrent = { q.view w.torrent with
        due := ((q.setTask i done).view w.torrent).due } := rfl
    show Inv (q.setTask i (.finished (.ok .written)))
    rw [hdone]
    refine h.moveWrite hi (by rw [← htasks]; rfl) (by rw [← hq]; rfl) (by rw [← hq]; rfl)
      (by rw [← hq]; rfl) (fun r => by rw [← hq]; rfl) (fun k hk => ?_) ?_ ?_ (fun _ _ hw => absurd hw (hnot _ _))
    · rw [← hsame k hk]
      exact view_setTask hiq ((hzero k).trans (due_write_of_ne hk _).symm)
    · have hstored : (p.view w.torrent).stored = some e.stored := by
        show (p.cache.torrents.lookup w.torrent).map _ = _
        rw [he]
        rfl
      have hsum := hdue q htasks w.torrent
      rw [hown, hview] at hsum
      cases h.sound w.torrent with
      | absent hc hvacant => cases hstored.symm.trans hvacant.stored
      | registered n hc hn hp hl =>
        rw [hstored, Option.some.injEq] at hn
        refine .registered (e.stored + bytes) (by rw [hown', hview]; exact hc)
          (by rw [hown', hview]) (by rw [hown', hview]; exact hp) fun hr => ?_
        rw [hown', hview] at hr
        obtain ⟨t, dir, hlive⟩ := hl hr
        refine ⟨t, dir, ?_, ?_, ?_, ?_⟩
        · rw [hown', hview]
          exact hlive.record
        · rw [hown', hview]
          exact hlive.dir
        · have := hlive.count
          simp only at hsum
          omega
        · rw [hown', hview]
          exact hlive.backed
      | removing r hc => cases hnone.symm.trans hc
      | opening layout point hc => cases hnone.symm.trans hc
      | inserted layout recovered pieces hc => cases hnone.symm.trans hc
    · rw [hown', hview]
      exact ⟨rfl, fun t ht => ⟨t, ht, rfl⟩, fun dir _ bytes hd hb => ⟨dir, bytes, hd, hb, rfl⟩,
        fun _ _ hp => hp⟩

theorem Inv.stepWrite (h : Inv p) {w : PieceWrite} {point : WritePoint} (faults : Faults)
    (hi : p.tasks[i]? = some (CacheTask.write w point)) : Inv (p.stepWrite faults i w point) := by
  cases point with
  | called =>
    rw [CachePool.stepWrite]
    split
    · exact h
    · split
      · exact h.setTask hi (fun _ => rfl) fun _ _ hw => by cases hw
      · refine h.setTask hi (fun _ => rfl) ?_
        rintro w' point ⟨⟩
        exact ⟨rfl, trivial⟩
  | checked =>
    rw [CachePool.stepWrite]
    cases hr : p.disk.torrents.lookup w.torrent with
    | none =>
      rw [SharedDisk.torrent, hr]
      exact h.setTask hi (fun _ => rfl) fun _ _ hw => by cases hw
    | some r =>
      rw [SharedDisk.torrent, hr]
      refine h.setTask hi (fun _ => rfl) ?_
      rintro w' point ⟨⟩
      exact ⟨rfl, hr⟩
  | handled r =>
    have hplace : p.disk.torrents.lookup w.torrent = some r := h.flying i w _ hi
    rw [CachePool.stepWrite]
    split
    · exact h.setTask hi (fun _ => rfl) fun _ _ hw => by cases hw
    · rename_i range hrange
      split
      · refine h.setTask hi (fun k => ite_self 0) ?_
        rintro w' point ⟨⟩
        exact ⟨rfl, trivial⟩
      · refine h.setTask hi (fun _ => rfl) ?_
        rintro w' point ⟨⟩
        refine ⟨rfl, hplace, p.disk.heap r, ?_, hrange⟩
        show (p.disk.torrents.lookup w.torrent).map p.disk.heap = _
        rw [hplace]
        rfl
  | ranged r range => exact h.openFile faults hi
  | opened r range inode => exact h.writeAt faults hi
  | written r range => exact h.account faults hi
  | added bytes => exact h.added faults hi

end CachePool

end Rustorr
