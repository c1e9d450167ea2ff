import Rustorr.Cache.InFlightWrites

/-! Runs of calls under way at once in which no torrent is removed under a write: what is
accounted for after a reopen was written after it. -/

namespace Rustorr

open Function (update)
open Cache (Error)
open Disk (Torrent)

namespace CachePool

variable {p q : CachePool} {i : ℕ}

/-- A task that returns owes nothing and is no write. -/
theorem write_of_finish {reply : Except Error CacheReply} {j : ℕ} {w : PieceWrite}
    {point : WritePoint} (h : (p.finish i reply).tasks[j]? = some (CacheTask.write w point)) :
    p.tasks[j]? = some (CacheTask.write w point) := by
  by_cases hij : i = j
  · subst hij
    have hlt : i < (p.finish i reply).tasks.length := (List.getElem?_eq_some_iff.mp h).1
    have hself : (p.tasks.set i (.finished reply))[i]? = some (.finished reply) :=
      List.getElem?_set_self (by simpa [finish, setTask] using hlt)
    exact absurd (hself.symm.trans h) nofun
  · rw [← List.getElem?_set_ne hij]
    exact h

theorem view_finish {old : CacheTask} (hi : p.tasks[i]? = some old) (hold : ∀ k, old.due k = 0)
    (reply : Except Error CacheReply) (k : InfoHash) : (p.finish i reply).view k = p.view k :=
  view_setTask hi (hold k).symm

theorem Inv.finish (h : Inv p) {old : CacheTask} (hi : p.tasks[i]? = some old)
    (hold : ∀ k, old.due k = 0) (reply : Except Error CacheReply) : Inv (p.finish i reply) where
  places := h.places
  taken := h.taken
  sound k := by
    rw [view_finish hi hold]
    exact h.sound k
  flying j w point hj := by
    rw [view_finish hi hold]
    exact h.flying j w point (write_of_finish hj)

theorem view_hold_of_ne {c : Critical} {k : InfoHash} (hk : k ≠ c.torrent)
    (hp : (p.view k).critical = none) : (p.hold i c).view k = p.view k := by
  have hnone : ((p.hold i c).view k).critical = none := by
    show Option.filter (fun d : Critical => decide (d.torrent = k)) (some c) = none
    rw [Option.filter_some, if_neg (by simpa using hk.symm)]
  show { p.view k with critical := ((p.hold i c).view k).critical } = p.view k
  rw [hnone, ← hp]

theorem view_hold (c : Critical) :
    (p.hold i c).view c.torrent = { p.view c.torrent with critical := some c } := by
  have hsome : Option.filter (fun d : Critical => decide (d.torrent = c.torrent)) (some c) =
      some c := by
    rw [Option.filter_some, if_pos (by simp)]
  show { p.view c.torrent with
    critical := Option.filter (fun d : Critical => decide (d.torrent = c.torrent)) (some c) } = _
  rw [hsome]

theorem view_release_of_free {old : CacheTask} (hi : p.tasks[i]? = some old)
    (hold : ∀ k, old.due k = 0) (reply : Except Error CacheReply) {k : InfoHash}
    (hp : (p.view k).critical = none) : (p.release i reply).view k = p.view k := by
  rw [release, view_finish (p := { p with critical := none }) hi hold]
  show { p.view k with critical := none } = p.view k
  rw [← hp]

theorem view_release {old : CacheTask} (hi : p.tasks[i]? = some old)
    (hold : ∀ k, old.due k = 0) (reply : Except Error CacheReply) (k : InfoHash) :
    (p.release i reply).view k = { p.view k with critical := none } := by
  rw [release, view_finish (p := { p with critical := none }) hi hold]
  rfl

theorem critical_of_ne {c : Critical} (hc : p.critical = some (i, c)) {k : InfoHash}
    (hk : k ≠ c.torrent) : (p.view k).critical = none := by
  show (p.critical.map Prod.snd).filter _ = none
  rw [hc, Option.map_some, Option.filter_some, if_neg (by simpa using hk.symm)]

theorem critical_self {c : Critical} (hc : p.critical = some (i, c)) :
    (p.view c.torrent).critical = some c := by
  show (p.critical.map Prod.snd).filter _ = some c
  rw [hc, Option.map_some, Option.filter_some, if_pos (by simp)]

theorem critical_of_free (hc : p.critical = none) (k : InfoHash) : (p.view k).critical = none := by
  show (p.critical.map Prod.snd).filter _ = none
  rw [hc]
  rfl

theorem removeDir_eq_ok {fs fs' : FileSystem} {name : List Char} {faults : Faults}
    (h : fs.removeDir name faults = (.ok (), fs')) :
    fs'.entries name = none ∧ ∀ n ≠ name, fs'.entries n = fs.entries n := by
  unfold FileSystem.removeDir at h
  split at h
  · rename_i hnone
    cases h
    exact ⟨hnone, fun _ _ => rfl⟩
  · split at h
    · cases h
      exact ⟨FileSystem.set_self _ _ _, fun n hn => FileSystem.set_of_ne _ _ hn⟩
    · cases h

theorem removeDir_of_ne {fs fs' : FileSystem} {name : List Char} {faults : Faults}
    {result : Except Error Unit} (h : fs.removeDir name faults = (result, fs')) {n : List Char}
    (hn : n ≠ name) : fs'.entries n = fs.entries n := by
  unfold FileSystem.removeDir at h
  split at h
  · cases h
    rfl
  · split at h
    · cases h
      exact FileSystem.set_of_ne _ _ hn
    · cases h
      exact FileSystem.set_of_ne _ _ hn

theorem due_eq_zero {g : InfoHash} (hidle : ∀ task ∈ p.tasks, ¬InFlight g task) :
    (p.view g).due = 0 := by
  refine List.sum_eq_zero fun n hn => ?_
  obtain ⟨task, hmem, rfl⟩ := List.mem_map.mp hn
  have hnot := hidle task hmem
  unfold CacheTask.due
  split
  · exact if_neg hnot
  · rfl

theorem Inv.beginRemove (h : Inv p) {g : InfoHash} (faults : Faults)
    (hi : p.tasks[i]? = some (CacheTask.remove g)) (hfree : p.critical = none)
    (hslip : ¬p.Slip (.run i faults)) : Inv (p.beginRemove i g) := by
  unfold CachePool.beginRemove
  cases he : p.cache.torrents.lookup g with
  | none =>
    simp only [Cache.entry, he]
    exact h.finish hi (fun _ => rfl) _
  | some e =>
    simp only [Cache.entry, he]
    by_cases hpins : e.pins > 0
    · rw [if_pos hpins]
      exact h.finish hi (fun _ => rfl) _
    · rw [if_neg hpins]
      have hidle : ∀ task ∈ p.tasks, ¬InFlight g task := by
        intro task hmem hfl
        apply hslip
        simp only [Slip, hi, hfree]
        refine ⟨?_, task, hmem, hfl⟩
        simp [Cache.ensureUnpinned, Cache.entry, he, hpins]
      have hstored : (p.view g).stored = some e.stored := by
        show (p.cache.torrents.lookup g).map _ = _
        rw [he]
        rfl
      obtain ⟨r, hr⟩ : ∃ r, p.disk.torrents.lookup g = some r := by
        cases h.sound g with
        | absent hc hvacant => cases hstored.symm.trans hvacant.stored
        | registered n hc hn hp => exact Option.isSome_iff_exists.mp hp
        | removing r hc => cases (critical_of_free hfree g).symm.trans hc
        | opening layout point hc => cases (critical_of_free hfree g).symm.trans hc
        | inserted layout recovered pieces hc =>
          cases (critical_of_free hfree g).symm.trans hc
      generalize hq : p.setDisk { p.disk with torrents := p.disk.torrents.erase g } = q
      have hown : q.view g = { p.view g with place := none, record := none } := by
        rw [← hq]
        simp [view, setDisk, disk]
      have hother : ∀ k ≠ g, q.view k = p.view k := fun k hk => by
        rw [← hq]
        exact view_setDisk (AList.lookup_erase_ne hk) (fun _ _ => rfl) rfl rfl
      rw [hr]
      have hheld := view_hold (p := q) (i := i) (.removing g (some r))
      refine h.move (g := g) (fun k hk => ?_) (fun k r' hk => ?_) ?_ ?_ ?_ fun j w point hj =>
        Or.inl (by rw [← hq] at hj; exact hj)
      · rw [view_hold_of_ne hk ((hother k hk).symm ▸ critical_of_free hfree k)]
        exact hother k hk
      · rw [← hq] at hk ⊢
        have hlookup : (p.disk.torrents.erase g).lookup k = some r' := hk
        by_cases hkg : k = g
        · rw [hkg, AList.lookup_erase] at hlookup
          cases hlookup
        · rw [AList.lookup_erase_ne hkg] at hlookup
          exact h.places k r' hlookup
      · rintro j k r' ⟨⟩
        rw [← hq]
        exact (h.places g r hr).2
      · rw [show (Critical.removing g (some r)).torrent = g from rfl] at hheld
        rw [hheld, hown]
        exact .removing r rfl (by rw [hstored]; rfl) rfl (due_eq_zero hidle)
      · rintro w point ⟨j, hj⟩ hw -
        have hnot := hidle _ (List.mem_of_getElem? hj)
        cases point with
        | called => trivial
        | checked => trivial
        | handled r => exact absurd hw hnot
        | ranged r range => exact absurd hw hnot
        | opened r range inode => exact absurd hw hnot
        | written r range => exact absurd hw hnot
        | added bytes => trivial

/-- What the torrents have in common when a task that holds the lock takes a step. -/
structure Kept (g : InfoHash) (p q : CachePool) : Prop where
  tasks : q.tasks = p.tasks
  other : ∀ k ≠ g, q.view k = p.view k
  places : ∀ k r, q.disk.torrents.lookup k = some r →
    r < q.disk.allocated ∧ (q.disk.heap r).dir = k.toText
  flying : ∀ w point, (p.view g).Flying w point → (q.view g).Flying w point

theorem View.Flying.critical {v : View} {w : PieceWrite} {point : WritePoint}
    (h : v.Flying w point) (c : Option Critical) : View.Flying { v with critical := c } w point := by
  cases point <;> exact h

theorem Inv.hold (h : Inv p) {g : InfoHash} {layout : TorrentLayout} {point : OpenPoint}
    (hfree : ∀ k ≠ g, (p.view k).critical = none) (hq : Kept g p q)
    (hsound : View.Sound g { q.view g with critical := some (.opening g layout point) }) :
    Inv (q.hold i (.opening g layout point)) := by
  have hheld : (q.hold i (.opening g layout point)).view g =
      { q.view g with critical := some (.opening g layout point) } :=
    view_hold (.opening g layout point)
  refine h.move (g := g) (fun k hk => ?_) hq.places ?_ (hheld ▸ hsound)
    (fun w point _ _ hf => ?_) fun j w point hj => Or.inl (hq.tasks ▸ hj)
  · rw [view_hold_of_ne hk ((hq.other k hk).symm ▸ hfree k hk), hq.other k hk]
  · rintro j k r ⟨⟩
  · rw [hheld]
    exact (hq.flying w point hf).critical _

theorem Inv.release (h : Inv p) {c : Critical} (hc : p.critical = some (i, c))
    {old : CacheTask} (hi : p.tasks[i]? = some old) (hold : ∀ k, old.due k = 0)
    (hq : Kept c.torrent p q) (reply : Except Error CacheReply)
    (hsound : View.Sound c.torrent { q.view c.torrent with critical := none }) :
    Inv (q.release i reply) := by
  have hiq : q.tasks[i]? = some old := by rw [hq.tasks, hi]
  have hgone := view_release hiq hold reply c.torrent
  refine h.move (g := c.torrent) (fun k hk => ?_) hq.places nofun (hgone ▸ hsound)
    (fun w point _ _ hf => ?_) fun j w point hj => Or.inl ?_
  · rw [view_release_of_free hiq hold reply ((hq.other k hk).symm ▸ critical_of_ne hc hk),
      hq.other k hk]
  · rw [hgone]
    exact (hq.flying w point hf).critical _
  · rw [← hq.tasks]
    exact write_of_finish (p := { q with critical := none }) hj

/-- A step in the directory of a torrent that has no record. -/
theorem Inv.kept_fs (h : Inv p) {g : InfoHash} (hplace : (p.view g).place = none)
    {fs : FileSystem} (hfs : ∀ n ≠ g.toText, fs.entries n = p.disk.fs.entries n) :
    Kept g p (p.setDisk { p.disk with fs := fs }) where
  tasks := rfl
  other _ hk := view_setDisk rfl (fun _ _ => rfl) (hfs _ (toText_ne hk)) rfl
  places := h.places
  flying _ _ hf := hf.of_vacant hplace

theorem Inv.stepRemove (h : Inv p) {g : InfoHash} {removed : Option ℕ} (faults : Faults)
    (hc : p.critical = some (i, .removing g removed)) {old : CacheTask}
    (hi : p.tasks[i]? = some old) (hold : ∀ k, old.due k = 0)
    (hslip : ¬p.Slip (.run i faults)) : Inv (p.stepRemove faults i g removed) := by
  have hself : (p.view g).critical = some (.removing g removed) := critical_self hc
  obtain ⟨r, hr, hplace, hdue⟩ : ∃ r, removed = some r ∧ (p.view g).place = none ∧
      (p.view g).due = 0 := by
    cases h.sound g with
    | absent hn => exact absurd (hself.symm.trans hn) nofun
    | registered n hn => exact absurd (hself.symm.trans hn) nofun
    | removing r hr hs hp hd =>
      have hsame := hself.symm.trans hr
      cases hsame
      exact ⟨r, rfl, hp, hd⟩
    | opening layout point hn => exact absurd (hself.symm.trans hn) nofun
    | inserted layout recovered pieces hn => exact absurd (hself.symm.trans hn) nofun
  subst hr
  have hname := h.taken i g r hc
  have hok : (p.disk.fs.removeDir (p.disk.heap r).dir faults).1 = .ok () := by
    by_contra hne
    apply hslip
    simp only [Slip, hc]
    exact ⟨trivial, hne⟩
  rw [CachePool.stepRemove]
  cases hremove : p.disk.fs.removeDir (p.disk.heap r).dir faults with
  | mk result fs =>
    rw [hremove] at hok
    cases hok
    obtain ⟨hgone, hothers⟩ := removeDir_eq_ok hremove
    rw [hname] at hgone hothers
    have hkept := h.kept_fs hplace hothers
    have hnone : p.disk.torrents.lookup g = none := hplace
    generalize hd : ({ p.disk with fs := fs } : SharedDisk) = d at hkept
    generalize hq : ({ p.setDisk d with
      cache := { (p.setDisk d).cache with torrents := p.cache.torrents.erase g }
      removed := update p.removed g true } : CachePool) = q
    have hown : q.view g =
        { p.view g with
          stored := none
          dir := none
          removed := true } := by
      rw [← hq, ← hd]
      simp only [view, setDisk, disk] at hnone ⊢
      simp [hgone, hnone]
    have hother : ∀ k ≠ g, q.view k = p.view k := fun k hk => by
      refine Eq.trans ?_ (hkept.other k hk)
      rw [← hq]
      simp [view, setDisk, disk, AList.lookup_erase_ne hk, Function.update_of_ne hk]
    have hplaces : ∀ k r, q.disk.torrents.lookup k = some r →
        r < q.disk.allocated ∧ (q.disk.heap r).dir = k.toText := by
      rw [← hq, ← hd]
      exact h.places
    have hreply : ∃ reply, (p.setDisk { p.disk with fs := fs }).dropEntry i g =
        q.release i reply := by
      rw [← hq, ← hd]
      exact ⟨_, rfl⟩
    obtain ⟨reply, hreply⟩ := hreply
    show Inv ((p.setDisk { p.disk with fs := fs }).dropEntry i g)
    rw [hreply]
    refine h.release (c := .removing g (some r)) hc hi hold ⟨by rw [← hq]; rfl, hother, hplaces,
      fun w point hf => hf.of_vacant hplace⟩ reply ?_
    show View.Sound g { q.view g with critical := none }
    rw [hown]
    exact .absent rfl ⟨rfl, hplace, hdue⟩ fun _ => rfl

theorem Inv.kept (h : Inv p) (g : InfoHash) : Kept g p p :=
  ⟨rfl, fun _ _ => rfl, h.places, fun _ _ hf => hf⟩

theorem Inv.beginOpen (h : Inv p) {g : InfoHash} {layout : TorrentLayout}
    (hi : p.tasks[i]? = some (CacheTask.openTorrent g layout)) (hfree : p.critical = none) :
    Inv (p.beginOpen i g layout) := by
  unfold CachePool.beginOpen
  cases he : p.cache.torrents.lookup g with
  | some e => exact h.finish hi (fun _ => rfl) _
  | none =>
    have hstored : (p.view g).stored = none := by
      show (p.cache.torrents.lookup g).map _ = none
      rw [he]
      rfl
    refine h.hold (fun k _ => critical_of_free hfree k) (h.kept g) ?_
    have hnone := critical_of_free hfree g
    cases h.sound g with
    | absent hc hvacant hgone =>
      exact .opening layout .entered rfl ⟨hvacant.stored, hvacant.place, hvacant.due⟩ hgone
    | registered n hc hn => exact absurd (hstored.symm.trans hn) nofun
    | removing r hc => exact absurd (hnone.symm.trans hc) nofun
    | opening layout point hc => exact absurd (hnone.symm.trans hc) nofun
    | inserted layout recovered pieces hc => exact absurd (hnone.symm.trans hc) nofun

theorem restoreTorrent_dir {fs : FileSystem} {name : List Char} {layout : TorrentLayout}
    {faults : Faults} {t : Torrent} {stored : ℕ}
    (h : DiskStore.restoreTorrent fs name layout faults = some (t, stored)) : t.dir = name := by
  unfold DiskStore.restoreTorrent at h
  split at h
  · cases h
  · cases h
    rfl

theorem createDirAll_cases {fs fs' : FileSystem} {name : List Char} {faults : Faults}
    {result : Except Error Unit} (h : fs.createDirAll name faults = (result, fs')) :
    (∀ n ≠ name, fs'.entries n = fs.entries n) ∧ (result ≠ .ok () → fs' = fs) ∧
    (result = .ok () → fs.entries name = none → fs'.entries name = some Dir.empty) := by
  unfold FileSystem.createDirAll at h
  split at h
  · cases h
    exact ⟨fun _ _ => rfl, fun _ => rfl, nofun⟩
  · split at h
    · cases h
      exact ⟨fun n hn => FileSystem.set_of_ne _ _ hn, fun hne => absurd rfl hne,
        fun _ _ => FileSystem.set_self _ _ _⟩
    · rename_i hsome
      cases h
      exact ⟨fun _ _ => rfl, fun _ => rfl, fun _ hnone => absurd (hsome.symm.trans hnone) nofun⟩

theorem removeDir_of_none {fs : FileSystem} {name : List Char} (faults : Faults)
    (h : fs.entries name = none) : fs.removeDir name faults = (.ok (), fs) := by
  unfold FileSystem.removeDir
  rw [h]

theorem View.Sound.of_opening {v : View} {g : InfoHash} {layout : TorrentLayout}
    {point : OpenPoint} (h : v.Sound g) (hc : v.critical = some (.opening g layout point))
    (hpoint : ∀ recovered, point ≠ .inserted recovered) :
    v.Vacant ∧ View.OpenSound g layout v point := by
  cases h with
  | absent hn => exact absurd (hc.symm.trans hn) nofun
  | registered n hn => exact absurd (hc.symm.trans hn) nofun
  | removing r hn => exact absurd (hc.symm.trans hn) nofun
  | opening layout' point' hn hvacant hopen =>
    have hsame := hc.symm.trans hn
    cases hsame
    exact ⟨hvacant, hopen⟩
  | inserted layout' recovered pieces hn =>
    have hsame := hc.symm.trans hn
    cases hsame
    exact absurd rfl (hpoint recovered)

/-- `open` before the record is there: the directory is all that changes. -/
theorem Inv.openDir (h : Inv p) {g : InfoHash} {layout : TorrentLayout} {point point' : OpenPoint}
    (hc : p.critical = some (i, .opening g layout point)) (hvacant : (p.view g).Vacant)
    {fs : FileSystem} (hfs : ∀ n ≠ g.toText, fs.entries n = p.disk.fs.entries n)
    (hopen : View.OpenSound g layout { p.view g with dir := fs.entries g.toText } point') :
    Inv ((p.setDisk { p.disk with fs := fs }).hold i (.opening g layout point')) := by
  refine h.hold (fun k hk => critical_of_ne (c := .opening g layout point) hc hk)
    (h.kept_fs hvacant.place hfs) (.opening layout point' rfl ?_ ?_)
  · exact ⟨hvacant.stored, hvacant.place, hvacant.due⟩
  · cases point' <;> exact hopen

theorem Inv.openFails (h : Inv p) {g : InfoHash} {layout : TorrentLayout} {point : OpenPoint}
    (hc : p.critical = some (i, .opening g layout point)) {old : CacheTask}
    (hi : p.tasks[i]? = some old) (hold : ∀ k, old.due k = 0) (hvacant : (p.view g).Vacant)
    {fs : FileSystem} (hfs : ∀ n ≠ g.toText, fs.entries n = p.disk.fs.entries n)
    (hgone : p.removed g = true → fs.entries g.toText = none) (reply : Except Error CacheReply) :
    Inv ((p.setDisk { p.disk with fs := fs }).release i reply) :=
  h.release (c := .opening g layout point) hc hi hold (h.kept_fs hvacant.place hfs) reply
    (.absent rfl ⟨hvacant.stored, hvacant.place, hvacant.due⟩ hgone)

theorem Inv.stepEntered (h : Inv p) {g : InfoHash} {layout : TorrentLayout} (faults : Faults)
    (hc : p.critical = some (i, .opening g layout .entered)) :
    Inv (p.stepOpen faults i g layout .entered) := by
  obtain ⟨hvacant, hopen⟩ := (h.sound g).of_opening (critical_self hc) nofun
  rw [stepOpen]
  refine h.openDir hc hvacant (show ∀ n ≠ g.toText, p.disk.fs.entries n = p.disk.fs.entries n
      from fun _ _ => rfl) ⟨?_, fun hr => ⟨?_, hopen hr⟩⟩
  · intro t n hfound
    split at hfound
    · cases hfound
    · exact ⟨(DiskStore.restoreTorrent_eq_some hfound).1, restoreTorrent_dir hfound⟩
  · split
    · rfl
    · exact DiskStore.restoreTorrent_of_absent (hopen hr)

theorem Inv.stepRestored (h : Inv p) {g : InfoHash} {layout : TorrentLayout} (faults : Faults)
    {found : Option (Torrent × ℕ)} (hc : p.critical = some (i, .opening g layout (.restored found)))
    {old : CacheTask} (hi : p.tasks[i]? = some old) (hold : ∀ k, old.due k = 0) :
    Inv (p.stepOpen faults i g layout (.restored found)) := by
  obtain ⟨hvacant, hfound, hopen⟩ := (h.sound g).of_opening (critical_self hc) nofun
  rw [stepOpen]
  cases found with
  | some found =>
    simp only [Option.isNone_some, Bool.false_eq_true, if_false]
    refine h.openDir hc hvacant (fun _ _ => rfl) ⟨hfound, fun hr => ?_⟩
    exact absurd (hopen hr).1 nofun
  | none =>
    simp only [Option.isNone_none, if_true]
    cases hremove : p.disk.fs.removeDir g.toText faults with
    | mk result fs =>
      have hothers : ∀ n ≠ g.toText, fs.entries n = p.disk.fs.entries n := fun n hn =>
        removeDir_of_ne hremove hn
      cases result with
      | error e =>
        refine h.openFails hc hi hold hvacant hothers (fun hr => ?_) _
        rw [removeDir_of_none faults (hopen hr).2] at hremove
        cases hremove
      | ok u =>
        exact h.openDir hc hvacant hothers ⟨hfound, fun _ => ⟨rfl, (removeDir_eq_ok hremove).1⟩⟩

theorem Inv.stepCleared (h : Inv p) {g : InfoHash} {layout : TorrentLayout} (faults : Faults)
    {found : Option (Torrent × ℕ)} (hc : p.critical = some (i, .opening g layout (.cleared found)))
    {old : CacheTask} (hi : p.tasks[i]? = some old) (hold : ∀ k, old.due k = 0) :
    Inv (p.stepOpen faults i g layout (.cleared found)) := by
  obtain ⟨hvacant, hfound, hopen⟩ := (h.sound g).of_opening (critical_self hc) nofun
  rw [stepOpen]
  cases hcreate : p.disk.fs.createDirAll g.toText faults with
  | mk result fs =>
    obtain ⟨hothers, hfailed, hmade⟩ := createDirAll_cases hcreate
    cases result with
    | error e =>
      refine h.openFails hc hi hold hvacant hothers (fun hr => ?_) _
      rw [hfailed nofun]
      exact (hopen hr).2
    | ok u =>
      exact h.openDir hc hvacant hothers
        ⟨hfound, fun hr => ⟨(hopen hr).1, hmade rfl (hopen hr).2⟩⟩

/-- The record a reopened torrent starts with accounts for nothing. -/
theorem backed_emptyTorrent (written : ℕ → ℕ → Option UInt8) (name : List Char)
    (layout : TorrentLayout) : Backed written (Disk.emptyTorrent name layout) Dir.empty where
  extents k x hx pos hpos := by
    have hx' : (List.replicate layout.fileCount Extents.empty)[k]? = some x := hx
    rw [List.getElem?_replicate] at hx'
    split at hx'
    · cases hx'
      exact absurd hpos (Finset.notMem_empty pos)
    · cases hx'
  manifest _ htext := absurd htext nofun

theorem Inv.stepCreated (h : Inv p) {g : InfoHash} {layout : TorrentLayout} (faults : Faults)
    {found : Option (Torrent × ℕ)}
    (hc : p.critical = some (i, .opening g layout (.created found))) :
    Inv (p.stepOpen faults i g layout (.created found)) := by
  obtain ⟨hvacant, hfound, hopen⟩ := (h.sound g).of_opening (critical_self hc) nofun
  rw [stepOpen]
  obtain ⟨⟨t, stored⟩, hrecord⟩ : ∃ x, found.getD (Disk.emptyTorrent g.toText layout, 0) = x :=
    ⟨_, rfl⟩
  rw [hrecord]
  have htl : t.layout = layout ∧ t.dir = g.toText := by
    cases found with
    | none =>
      cases hrecord
      exact ⟨rfl, rfl⟩
    | some x =>
      cases hrecord
      exact hfound t stored rfl
  generalize hq : ({ p.setDisk (p.disk.register g t) with
    written := update p.written g fun _ _ => none } : CachePool) = q
  have hown : q.view g = { p.view g with
      place := some p.disk.allocated
      record := some t
      written := fun _ _ => none } := by
    rw [← hq]
    simp [view, setDisk, disk, SharedDisk.register]
  have hkept : Kept g p q := by
    refine ⟨by rw [← hq]; rfl, fun k hk => ?_, fun k r hr => ?_, fun w point hf =>
      hf.of_vacant hvacant.place⟩
    · have hwritten : q.view k = (p.setDisk (p.disk.register g t)).view k := by
        rw [← hq]
        simp [view, disk, setDisk, Function.update_of_ne hk]
      rw [hwritten]
      refine view_setDisk (AList.lookup_insert_ne hk) (fun r hr => ?_) rfl rfl
      exact Function.update_of_ne (h.places k r hr).1.ne _ _
    · rw [← hq] at hr ⊢
      have hlookup : (p.disk.torrents.insert g p.disk.allocated).lookup k = some r := hr
      show r < p.disk.allocated + 1 ∧ (update p.disk.heap p.disk.allocated t r).dir = k.toText
      by_cases hk : k = g
      · subst hk
        rw [AList.lookup_insert, Option.some.injEq] at hlookup
        subst hlookup
        rw [Function.update_self]
        exact ⟨Nat.lt_succ_self _, htl.2⟩
      · rw [AList.lookup_insert_ne hk] at hlookup
        obtain ⟨hlt, hdir⟩ := h.places k r hlookup
        rw [Function.update_of_ne hlt.ne]
        exact ⟨Nat.lt_succ_of_lt hlt, hdir⟩
  have hlen : t.completed.length = layout.pieceCount := htl.1 ▸ t.length_completed
  have hpieces : Cache.insertPieces (PieceSet.new layout.pieceCount)
      (DiskStore.recovered t.completed stored).completedPieces = .ok ⟨t.completed⟩ := by
    rw [← hlen]
    exact Disk.insertPieces_flagged (hlen ▸ layout.pieceCount_lt)
  show Inv (CachePool.hold i { p.setDisk (p.disk.register g t) with
    written := update p.written g fun _ _ => none }
    (.opening g layout (.inserted (DiskStore.recovered t.completed stored))))
  rw [hq]
  refine h.hold (fun k hk => critical_of_ne (c := .opening g layout (.created found)) hc hk) hkept
    ?_
  rw [hown]
  refine .inserted layout _ _ rfl hvacant.stored rfl hpieces fun hr => ?_
  obtain ⟨hnone, hdir⟩ := hopen hr
  subst hnone
  cases hrecord
  refine ⟨rfl, _, Dir.empty, rfl, hdir, ?_, backed_emptyTorrent _ _ _⟩
  show 0 + (p.view g).due ≤ _
  rw [hvacant.due]
  exact Nat.zero_le _

theorem Inv.stepInserted (h : Inv p) {g : InfoHash} {layout : TorrentLayout} (faults : Faults)
    {recovered : Recovered} (hc : p.critical = some (i, .opening g layout (.inserted recovered)))
    {old : CacheTask} (hi : p.tasks[i]? = some old) (hold : ∀ k, old.due k = 0) :
    Inv (p.stepOpen faults i g layout (.inserted recovered)) := by
  have hself : (p.view g).critical = some (.opening g layout (.inserted recovered)) :=
    critical_self hc
  obtain ⟨pieces, hplace, hpieces, hlive⟩ : ∃ pieces, (p.view g).place.isSome ∧
      Cache.insertPieces (PieceSet.new layout.pieceCount) recovered.completedPieces = .ok pieces ∧
      ((p.view g).removed = true →
        recovered.storedBytes = 0 ∧ ∃ t dir, (p.view g).Live 0 t dir) := by
    cases h.sound g with
    | absent hn => exact absurd (hself.symm.trans hn) nofun
    | registered n hn => exact absurd (hself.symm.trans hn) nofun
    | removing r hn => exact absurd (hself.symm.trans hn) nofun
    | opening layout' point hn hvacant hopen =>
      have hsame := hself.symm.trans hn
      cases hsame
      exact absurd hopen id
    | inserted layout' recovered' pieces hn hs hp hok hl =>
      have hsame := hself.symm.trans hn
      cases hsame
      exact ⟨pieces, hp, hok, hl⟩
  rw [stepOpen]
  simp only [hpieces]
  generalize he : (⟨layout, pieces, recovered.storedBytes, 0, [], Extents.empty,
    p.cache.nextTick.tick⟩ : Cache.Entry) = e
  generalize hq : ({ p with cache := p.cache.nextTick.setEntry g e } : CachePool) = q
  have hown : q.view g = { p.view g with stored := some recovered.storedBytes } := by
    rw [← hq, ← he]
    simp [view, disk]
  have hgrows : (p.view g).Grows (q.view g) := by
    rw [hown]
    exact ⟨rfl, fun t ht => ⟨t, ht, rfl⟩, fun dir _ bytes hd hb => ⟨dir, bytes, hd, hb, rfl⟩,
      fun _ _ hp => hp⟩
  refine h.release (c := .opening g layout (.inserted recovered)) hc hi hold
    ⟨by rw [← hq], fun k hk => ?_, by rw [← hq]; exact h.places, fun w point hf => hf.grow hgrows⟩
    _ ?_
  · have hkg : k ≠ g := hk
    rw [← hq]
    simp [view, disk, AList.lookup_insert_ne hkg]
  · show View.Sound g { q.view g with critical := none }
    rw [hown]
    refine .registered recovered.storedBytes rfl rfl hplace fun hr => ?_
    obtain ⟨hzero, t, dir, hl⟩ := hlive hr
    rw [hzero]
    exact ⟨t, dir, hl.record, hl.dir, hl.count, hl.backed⟩

theorem Inv.stepCritical (h : Inv p) {c : Critical} (faults : Faults)
    (hc : p.critical = some (i, c)) {old : CacheTask} (hi : p.tasks[i]? = some old)
    (hold : ∀ k, old.due k = 0) (hslip : ¬p.Slip (.run i faults)) :
    Inv (p.stepCritical faults i c) := by
  cases c with
  | removing g removed => exact h.stepRemove faults hc hi hold hslip
  | opening g layout point =>
    cases point with
    | entered => exact h.stepEntered faults hc
    | restored found => exact h.stepRestored faults hc hi hold
    | cleared found => exact h.stepCleared faults hc hi hold
    | created found => exact h.stepCreated faults hc
    | inserted recovered => exact h.stepInserted faults hc hi hold

theorem Inv.run (h : Inv p) (faults : Faults) (hslip : ¬p.Slip (.run i faults)) :
    Inv (p.run faults i) := by
  unfold CachePool.run
  split
  · rename_i w point hi
    exact h.stepWrite faults hi
  · rename_i torrent hi hfree
    exact h.beginRemove faults hi hfree hslip
  · rename_i torrent layout hi hfree
    exact h.beginOpen hi hfree
  · rename_i torrent j c hi hc
    split
    · rename_i hij
      subst hij
      exact h.stepCritical faults hc hi (fun _ => rfl) hslip
    · exact h
  · rename_i torrent layout j c hi hc
    split
    · rename_i hij
      subst hij
      exact h.stepCritical faults hc hi (fun _ => rfl) hslip
    · exact h
  · exact h

/-- A call that has not taken a step. -/
theorem Inv.request (h : Inv p) (call : CacheCall) :
    Inv { p with tasks := p.tasks ++ [call.task] } := by
  have hview : ∀ k, CachePool.view { p with tasks := p.tasks ++ [call.task] } k = p.view k := by
    intro k
    have hdue : call.task.due k = 0 := by cases call <;> rfl
    simp [view, disk, hdue]
  refine ⟨h.places, h.taken, fun k => ?_, fun j w point hj => ?_⟩
  · rw [hview]
    exact h.sound k
  · rw [hview]
    by_cases hlt : j < p.tasks.length
    · rw [List.getElem?_append_left hlt] at hj
      exact h.flying j w point hj
    · rw [List.getElem?_append_right (by omega)] at hj
      have hmem := List.mem_of_getElem? hj
      rw [List.mem_singleton] at hmem
      cases call with
      | write w' =>
        cases hmem
        trivial
      | remove torrent => cases hmem
      | openTorrent torrent layout => cases hmem

theorem inv_of_reachable (h : Reachable (fun p e => ¬p.Slip e) p) : Inv p := by
  induction h with
  | start fs heap inodes nextInode capBytes => exact inv_start fs heap inodes nextInode capBytes
  | @step p e _ hslip ih =>
    cases e with
    | request call => exact ih.request call
    | run i faults => exact ih.run faults hslip

/-- The lock is held by a task that has not returned. -/
def Held (p : CachePool) : Prop :=
  ∀ j c, p.critical = some (j, c) → ∃ task, p.tasks[j]? = some task ∧
    (∀ w point, task ≠ .write w point) ∧ ∀ reply, task ≠ .finished reply

theorem stepWrite_frame (p : CachePool) (faults : Faults) (i : ℕ) (w : PieceWrite)
    (point : WritePoint) : (p.stepWrite faults i w point).critical = p.critical ∧
      ∀ j ≠ i, (p.stepWrite faults i w point).tasks[j]? = p.tasks[j]? := by
  have hset : ∀ (q : CachePool) (task : CacheTask), q.critical = p.critical → q.tasks = p.tasks →
      (q.setTask i task).critical = p.critical ∧
        ∀ j ≠ i, (q.setTask i task).tasks[j]? = p.tasks[j]? := fun q task hc ht =>
    ⟨hc, fun j hj => (List.getElem?_set_ne hj.symm).trans (by rw [ht])⟩
  cases point with
  | called =>
    rw [stepWrite]
    split
    · exact ⟨rfl, fun _ _ => rfl⟩
    · split <;> exact hset _ _ rfl rfl
  | checked =>
    rw [stepWrite]
    split <;> exact hset _ _ rfl rfl
  | handled r =>
    rw [stepWrite]
    split
    · exact hset _ _ rfl rfl
    · split <;> exact hset _ _ rfl rfl
  | ranged r range =>
    rw [stepWrite]
    split <;> exact hset _ _ rfl rfl
  | opened r range inode =>
    rw [stepWrite]
    generalize p.disk.writeAt faults (p.disk.heap r).dir w.file.zeroBased inode w.offset w.data = x
    obtain ⟨result, d⟩ := x
    cases result with
    | error e => refine hset _ _ ?_ ?_ <;> simp only [setDisk] <;> split <;> rfl
    | ok u => refine hset _ _ ?_ ?_ <;> simp only [setDisk] <;> split <;> rfl
  | written r range =>
    rw [stepWrite]
    split <;> exact hset _ _ rfl rfl
  | added bytes =>
    rw [stepWrite]
    split
    · exact ⟨rfl, fun _ _ => rfl⟩
    · split <;> exact hset _ _ rfl rfl

/-- The holder of the lock keeps it or returns. -/
theorem stepCritical_cases (p : CachePool) (faults : Faults) (i : ℕ) (c : Critical) :
    (∃ (q : CachePool) (c' : Critical), q.tasks = p.tasks ∧ p.stepCritical faults i c = q.hold i c') ∨
      (p.stepCritical faults i c).critical = none := by
  cases c with
  | removing torrent removed =>
    refine Or.inr ?_
    cases removed with
    | none => rfl
    | some r =>
      show (p.stepRemove faults i torrent (some r)).critical = none
      rw [stepRemove]
      split <;> rfl
  | opening torrent layout point =>
    show (∃ (q : CachePool) (c' : Critical), q.tasks = p.tasks ∧ p.stepOpen faults i torrent layout point = q.hold i c') ∨
      (p.stepOpen faults i torrent layout point).critical = none
    cases point with
    | entered => exact Or.inl ⟨p, _, rfl, rfl⟩
    | restored found =>
      rw [stepOpen]
      generalize (if found.isNone = true then p.disk.fs.removeDir torrent.toText faults
        else (.ok (), p.disk.fs)) = x
      obtain ⟨result, fs⟩ := x
      cases result with
      | error e => exact Or.inr rfl
      | ok u => exact Or.inl ⟨p.setDisk { p.disk with fs := fs }, _, rfl, rfl⟩
    | cleared found =>
      rw [stepOpen]
      generalize p.disk.fs.createDirAll torrent.toText faults = x
      obtain ⟨result, fs⟩ := x
      cases result with
      | error e => exact Or.inr rfl
      | ok u => exact Or.inl ⟨p.setDisk { p.disk with fs := fs }, _, rfl, rfl⟩
    | created found =>
      rw [stepOpen]
      generalize found.getD (Disk.emptyTorrent torrent.toText layout, 0) = x
      obtain ⟨t, stored⟩ := x
      exact Or.inl ⟨{ p.setDisk (p.disk.register torrent t) with
        written := update p.written torrent fun _ _ => none }, _, rfl, rfl⟩
    | inserted recovered =>
      rw [stepOpen]
      refine Or.inr ?_
      split <;> rfl

theorem Held.run (h : Held p) (faults : Faults) : Held (p.run faults i) := by
  have hcritical : ∀ {task : CacheTask} {c : Critical}, p.tasks[i]? = some task →
      (∀ w point, task ≠ .write w point) → (∀ reply, task ≠ .finished reply) →
      Held (p.stepCritical faults i c) := by
    intro task c hi hwrite hfinished
    rcases stepCritical_cases p faults i c with ⟨q, c', htasks, heq⟩ | hnone
    · rw [heq]
      rintro j c'' ⟨⟩
      exact ⟨task, by rw [← hi, ← htasks]; rfl, hwrite, hfinished⟩
    · intro j c' hc
      exact absurd (hnone.symm.trans hc) nofun
  unfold CachePool.run
  split
  · rename_i w point hi
    obtain ⟨hsame, htasks⟩ := stepWrite_frame p faults i w point
    intro j c hc
    obtain ⟨task, htask, hwrite, hfinished⟩ := h j c (hsame ▸ hc)
    have hji : j ≠ i := by
      rintro rfl
      rw [hi, Option.some.injEq] at htask
      exact hwrite w point htask.symm
    exact ⟨task, (htasks j hji).trans htask, hwrite, hfinished⟩
  · rename_i torrent hi hfree
    unfold beginRemove
    split
    · exact fun j c hc => absurd (hfree.symm.trans hc) nofun
    · split
      · exact fun j c hc => absurd (hfree.symm.trans hc) nofun
      · rintro j c ⟨⟩
        exact ⟨_, hi, nofun, nofun⟩
  · rename_i torrent layout hi hfree
    unfold beginOpen
    split
    · exact fun j c hc => absurd (hfree.symm.trans hc) nofun
    · rintro j c ⟨⟩
      exact ⟨_, hi, nofun, nofun⟩
  · rename_i torrent j c hi hc
    split
    · exact hcritical hi nofun nofun
    · exact h
  · rename_i torrent layout j c hi hc
    split
    · exact hcritical hi nofun nofun
    · exact h
  · exact h

theorem held_of_reachable {allowed : CachePool → CacheEvent → Prop} (h : Reachable allowed p) :
    Held p := by
  induction h with
  | start fs heap inodes nextInode capBytes => exact nofun
  | @step p e _ _ ih =>
    cases e with
    | request call =>
      intro j c hc
      obtain ⟨task, htask, hnot⟩ := ih j c hc
      exact ⟨task, List.getElem?_append_left (List.getElem?_eq_some_iff.mp htask).1 ▸ htask, hnot⟩
    | run i faults => exact ih.run faults

theorem critical_of_finished {allowed : CachePool → CacheEvent → Prop} (h : Reachable allowed p)
    (hfinished : p.Finished) : p.critical = none := by
  cases hc : p.critical with
  | none => rfl
  | some holder =>
    obtain ⟨task, htask, -, hnot⟩ := held_of_reachable h holder.1 holder.2 hc
    obtain ⟨reply, hreply⟩ := hfinished task (List.mem_of_getElem? htask)
    exact absurd hreply (hnot reply)

/-- A torrent that is registered after a removal, while nobody holds the lock. -/
theorem Inv.accounts (h : Inv p) (hfree : p.critical = none) {torrent : InfoHash}
    (hremoved : p.removed torrent = true) {e : Cache.Entry}
    (he : p.cache.torrents.lookup torrent = some e) : p.Accounts torrent e := by
  have hnone := critical_of_free hfree torrent
  have hstored : (p.view torrent).stored = some e.stored := by
    show (p.cache.torrents.lookup torrent).map _ = _
    rw [he]
    rfl
  cases h.sound torrent with
  | absent hc hvacant => exact absurd (hstored.symm.trans hvacant.stored) nofun
  | registered n hc hn hp hl =>
    rw [hstored, Option.some.injEq] at hn
    obtain ⟨r, hr⟩ := Option.isSome_iff_exists.mp hp
    obtain ⟨t, dir, hlive⟩ := hl hremoved
    have hrecord : (p.view torrent).record = some (p.disk.heap r) := by
      show (p.disk.torrents.lookup torrent).map _ = _
      rw [show p.disk.torrents.lookup torrent = some r from hr, Option.map_some]
    have ht : p.disk.heap r = t := Option.some.inj (hrecord.symm.trans hlive.record)
    have hcount := hlive.count
    refine ⟨r, dir, hr, hlive.dir, ?_, ht ▸ hlive.backed⟩
    rw [ht]
    omega
  | removing r hc => exact absurd (hnone.symm.trans hc) nofun
  | opening layout point hc => exact absurd (hnone.symm.trans hc) nofun
  | inserted layout recovered pieces hc => exact absurd (hnone.symm.trans hc) nofun

/-- When no torrent is removed under a write and no removal of a directory fails, a torrent
that is registered again accounts only for what was written since. -/
theorem accounts_of_no_slip (h : Reachable (fun p e => ¬p.Slip e) p) (hfinished : p.Finished)
    {torrent : InfoHash} (hremoved : p.removed torrent = true) {e : Cache.Entry}
    (he : p.cache.torrents.lookup torrent = some e) : p.Accounts torrent e :=
  (inv_of_reachable h).accounts (critical_of_finished h hfinished) hremoved he

/-! ### Two runs -/

/-- The events are allowed one after the other. -/
def Allowed (allowed : CachePool → CacheEvent → Prop) : CachePool → List CacheEvent → Prop
  | _, [] => True
  | p, e :: events => allowed p e ∧ Allowed allowed (p.step e) events

theorem Reachable.run {allowed : CachePool → CacheEvent → Prop} (h : Reachable allowed p)
    {events : List CacheEvent} (hall : Allowed allowed p events) :
    Reachable allowed (events.foldl CachePool.step p) := by
  induction events generalizing p with
  | nil => exact h
  | cons e events ih => exact ih (h.step hall.1) hall.2

theorem allowed_true (p : CachePool) (events : List CacheEvent) :
    Allowed (fun _ _ => True) p events := by
  induction events generalizing p with
  | nil => trivial
  | cons e events ih => exact ⟨trivial, ih _⟩

def reopened : InfoHash := ⟨List.replicate 20 1, InfoHash.length_ones⟩

/-- One file of four bytes. -/
def reopenedLayout : TorrentLayout where
  pieceLength := 4
  fileLengths := [4]
  totalLength := 4
  pieceCount := 1
  pieceLength_ne := Disk.oneFileLayout.pieceLength_ne
  pieceLength_lt := Disk.oneFileLayout.pieceLength_lt
  totalLength_eq := Disk.oneFileLayout.totalLength_eq
  totalLength_lt := Disk.oneFileLayout.totalLength_lt
  pieceCount_eq := Disk.oneFileLayout.pieceCount_eq
  pieceCount_lt := Disk.oneFileLayout.pieceCount_lt

/-- A call that is task `i` and as many of its steps. -/
def called (call : CacheCall) (i steps : ℕ) : List CacheEvent :=
  .request call :: List.replicate steps (.run i .none)

def emptyPool : CachePool :=
  start .empty (fun _ => Disk.emptyTorrent [] reopenedLayout) (fun _ _ => 0) 0 0

/-- A torrent is opened, removed and opened again, and then its four bytes are written. -/
def rewritten : List CacheEvent :=
  called (.openTorrent reopened reopenedLayout) 0 6 ++ called (.remove reopened) 1 2 ++
    called (.openTorrent reopened reopenedLayout) 2 6 ++
    called (.write ⟨reopened, ⟨0⟩, 0, [7, 7, 7, 7]⟩) 3 7

theorem rewritten_reachable :
    Reachable (fun p e => ¬p.Slip e) (rewritten.foldl step emptyPool) := by
  refine Reachable.run (.start _ _ _ _ _) ⟨id, id, id, id, id, id, id, id, ?_, ?_, id, id, id, id,
    id, id, id, id, id, id, id, id, id, id, id, trivial⟩
  · rintro ⟨-, task, hmem, hfl⟩
    have htasks : task ∈ [CacheTask.finished (.ok .opened), .remove reopened] := hmem
    rcases List.mem_cons.mp htasks with rfl | htasks
    · exact hfl
    · rw [List.mem_singleton] at htasks
      subst htasks
      exact hfl
  · exact fun h => h.2 rfl

theorem accounts_of_no_slip_rewritten : ∃ e,
    (rewritten.foldl step emptyPool).cache.torrents.lookup reopened = some e ∧ e.stored = 4 ∧
    (rewritten.foldl step emptyPool).Accounts reopened e := by
  refine ⟨_, rfl, rfl, accounts_of_no_slip rewritten_reachable ?_ rfl rfl⟩
  intro task hmem
  have htasks : task ∈ [CacheTask.finished (.ok .opened), .finished (.ok (.freed 0)),
    .finished (.ok .opened), .finished (.ok .written)] := hmem
  simp only [List.mem_cons, List.not_mem_nil, or_false] at htasks
  rcases htasks with rfl | rfl | rfl | rfl <;> exact ⟨_, rfl⟩

/-- A write that has its answer from the store waits for the lock of the cache's state while
its torrent is removed and opened again. -/
def leaking : List CacheEvent :=
  called (.openTorrent reopened reopenedLayout) 0 6 ++
    called (.write ⟨reopened, ⟨0⟩, 0, [7, 7, 7, 7]⟩) 1 6 ++ called (.remove reopened) 2 2 ++
    called (.openTorrent reopened reopenedLayout) 3 6 ++ [.run 1 .none]

/-- The new entry counts four bytes, the store has none of them. -/
theorem count_leaks_into_reopened : ∃ p, Reachable (fun _ _ => True) p ∧ p.Finished ∧
    p.removed reopened = true ∧ p.written reopened = (fun _ _ => none) ∧
    ∃ e, p.cache.torrents.lookup reopened = some e ∧ e.stored = 4 ∧ ¬p.Accounts reopened e := by
  have hstart : Reachable (fun _ _ => True) emptyPool := .start _ _ _ _ _
  refine ⟨leaking.foldl step emptyPool, hstart.run (allowed_true _ _), ?_, rfl, rfl, _, rfl, rfl, ?_⟩
  · intro task hmem
    have htasks : task ∈ [CacheTask.finished (.ok .opened), .finished (.ok .written),
      .finished (.ok (.freed 0)), .finished (.ok .opened)] := hmem
    simp only [List.mem_cons, List.not_mem_nil, or_false] at htasks
    rcases htasks with rfl | rfl | rfl | rfl <;> exact ⟨_, rfl⟩
  · rintro ⟨r, dir, hr, -, hcount, -⟩
    have hplace : (leaking.foldl step emptyPool).disk.torrents.lookup reopened = some 1 := rfl
    rw [hplace, Option.some.injEq] at hr
    subst hr
    have hnothing : ((leaking.foldl step emptyPool).disk.heap 1).stored = 0 := rfl
    rw [hnothing] at hcount
    exact absurd hcount (by decide)

end CachePool

end Rustorr
