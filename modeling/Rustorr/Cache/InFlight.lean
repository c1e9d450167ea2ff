import Rustorr.Cache.SharedDisk
import Rustorr.Cache.Accounting

/-! Calls of the cache (`cache.rs`) under way at once on the disk store. A call takes
one step for each stretch in which it holds a lock or reaches the file system without one. -/

namespace Rustorr

open Function (update)
open Cache (Error)
open Disk (Torrent)

structure PieceWrite where
  torrent : InfoHash
  file : FileIndex
  offset : U64
  data : List UInt8
  deriving DecidableEq

inductive CacheCall
  | write (w : PieceWrite)
  | remove (torrent : InfoHash)
  | openTorrent (torrent : InfoHash) (layout : TorrentLayout)

/-- Where a `write` stands. From `handled` to `written` it keeps the record it was handed. -/
inductive WritePoint
  | called
  /-- The torrent has an entry. -/
  | checked
  | handled (record : ℕ)
  /-- The range is one of the record's layout. -/
  | ranged (record : ℕ) (range : ByteRange)
  | opened (record : ℕ) (range : ByteRange) (inode : ℕ)
  | written (record : ℕ) (range : ByteRange)
  /-- The store has answered, the entry is still to be told. -/
  | added (bytes : ℕ)

/-- Where an `open` stands that found no entry. -/
inductive OpenPoint
  | entered
  | restored (found : Option (Torrent × ℕ))
  | cleared (found : Option (Torrent × ℕ))
  | created (found : Option (Torrent × ℕ))
  | inserted (recovered : Recovered)

/-- What the holder of the lock of the cache's state is doing. -/
inductive Critical
  | removing (torrent : InfoHash) (removed : Option ℕ)
  | opening (torrent : InfoHash) (layout : TorrentLayout) (point : OpenPoint)

def Critical.torrent : Critical → InfoHash
  | removing torrent _ => torrent
  | opening torrent _ _ => torrent

inductive CacheReply
  | opened
  | written
  | freed (bytes : ℕ)
  deriving DecidableEq

inductive CacheTask
  | write (w : PieceWrite) (point : WritePoint)
  | remove (torrent : InfoHash)
  | openTorrent (torrent : InfoHash) (layout : TorrentLayout)
  | finished (reply : Except Error CacheReply)

def CacheCall.task : CacheCall → CacheTask
  | write w => .write w .called
  | remove torrent => .remove torrent
  | openTorrent torrent layout => .openTorrent torrent layout

/-- `critical` is the task that holds the lock of the cache's state over several steps. Two
fields are history: `removed` tells which torrents a `remove` has dropped, `written` what has
been put on the data files of a torrent since it was last registered. -/
structure CachePool where
  cache : Cache SharedDisk
  critical : Option (ℕ × Critical)
  tasks : List CacheTask
  removed : InfoHash → Bool
  written : InfoHash → ℕ → ℕ → Option UInt8

inductive CacheEvent
  | request (call : CacheCall)
  | run (i : ℕ) (faults : Faults)

namespace CachePool

def start (fs : FileSystem) (heap : ℕ → Torrent) (inodes : List Char → ℕ → ℕ) (nextInode : ℕ)
    (capBytes : ℕ) : CachePool :=
  ⟨.new ⟨∅, heap, 0, fs, inodes, nextInode⟩ capBytes, none, [], fun _ => false, fun _ _ _ => none⟩

variable (faults : Faults) (i : ℕ) (p : CachePool)

def disk : SharedDisk := p.cache.store

def setDisk (d : SharedDisk) : CachePool := { p with cache := { p.cache with store := d } }

def setTask (task : CacheTask) : CachePool := { p with tasks := p.tasks.set i task }

def finish (reply : Except Error CacheReply) : CachePool := p.setTask i (.finished reply)

/-- The task gives the lock back and returns. -/
def release (reply : Except Error CacheReply) : CachePool :=
  { p with critical := none }.finish i reply

def hold (c : Critical) : CachePool := { p with critical := some (i, c) }

/-- What `data` leaves on the files of a torrent. -/
def record (torrent : InfoHash) (file offset : ℕ) (data : List UInt8) : CachePool :=
  { p with written := update p.written torrent (update (p.written torrent) file fun pos =>
      if offset ≤ pos ∧ pos < offset + data.length then data[pos - offset]?
      else p.written torrent file pos) }

/-- The statements of `Cache::write` and of `DiskStore::write` inside it. -/
def stepWrite (w : PieceWrite) : WritePoint → CachePool
  | .called =>
    if p.critical.isSome then p
    else match p.cache.entry w.torrent with
      | .error e => p.finish i (.error e)
      | .ok _ => p.setTask i (.write w .checked)
  | .checked => match p.disk.torrent w.torrent with
    | .error e => p.finish i (.error e)
    | .ok r => p.setTask i (.write w (.handled r))
  | .handled r =>
    match (p.disk.heap r).layout.checkRange w.torrent w.file w.offset w.data.length with
    | .error e => p.finish i (.error e)
    | .ok range =>
      if w.data = [] then p.setTask i (.write w (.added 0))
      else p.setTask i (.write w (.ranged r range))
  | .ranged r range => match p.disk.openFile faults (p.disk.heap r).dir w.file.zeroBased with
    | (.error e, d) => (p.setDisk d).finish i (.error e)
    | (.ok inode, d) => (p.setDisk d).setTask i (.write w (.opened r range inode))
  | .opened r range inode =>
    let name := (p.disk.heap r).dir
    let (result, d) := p.disk.writeAt faults name w.file.zeroBased inode w.offset w.data
    let p := if (p.disk.linked name w.file.zeroBased inode).isSome then
        p.record w.torrent w.file.zeroBased w.offset (faults.reached w.data)
      else p
    match result with
    | .error e => (p.setDisk d).finish i (.error e)
    | .ok () => (p.setDisk d).setTask i (.write w (.written r range))
  | .written r range => match p.disk.account faults r w.file range with
    | (.error e, d) => (p.setDisk d).finish i (.error e)
    | (.ok bytes, d) => (p.setDisk d).setTask i (.write w (.added bytes))
  | .added bytes =>
    if p.critical.isSome then p
    else match p.cache.torrents.lookup w.torrent with
      | none => p.finish i (.ok .written)
      | some e => { p with
          cache := p.cache.setEntry w.torrent { e with stored := e.stored + bytes } }.finish i
            (.ok .written)

/-- `Cache::remove` up to where `DiskStore::remove` has the record. -/
def beginRemove (torrent : InfoHash) : CachePool :=
  match p.cache.entry torrent with
  | .error e => p.finish i (.error e)
  | .ok e =>
    if e.pins > 0 then p.finish i (.error (.pinned torrent))
    else (p.setDisk { p.disk with torrents := p.disk.torrents.erase torrent }).hold i
      (.removing torrent (p.disk.torrents.lookup torrent))

/-- `state.torrents.remove`. -/
def dropEntry (torrent : InfoHash) : CachePool :=
  { p with
    cache := { p.cache with torrents := p.cache.torrents.erase torrent }
    removed := update p.removed torrent true }.release i
      (.ok (.freed (((p.cache.torrents.lookup torrent).map Cache.Entry.stored).getD 0)))

/-- The rest of `Cache::remove`. -/
def stepRemove (torrent : InfoHash) : Option ℕ → CachePool
  | none => p.dropEntry i torrent
  | some r => match p.disk.fs.removeDir (p.disk.heap r).dir faults with
    | (.error e, fs) => (p.setDisk { p.disk with fs := fs }).release i (.error e)
    | (.ok (), fs) => (p.setDisk { p.disk with fs := fs }).dropEntry i torrent

/-- `Cache::open` where the torrent is registered, or else up to `DiskStore::open`. -/
def beginOpen (torrent : InfoHash) (layout : TorrentLayout) : CachePool :=
  match p.cache.torrents.lookup torrent with
  | some e =>
    p.finish i (if e.layout = layout then .ok .opened else .error (.layoutMismatch torrent))
  | none => p.hold i (.opening torrent layout .entered)

/-- The statements of `DiskStore::open` and what `Cache::open` does after it. -/
def stepOpen (torrent : InfoHash) (layout : TorrentLayout) : OpenPoint → CachePool
  | .entered =>
    let found := if torrent ∈ p.disk.torrents then none
      else DiskStore.restoreTorrent p.disk.fs torrent.toText layout faults
    p.hold i (.opening torrent layout (.restored found))
  | .restored found =>
    let (cleared, fs) :=
      if found.isNone then p.disk.fs.removeDir torrent.toText faults else (.ok (), p.disk.fs)
    match cleared with
    | .error e => (p.setDisk { p.disk with fs := fs }).release i (.error e)
    | .ok () => (p.setDisk { p.disk with fs := fs }).hold i (.opening torrent layout (.cleared found))
  | .cleared found => match p.disk.fs.createDirAll torrent.toText faults with
    | (.error e, fs) => (p.setDisk { p.disk with fs := fs }).release i (.error e)
    | (.ok (), fs) =>
      (p.setDisk { p.disk with fs := fs }).hold i (.opening torrent layout (.created found))
  | .created found =>
    let (t, stored) := found.getD (Disk.emptyTorrent torrent.toText layout, 0)
    { p.setDisk (p.disk.register torrent t) with
      written := update p.written torrent fun _ _ => none }.hold i
        (.opening torrent layout (.inserted (DiskStore.recovered t.completed stored)))
  | .inserted recovered =>
    let c := p.cache.nextTick
    match Cache.insertPieces (PieceSet.new layout.pieceCount) recovered.completedPieces with
    | .error e => { p with cache := c }.release i (.error e)
    | .ok pieces =>
      { p with
        cache := c.setEntry torrent
          ⟨layout, pieces, recovered.storedBytes, 0, [], Extents.empty, c.tick⟩ }.release i
            (.ok .opened)

def stepCritical : Critical → CachePool
  | .removing torrent removed => p.stepRemove faults i torrent removed
  | .opening torrent layout point => p.stepOpen faults i torrent layout point

/-- The next step of task `i`, if nothing keeps it waiting. -/
def run : CachePool :=
  match p.tasks[i]?, p.critical with
  | some (.write w point), _ => p.stepWrite faults i w point
  | some (.remove torrent), none => p.beginRemove i torrent
  | some (.openTorrent torrent layout), none => p.beginOpen i torrent layout
  | some (.remove _), some (j, c) => if j = i then p.stepCritical faults i c else p
  | some (.openTorrent _ _), some (j, c) => if j = i then p.stepCritical faults i c else p
  | _, _ => p

def step : CacheEvent → CachePool
  | .request call => { p with tasks := p.tasks ++ [call.task] }
  | .run i faults => p.run faults i

inductive Reachable (allowed : CachePool → CacheEvent → Prop) : CachePool → Prop
  | start (fs : FileSystem) (heap : ℕ → Torrent) (inodes : List Char → ℕ → ℕ) (nextInode : ℕ)
      (capBytes : ℕ) : Reachable allowed (start fs heap inodes nextInode capBytes)
  | step {p e} : Reachable allowed p → allowed p e → Reachable allowed (p.step e)

def Finished : Prop := ∀ task ∈ p.tasks, ∃ reply, task = .finished reply

/-- A write that has the torrent's record, or an answer that the entry still waits for. -/
def InFlight (torrent : InfoHash) : CacheTask → Prop
  | .write _ .called => False
  | .write _ .checked => False
  | .write w _ => w.torrent = torrent
  | _ => False

/-- A `remove` takes a torrent's record while a write of the torrent is under way, or its
removal of the directory fails. -/
def Slip : CacheEvent → Prop
  | .run i faults => match p.tasks[i]?, p.critical with
    | some (.remove torrent), none =>
      p.cache.ensureUnpinned torrent = .ok () ∧ ∃ task ∈ p.tasks, InFlight torrent task
    | _, some (j, .removing _ (some r)) =>
      j = i ∧ (p.disk.fs.removeDir (p.disk.heap r).dir faults).1 ≠ .ok ()
    | _, _ => False
  | _ => False

/-- What a record and a directory account for was written to the files in it. -/
structure Backed (written : ℕ → ℕ → Option UInt8) (t : Torrent) (dir : Dir) : Prop where
  extents : ∀ (k : ℕ) (x : Extents), t.extents[k]? = some x → ∀ pos ∈ x.bytes,
    ∃ b, written k pos = some b ∧ DiskStore.content dir k pos = some b
  manifest : ∀ text, dir.manifest = some text → ∃ earlier : Torrent,
    text = Disk.manifest earlier ∧ earlier.layout = t.layout ∧
    ∀ (k : ℕ) (x y : Extents), earlier.extents[k]? = some x → t.extents[k]? = some y →
      x.bytes ⊆ y.bytes

/-- A registered torrent and all that accounts for its bytes. -/
def Accounts (torrent : InfoHash) (e : Cache.Entry) : Prop :=
  ∃ r dir, p.disk.torrents.lookup torrent = some r ∧
    p.disk.fs.entries torrent.toText = some dir ∧ e.stored ≤ (p.disk.heap r).stored ∧
    Backed (p.written torrent) (p.disk.heap r) dir

/-! ### A write that nothing interrupts -/

section alone

variable {faults i p} {w : PieceWrite}

/-- What a write has come to once the store has answered. -/
def answered (w : PieceWrite) : Except Error ℕ → CacheTask
  | .ok bytes => .write w (.added bytes)
  | .error e => .finished (.error e)

/-- After some steps of task `i` alone the store has given the answer `x.1`. -/
def Answers (faults : Faults) (i : ℕ) (p : CachePool) (w : PieceWrite)
    (x : Except Error ℕ × SharedDisk) : Prop :=
  ∃ k, ((run faults i)^[k] p).disk = x.2 ∧
    ((run faults i)^[k] p).tasks[i]? = some (answered w x.1)

theorem answers_setTask {old : CacheTask} (hi : p.tasks[i]? = some old) (result : Except Error ℕ) :
    Answers faults i (p.setTask i (answered w result)) w (result, p.disk) :=
  ⟨0, rfl, List.getElem?_set_self (List.getElem?_eq_some_iff.mp hi).1⟩

theorem Answers.of_step {point : WritePoint} {x : Except Error ℕ × SharedDisk}
    (hi : p.tasks[i]? = some (CacheTask.write w point))
    (h : Answers faults i (p.stepWrite faults i w point) w x) : Answers faults i p w x := by
  obtain ⟨k, hk⟩ := h
  have hrun : p.run faults i = p.stepWrite faults i w point := by
    unfold run
    rw [hi]
  exact ⟨k + 1, by rw [Function.iterate_succ_apply, hrun]; exact hk⟩

theorem setTask_self {old : CacheTask} (hi : p.tasks[i]? = some old) (task : CacheTask) :
    (p.setTask i task).tasks[i]? = some task :=
  List.getElem?_set_self (List.getElem?_eq_some_iff.mp hi).1

theorem answers_written {r : ℕ} {range : ByteRange}
    (hi : p.tasks[i]? = some (CacheTask.write w (.written r range))) :
    Answers faults i p w (p.disk.account faults r w.file range) := by
  refine .of_step hi ?_
  rw [stepWrite]
  cases p.disk.account faults r w.file range with
  | mk result d =>
    cases result with
    | error e => exact answers_setTask (p := p.setDisk d) hi (.error e)
    | ok bytes => exact answers_setTask (p := p.setDisk d) hi (.ok bytes)

theorem answers_opened {r inode : ℕ} {range : ByteRange}
    (hi : p.tasks[i]? = some (CacheTask.write w (.opened r range inode))) :
    Answers faults i p w
      (match p.disk.writeAt faults (p.disk.heap r).dir w.file.zeroBased inode w.offset w.data with
      | (.error e, d) => (.error e, d)
      | (.ok (), d) => d.account faults r w.file range) := by
  refine .of_step hi ?_
  rw [stepWrite]
  generalize hq : (if (p.disk.linked (p.disk.heap r).dir w.file.zeroBased inode).isSome then
    p.record w.torrent w.file.zeroBased w.offset (faults.reached w.data) else p) = q
  have htasks : q.tasks = p.tasks := by
    rw [← hq]
    split <;> rfl
  have hiq : q.tasks[i]? = some (CacheTask.write w (.opened r range inode)) := htasks ▸ hi
  cases p.disk.writeAt faults (p.disk.heap r).dir w.file.zeroBased inode w.offset w.data with
  | mk result d =>
    cases result with
    | error e =>
      exact answers_setTask (p := q.setDisk d) hiq (.error e)
    | ok u =>
      exact answers_written (p := (q.setDisk d).setTask i (.write w (.written r range)))
        (setTask_self (p := q.setDisk d) hiq _)

theorem answers_ranged {r : ℕ} {range : ByteRange}
    (hi : p.tasks[i]? = some (CacheTask.write w (.ranged r range))) :
    Answers faults i p w
      (match p.disk.openFile faults (p.disk.heap r).dir w.file.zeroBased with
      | (.error e, d) => (.error e, d)
      | (.ok inode, d) =>
        match d.writeAt faults (d.heap r).dir w.file.zeroBased inode w.offset w.data with
        | (.error e, d) => (.error e, d)
        | (.ok (), d) => d.account faults r w.file range) := by
  refine .of_step hi ?_
  rw [stepWrite]
  cases p.disk.openFile faults (p.disk.heap r).dir w.file.zeroBased with
  | mk result d =>
    cases result with
    | error e => exact answers_setTask (p := p.setDisk d) hi (.error e)
    | ok inode =>
      exact answers_opened (p := (p.setDisk d).setTask i (.write w (.opened r range inode)))
        (setTask_self (p := p.setDisk d) hi _)

theorem answers_handled {r : ℕ} (hi : p.tasks[i]? = some (CacheTask.write w (.handled r))) :
    Answers faults i p w
      (match (p.disk.heap r).layout.checkRange w.torrent w.file w.offset w.data.length with
      | .error e => (.error e, p.disk)
      | .ok range =>
        if w.data = [] then (.ok 0, p.disk)
        else match p.disk.openFile faults (p.disk.heap r).dir w.file.zeroBased with
          | (.error e, d) => (.error e, d)
          | (.ok inode, d) =>
            match d.writeAt faults (d.heap r).dir w.file.zeroBased inode w.offset w.data with
            | (.error e, d) => (.error e, d)
            | (.ok (), d) => d.account faults r w.file range) := by
  refine .of_step hi ?_
  rw [stepWrite]
  cases (p.disk.heap r).layout.checkRange w.torrent w.file w.offset w.data.length with
  | error e => exact answers_setTask hi (.error e)
  | ok range =>
    by_cases hnil : w.data = []
    · simp only [if_pos hnil]
      exact answers_setTask hi (.ok 0)
    · simp only [if_neg hnil]
      exact answers_ranged (p := p.setTask i (.write w (.ranged r range))) (setTask_self hi _)

/-- The steps of a write between its two turns at the cache's lock are those of the
store's `write`. -/
theorem answers_checked (hi : p.tasks[i]? = some (CacheTask.write w .checked)) :
    Answers faults i p w (p.disk.write faults w.torrent w.file w.offset w.data) := by
  refine .of_step hi ?_
  rw [stepWrite, SharedDisk.write]
  cases p.disk.torrent w.torrent with
  | error e => exact answers_setTask hi (.error e)
  | ok r =>
    exact answers_handled (p := p.setTask i (.write w (.handled r))) (setTask_self hi _)

end alone

end CachePool

end Rustorr
