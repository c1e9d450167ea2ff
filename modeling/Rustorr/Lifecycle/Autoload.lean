import Rustorr.Lib.OsPath
import Rustorr.Http.ShareRuns

/-! Torrent files that appear in a directory are saved to the catalog, unloaded and deleted
(`autoload.rs`). -/

namespace Rustorr

open Lifecycle (Error)
open Prog (followed_ok followed_error)
open Service (spec act spec_monotone wp_call wp_fields wp_state wp_engine wp_update)

namespace Autoload

/-- What a file looked like at one poll: its length and its time. -/
abbrev Signature : Type := ℕ × Option SystemTime

/-- An entry of the directory, with what `metadata` says of it: whether it is a file, and how it
looks. -/
structure DirEntry where
  path : OsPath
  extension : Option (List UInt8)
  metadata : Option (Bool × Signature)

/-- `eq_ignore_ascii_case("torrent")`. -/
def isTorrent (extension : List UInt8) : Bool :=
  extension.map (fun b => if 0x41 ≤ b ∧ b ≤ 0x5a then b + 0x20 else b) = Utf8.encode "torrent".toList

/-- The torrent files of a directory, none if it cannot be read. -/
def torrentFiles (entries : Option (List (Option DirEntry))) : List (OsPath × Signature) :=
  ((entries.getD []).filterMap id).filterMap fun entry =>
    if entry.extension.any isTorrent then
      match entry.metadata with
      | some (true, signature) => some (entry.path, signature)
      | _ => none
    else none

/-- What the outside does when a file is taken: the bytes that are read, if they can be read, what
the coordinator's calls meet, and the bytes that the file holds when it is removed, if it can be. -/
structure Visit (ε : Type) where
  read : Option (List UInt8)
  answers : Activation → Answers ε
  removed : Option (List UInt8)

/-- A look at the directory. -/
structure Poll (ε : Type) where
  entries : Option (List (Option DirEntry))
  visits : OsPath → Visit ε

abbrev Rows : Type := AList fun _ : InfoHash => CatalogEntry × List UInt8

/-- A torrent file that was deleted: the bytes that were read and those that went, and the catalog
before and at that moment. -/
structure Deletion where
  read : List UInt8
  content : List UInt8
  readOnly : Bool
  before : Rows
  atDeletion : Rows

inductive Outcome
  | kept
  | stuck
  | deleted (deletion : Deletion)

/-- The watching task between two files. It is stuck once a call never returns. -/
structure Watcher (σ : Type) where
  seen : AList fun _ : OsPath => Signature
  pending : AList fun _ : OsPath => Signature
  service : Service σ
  stuck : Bool
  deletions : List Deletion

variable {ε σ : Type} (ops : PieceStore ε σ)

def request : AddTorrent := ⟨"", "", "", "", true⟩

/-- `autoload`. -/
def autoload (v : Visit ε) (s : Service σ) : Outcome × Service σ :=
  match v.read with
  | none => (.kept, s)
  | some bytes =>
    match (Coordinator.addSource request (.torrentBytes bytes)).run (act ops v.answers) s with
    | (none, s) => (.stuck, s)
    | (some (.error _), s) => (.kept, s)
    | (some (.ok live), added) =>
      match (Coordinator.dropLive live.metadata.hash).run (act ops v.answers) added with
      | (none, s) => (.stuck, s)
      | (some _, dropped) => match v.removed with
        | none => (.kept, dropped)
        | some content => (.deleted ⟨bytes, content, s.world.fields.readOnly,
            s.world.state.torrents, dropped.world.state.torrents⟩, dropped)

namespace Watcher

def take (v : Visit ε) (w : Watcher σ) : Watcher σ :=
  match autoload ops v w.service with
  | (.kept, s) => { w with service := s }
  | (.stuck, s) => { w with service := s, stuck := true }
  | (.deleted deletion, s) => { w with service := s, deletions := w.deletions ++ [deletion] }

/-- A file that looks as at the last poll is taken, once. -/
def see (visits : OsPath → Visit ε) (w : Watcher σ) (file : OsPath × Signature) : Watcher σ :=
  if w.stuck then w
  else if w.seen.lookup file.1 = some file.2 then w
  else if w.pending.lookup file.1 = some file.2 then
    take ops (visits file.1)
      { w with pending := w.pending.erase file.1, seen := w.seen.insert file.1 file.2 }
  else { w with pending := w.pending.insert file.1 file.2 }

def poll (w : Watcher σ) (p : Poll ε) : Watcher σ :=
  if w.stuck then w
  else
    let current := torrentFiles p.entries
    let gone := w.pending.keys.filter fun path => current.all fun file => file.1 ≠ path
    current.foldl (see ops p.visits)
      { w with pending := gone.foldl (fun pending path => pending.erase path) w.pending }

/-- The files that are there at the start are left alone until they change. -/
def start (entries : Option (List (Option DirEntry))) (s : Service σ) : Watcher σ :=
  ⟨(torrentFiles entries).foldl (fun seen file => seen.insert file.1 file.2) ∅, ∅, s, false, []⟩

/-- `watch_torrents_dir`. -/
def watch (entries : Option (List (Option DirEntry))) (s : Service σ) (polls : List (Poll ε)) :
    Watcher σ := polls.foldl (poll ops) (start entries s)

end Watcher

/-! ### What is saved -/

variable (infoHash : List UInt8 → Option InfoHash)

/-- The catalog holds a row whose metainfo has the info hash of the bytes. -/
def Saved (rows : Rows) (bytes : List UInt8) : Prop :=
  ∃ key row metainfo hash, rows.lookup key = some (row, metainfo) ∧ infoHash metainfo = some hash ∧
    infoHash bytes = some hash

/-- Every row is under the info hash of its metainfo. -/
def Consistent (rows : Rows) : Prop :=
  ∀ key row metainfo, rows.lookup key = some (row, metainfo) → infoHash metainfo = some key

/-- The engine takes a metainfo for the torrent that its info hash names, and keeps one of it. -/
def Honest (v : Visit ε) : Prop :=
  ∀ bytes, v.read = some bytes → (v.answers .addSource).sourceHash = infoHash bytes ∧
    ∀ metadata id, (v.answers .addSource).add = .ok (metadata, id) →
      infoHash bytes = some metadata.hash ∧ infoHash metadata.metainfo = some metadata.hash

namespace Deletion

def Kept (d : Deletion) : Prop := Saved infoHash d.atDeletion d.content

/-- The catalog is written to and the file is the torrent that was read, or the torrent that the
file is was saved before. -/
def Safe (d : Deletion) : Prop :=
  (d.readOnly = false ∧ infoHash d.content = infoHash d.read) ∨ Saved infoHash d.before d.content

end Deletion

variable {infoHash} {s s' : Service σ} {o : Activation → Answers ε}

/-- The rows are those of before, or there is one more for the bytes. -/
def Added (infoHash : List UInt8 → Option InfoHash) (bytes : List UInt8) (s s' : Service σ) : Prop :=
  ∃ hash, infoHash bytes = some hash ∧
    ((s'.world.state.torrents = s.world.state.torrents ∧
        (s.world.fields.readOnly = true ∨ (s.world.state.torrents.lookup hash).isSome)) ∨
      (s.world.fields.readOnly = false ∧ ∃ row metainfo, infoHash metainfo = some hash ∧
        s'.world.state.torrents = s.world.state.torrents.insert hash (row, metainfo)))

/-- A failing add writes no row, and any other saves the bytes if it may. -/
def AddSpec (infoHash : List UInt8 → Option InfoHash) (bytes : List UInt8) (s : Service σ)
    (r : Except Error LiveTorrent) (s' : Service σ) : Prop :=
  match r with
  | .ok _ => Added infoHash bytes s s'
  | .error _ => s'.world.state.torrents = s.world.state.torrents

theorem wp_addLive_saves {bytes : List UInt8} {hash : InfoHash} {live : LiveTorrent}
    (hhash : infoHash bytes = some hash) :
    Prog.wp (spec ops o fun _ => True) (Coordinator.addLive request hash live) s
      (AddSpec infoHash bytes s) := by
  unfold Coordinator.addLive
  rw [if_pos (show request.saveToDb = true from rfl), Prog.wp_bind, wp_call, followed_ok,
    Prog.wp_bind, wp_state]
  simp only [World.answer, State.torrent]
  cases (o .addSource).fails .torrent with
  | true => exact rfl
  | false =>
    simp only [Bool.false_eq_true, if_false, Except.mapError, followed_ok]
    cases hrow : s.world.state.torrents.lookup hash with
    | some row =>
      have hsome : (s.world.state.torrents.lookup hash).isSome = true := by
        rw [hrow]
        rfl
      exact ⟨hash, hhash, Or.inl ⟨rfl, Or.inr hsome⟩⟩
    | none =>
      show Prog.wp _ (Coordinator.persist .addSource (Coordinator.withDefaultData live) >>= _) s _
      rw [Prog.wp_bind]
      -- nothing is answered after the row is written
      apply Share.wp_persist_iff
      · intro _
        exact trivial
      · intro _ seconds _
        exact trivial
      · intro _ _ e
        exact rfl

/-- A torrent that goes live has its row, if rows are written. -/
theorem wp_stored_saves {bytes : List UInt8} {live : LiveTorrent}
    (hhash : infoHash bytes = some live.metadata.hash)
    (hmetainfo : infoHash live.metadata.metainfo = some live.metadata.hash) :
    Prog.wp (spec ops o fun _ => True) (do
      let stored ← Coordinator.storedOf request live
      Coordinator.insertLive live.metadata.hash stored
      pure live) s (AddSpec infoHash bytes s) := by
  rw [Prog.wp_bind]
  unfold Coordinator.storedOf
  rw [if_pos (show request.saveToDb = true from rfl), Prog.wp_bind]
  apply Share.wp_persist_iff
  · intro hro
    exact ⟨_, hhash, Or.inl ⟨rfl, Or.inl hro⟩⟩
  · intro hro seconds _
    refine ⟨_, hhash, Or.inr ⟨hro, (Share.rowOf (Coordinator.withDefaultData live) seconds).1,
      live.metadata.metainfo, hmetainfo, ?_⟩⟩
    show (Share.saved (Coordinator.withDefaultData live) seconds s).world.state.torrents = _
    unfold Share.saved Share.rowOf
    rw [Coordinator.withDefaultData_metadata]
    rfl
  · intro _ _ e
    exact rfl

theorem wp_addNew_saves {bytes : List UInt8} {sourceHash : Option InfoHash}
    (hhonest : ∀ metadata id, (o .addSource).add = .ok (metadata, id) →
      infoHash bytes = some metadata.hash ∧ infoHash metadata.metainfo = some metadata.hash) :
    Prog.wp (spec ops o fun _ => True)
      (Coordinator.addNew request (.torrentBytes bytes) sourceHash) s (AddSpec infoHash bytes s) := by
  have hsource : Coordinator.savedSource (.torrentBytes bytes) sourceHash =
      pure (.torrentBytes bytes) := by
    cases sourceHash <;> rfl
  unfold Coordinator.addNew
  rw [hsource, Prog.wp_bind, Prog.wp_pure, followed_ok, Prog.wp_bind, wp_fields, followed_ok,
    Prog.wp_bind, wp_call, followed_ok]
  show Prog.wp _ _ s _
  rw [Prog.wp_bind, wp_call, followed_ok, Prog.wp_bind, wp_engine]
  simp only [World.answer, World.add]
  cases ha : (o .addSource).add with
  | error e => exact rfl
  | ok added =>
    obtain ⟨metadata, id⟩ := added
    have hfacts := hhonest metadata id ha
    simp only [Except.mapError, followed_ok]
    unfold Coordinator.forgetPeers
    rw [Prog.wp_bind, wp_update, followed_ok, Prog.wp_bind, wp_call, followed_ok, Prog.wp_bind,
      wp_state]
    simp only [World.answer, State.torrent]
    cases (o .addSource).fails .torrent with
    | true => exact rfl
    | false =>
      simp only [Bool.false_eq_true, if_false, Except.mapError, followed_ok]
      rw [Prog.wp_bind, wp_call, followed_ok]
      apply wp_stored_saves ops
      · exact hfacts.1
      · exact hfacts.2

theorem wp_addSource_saves {bytes : List UInt8}
    (hsource : (o .addSource).sourceHash = infoHash bytes)
    (hhonest : ∀ metadata id, (o .addSource).add = .ok (metadata, id) →
      infoHash bytes = some metadata.hash ∧ infoHash metadata.metainfo = some metadata.hash) :
    Prog.wp (spec ops o fun _ => True) (Coordinator.addSource request (.torrentBytes bytes)) s
      (AddSpec infoHash bytes s) := by
  apply Service.wp_withGate
  · intro _
    exact trivial
  · intro _
    rw [Prog.wp_bind, wp_call, followed_ok, Prog.wp_bind, wp_fields, followed_ok]
    split
    · next hash live hfound =>
      have hlive : (infoHash bytes).bind (fun hash =>
          (s.world.fields.live.lookup hash).map (Prod.mk hash)) = some (hash, live) := by
        rw [← hsource]
        exact hfound
      obtain ⟨hash', hhash, hlive⟩ := Option.bind_eq_some_iff.mp hlive
      obtain ⟨live', -, heq⟩ := Option.map_eq_some_iff.mp hlive
      cases heq
      exact wp_addLive_saves ops hhash
    · exact wp_addNew_saves ops hhonest

/-! ### What the unloading leaves -/

/-- The act writes no row. -/
def Quiet : Act → Prop
  | .call _ c => Share.writesKept c = false
  | _ => True

theorem quiet_of_tame {a : Act} (ha : a.Tame) : Quiet a := by
  cases a with
  | call caller c => cases c <;> first | exact ha.elim | rfl
  | _ => trivial

theorem quiet_tame {α : Type} {p : Coordinator.M α} (hp : Coordinator.Tame p) :
    Prog.Every Quiet p := Prog.every_mono (fun _ => quiet_of_tame) hp

theorem torrents_act {a : Act} (ha : Quiet a) (s : Service σ) :
    (act ops o a s).2.world.state.torrents = s.world.state.torrents := by
  cases a with
  | lock =>
    rw [Service.act_lock]
    split <;> rfl
  | call caller c =>
    obtain ⟨viewed, hstate⟩ : ∃ viewed, (s.world.answer ops (o caller) c).2.state =
      { s.world.state with viewed := viewed } := Share.answer_state ha s.world
    show (s.world.answer ops (o caller) c).2.state.torrents = _
    rw [hstate]
  | _ => rfl

theorem quiet_engineDelete (caller : Activation) (hash : InfoHash) :
    Prog.Every Quiet (Coordinator.engineDelete caller hash) := by
  refine ⟨rfl, fun r => ?_⟩
  cases r with
  | error e => trivial
  | ok found => exact ⟨rfl, fun _ => trivial⟩

theorem quiet_detach (hash : InfoHash) : Prog.Every Quiet (Coordinator.detach hash) := by
  refine ⟨rfl, fun loaded => ?_⟩
  cases loaded with
  | false => trivial
  | true =>
    apply Prog.every_bind (quiet_engineDelete (.dropLive hash) hash)
    intro r
    apply Prog.every_bind (Prog.every_ofExcept _)
    intro livePeers
    exact ⟨trivial, fun _ => trivial⟩

theorem quiet_dropCache (hash : InfoHash) (saved : Bool) :
    Prog.Every Quiet (Coordinator.dropCache hash saved) := by
  apply Prog.every_bind (quiet_tame (Coordinator.tame_fields _))
  intro remove
  split
  · unfold Coordinator.removeCache
    have hcall : Prog.Every Quiet (Coordinator.call (.dropLive hash) (.removeCache hash)) :=
      ⟨rfl, fun _ => trivial⟩
    apply Prog.every_bind hcall
    intro r
    split <;> trivial
  · trivial

theorem quiet_dropLive (hash : InfoHash) : Prog.Every Quiet (Coordinator.dropLive hash) := by
  have hlocked : Prog.Every Quiet (Coordinator.dropLocked hash) := by
    apply Prog.every_bind (quiet_tame (Coordinator.tame_stopIdleDetachLocked hash))
    intro _
    refine ⟨rfl, fun row => ?_⟩
    apply Prog.every_bind (Prog.every_ofExcept _)
    intro saved
    apply Prog.every_bind (quiet_tame (Coordinator.tame_stopPrefetchLocked hash))
    intro _
    apply Prog.every_bind (quiet_tame (Coordinator.tame_ensureUnpinned _ hash))
    intro _
    apply Prog.every_bind (quiet_detach hash)
    intro _
    apply Prog.every_bind (quiet_dropCache hash _)
    intro _
    exact ⟨trivial, fun _ => trivial⟩
  apply Prog.every_bind (p := Coordinator.act .lock) ⟨trivial, fun _ => trivial⟩
  intro _
  apply Prog.every_bind ((Prog.every_attempt _).mpr hlocked)
  intro r
  apply Prog.every_bind (p := Coordinator.act .unlock) ⟨trivial, fun _ => trivial⟩
  intro _
  exact Prog.every_ofExcept r

/-- A torrent is unloaded, or not, with its row. -/
theorem torrents_dropLive (hash : InfoHash) (s : Service σ) :
    ((Coordinator.dropLive hash).run (act ops o) s).2.world.state.torrents =
      s.world.state.torrents :=
  Prog.run_invariant (act ops o) (I := fun s' => s'.world.state.torrents = s.world.state.torrents)
    (fun _ s' ha h => (torrents_act ops ha s').trans h) (quiet_dropLive hash) rfl

/-! ### A file is taken -/

theorem Added.kept_iff {bytes content : List UInt8} (h : Added infoHash bytes s s')
    (hconsistent : Consistent infoHash s.world.state.torrents) :
    Saved infoHash s'.world.state.torrents content ↔
      (s.world.fields.readOnly = false ∧ infoHash content = infoHash bytes) ∨
        Saved infoHash s.world.state.torrents content := by
  obtain ⟨hash, hhash, ⟨hrows, hwhy⟩ | ⟨hro, row, metainfo, hmetainfo, hrows⟩⟩ := h
  · rw [hrows]
    refine ⟨Or.inr, fun h => h.elim (fun hsame => ?_) id⟩
    obtain hro | hsome := hwhy
    · rw [hro] at hsame
      cases hsame.1
    · obtain ⟨⟨row, metainfo⟩, hrow⟩ := Option.isSome_iff_exists.mp hsome
      exact ⟨hash, row, metainfo, hash, hrow, hconsistent hash row metainfo hrow,
        hsame.2.trans hhash⟩
  · unfold Saved
    rw [hrows]
    constructor
    · rintro ⟨key, row', metainfo', hash', hrow, hmetainfo', hcontent⟩
      by_cases hkey : key = hash
      · rw [hkey, AList.lookup_insert] at hrow
        cases hrow
        rw [hmetainfo] at hmetainfo'
        exact Or.inl ⟨hro, hcontent.trans (hmetainfo'.symm.trans hhash.symm)⟩
      · rw [AList.lookup_insert_ne hkey] at hrow
        exact Or.inr ⟨key, row', metainfo', hash', hrow, hmetainfo', hcontent⟩
    · rintro (⟨-, hcontent⟩ | ⟨key, row', metainfo', hash', hrow, hmetainfo', hcontent⟩)
      · exact ⟨hash, row, metainfo, hash, AList.lookup_insert _, hmetainfo, hcontent.trans hhash⟩
      · by_cases hkey : key = hash
        · -- the row that is replaced was of the same torrent
          have hold : infoHash metainfo' = some key := hconsistent key row' metainfo' hrow
          rw [hold] at hmetainfo'
          cases hmetainfo'
          rw [hkey] at hcontent
          exact ⟨hash, row, metainfo, hash, AList.lookup_insert _, hmetainfo, hcontent⟩
        · exact ⟨key, row', metainfo', hash', by rw [AList.lookup_insert_ne hkey]; exact hrow,
            hmetainfo', hcontent⟩

theorem Added.consistent {bytes : List UInt8} (h : Added infoHash bytes s s')
    (hconsistent : Consistent infoHash s.world.state.torrents) :
    Consistent infoHash s'.world.state.torrents := by
  obtain ⟨hash, hhash, ⟨hrows, -⟩ | ⟨-, row, metainfo, hmetainfo, hrows⟩⟩ := h
  · rw [hrows]
    exact hconsistent
  · intro key row' metainfo' hrow
    rw [hrows] at hrow
    by_cases hkey : key = hash
    · rw [hkey, AList.lookup_insert] at hrow
      cases hrow
      rw [hkey]
      exact hmetainfo
    · rw [AList.lookup_insert_ne hkey] at hrow
      exact hconsistent key row' metainfo' hrow

theorem Consistent.congr {rows rows' : Rows} (h : Consistent infoHash rows) (hrows : rows' = rows) :
    Consistent infoHash rows' := by
  rw [hrows]
  exact h

/-- What taking a file leaves: a consistent catalog, and a deletion that keeps the torrent exactly
if it is safe. -/
def TakeSpec (infoHash : List UInt8 → Option InfoHash) : Outcome × Service σ → Prop
  | (.kept, s) => Consistent infoHash s.world.state.torrents
  | (.stuck, _) => True
  | (.deleted d, s) =>
    Consistent infoHash s.world.state.torrents ∧ (d.Kept infoHash ↔ d.Safe infoHash)

theorem autoload_spec {v : Visit ε} (hhonest : Honest infoHash v)
    (hconsistent : Consistent infoHash s.world.state.torrents) :
    TakeSpec infoHash (autoload ops v s) := by
  unfold autoload
  cases hread : v.read with
  | none => exact hconsistent
  | some bytes =>
    obtain ⟨hsource, hmetadata⟩ := hhonest bytes hread
    have hadd := (Prog.wp_iff_run (act ops v.answers)).mp
      (wp_addSource_saves ops (s := s) hsource hmetadata)
    dsimp only
    split at hadd
    · next r added hrun =>
      rw [hrun]
      cases r with
      | error e => exact hconsistent.congr hadd
      | ok live =>
        have hadded : Added infoHash bytes s added := hadd
        have hdropped := torrents_dropLive ops (o := v.answers) live.metadata.hash added
        dsimp only
        split
        · exact trivial
        · next r' dropped hdrop =>
          rw [hdrop] at hdropped
          have hnext := (hadded.consistent hconsistent).congr hdropped
          cases v.removed with
          | none => exact hnext
          | some content =>
            refine ⟨hnext, ?_⟩
            unfold Deletion.Kept Deletion.Safe
            dsimp only at hdropped ⊢
            rw [hdropped]
            exact hadded.kept_iff hconsistent
    · next s' hrun =>
      rw [hrun]
      trivial

/-! ### Runs of the watching task -/

namespace Watcher

/-- The catalog is consistent as long as the task goes on, and every deletion was so far kept
exactly if it was safe. -/
structure Good (infoHash : List UInt8 → Option InfoHash) (w : Watcher σ) : Prop where
  consistent : w.stuck = false → Consistent infoHash w.service.world.state.torrents
  deletions : ∀ d ∈ w.deletions, (d.Kept infoHash ↔ d.Safe infoHash)

variable {w : Watcher σ}

theorem good_take {v : Visit ε} (hhonest : Honest infoHash v) (h : w.Good infoHash)
    (hgoes : w.stuck = false) : (take ops v w).Good infoHash := by
  have hspec := autoload_spec ops hhonest (h.consistent hgoes)
  unfold take
  match hload : autoload ops v w.service with
  | (.kept, s) =>
    rw [hload] at hspec
    exact ⟨fun _ => hspec, h.deletions⟩
  | (.stuck, s) => exact ⟨fun hstuck => (nomatch hstuck), h.deletions⟩
  | (.deleted deletion, s) =>
    rw [hload] at hspec
    refine ⟨fun _ => hspec.1, fun d hd => ?_⟩
    obtain hd | hd := List.mem_append.mp hd
    · exact h.deletions d hd
    · cases List.mem_singleton.mp hd
      exact hspec.2

theorem good_see {visits : OsPath → Visit ε} (hhonest : ∀ path, Honest infoHash (visits path))
    (file : OsPath × Signature) (h : w.Good infoHash) : (see ops visits w file).Good infoHash := by
  unfold see
  split
  · exact h
  · next hgoes =>
    split
    · exact h
    · split
      · exact good_take ops (hhonest file.1) ⟨h.consistent, h.deletions⟩ (Bool.eq_false_iff.mpr hgoes)
      · exact ⟨h.consistent, h.deletions⟩

theorem good_poll {p : Poll ε} (hhonest : ∀ path, Honest infoHash (p.visits path))
    (h : w.Good infoHash) : (poll ops w p).Good infoHash := by
  unfold poll
  split
  · exact h
  · exact List.foldlRecOn _ _ ⟨h.consistent, h.deletions⟩ fun w h file _ =>
      good_see ops hhonest file h

end Watcher

/-- Every file that the watching task deletes is in the catalog exactly if the catalog is written
to and the file is the torrent that was read, or the torrent was saved before. -/
theorem autoload_keeps_iff (entries : Option (List (Option DirEntry))) (polls : List (Poll ε))
    (hconsistent : Consistent infoHash s.world.state.torrents)
    (hhonest : ∀ p ∈ polls, ∀ path, Honest infoHash (p.visits path)) :
    ∀ d ∈ (Watcher.watch ops entries s polls).deletions,
      (d.Kept infoHash ↔ d.Safe infoHash) := by
  have hstart : (Watcher.start entries s).Good infoHash :=
    ⟨fun _ => hconsistent, fun d hd => nomatch hd⟩
  have hrun : (Watcher.watch ops entries s polls).Good infoHash :=
    List.foldlRecOn _ _ hstart fun w h p hp => Watcher.good_poll ops (hhonest p hp) h
  exact hrun.deletions

/-! ### Deletions -/

/-- The file `a.torrent`: one file of two bytes, in one piece. -/
def torrentA : List UInt8 := Utf8.encode
  "d4:infod6:lengthi2e4:name1:a12:piece lengthi16384e6:pieces20:aaaaaaaaaaaaaaaaaaaaee".toList

def torrentB : List UInt8 := Utf8.encode
  "d4:infod6:lengthi2e4:name1:a12:piece lengthi16384e6:pieces20:bbbbbbbbbbbbbbbbbbbbee".toList

def hashA : InfoHash :=
  ⟨[62, 97, 177, 195, 92, 101, 157, 51, 163, 208, 200, 82, 235, 242, 212, 216, 30, 59, 2, 43], rfl⟩

def hashB : InfoHash :=
  ⟨[148, 144, 146, 135, 71, 168, 169, 146, 91, 224, 205, 6, 189, 122, 235, 73, 17, 20, 187, 215],
    rfl⟩

/-- The info hashes of the two. -/
def twoHashes (bytes : List UInt8) : Option InfoHash :=
  if bytes = torrentA then some hashA else if bytes = torrentB then some hashB else none

def metadataA : TorrentMetadata := ⟨hashA, torrentA, "a", [⟨0, "a", 2⟩], []⟩

/-- Nothing fails, and the file holds `removed` in the end. -/
def visitA (removed : List UInt8) : Visit Unit :=
  ⟨some torrentA, fun _ => ⟨some hashA, [], 0, .ok (metadataA, 0), .ok metadataA, .ok 2, .ok [],
    fun _ => false, ()⟩, some removed⟩

/-- The file looks the same at two polls. -/
def pollsA (removed : List UInt8) : List (Poll Unit) :=
  let entry : DirEntry := ⟨Utf8.encode "a.torrent".toList, some (Utf8.encode "torrent".toList),
    some (true, 83, some 1)⟩
  List.replicate 2 ⟨some [some entry], fun _ => visitA removed⟩

def watchA (readOnly : Bool) (removed : List UInt8) : Watcher MemoryStore :=
  Watcher.watch MemoryStore.pieceStore (some [])
    (Service.new (TorrentCoordinator.new (false, false) MemoryStore.new 1 State.empty readOnly))
    (pollsA removed)

/-- A file that is left as it was read is deleted once its torrent is in the catalog. -/
theorem autoload_keeps_unchanged :
    (watchA false torrentA).deletions.length = 1 ∧
      ∀ d ∈ (watchA false torrentA).deletions, (d.Kept twoHashes ↔ d.Safe twoHashes) := by
  refine ⟨by decide +kernel, autoload_keeps_iff MemoryStore.pieceStore (some []) (pollsA torrentA)
    (fun key row metainfo hrow => (nomatch hrow)) fun p hp path => ?_⟩
  cases List.eq_of_mem_replicate hp
  intro bytes hbytes
  cases hbytes
  refine ⟨(if_pos rfl).symm, fun metadata id hadd => ?_⟩
  cases hadd
  exact ⟨if_pos rfl, if_pos rfl⟩

/-- No row of the catalog is of the torrent that goes. -/
def Deletion.loses (infoHash : List UInt8 → Option InfoHash) (d : Deletion) : Bool :=
  d.atDeletion.entries.all fun row => infoHash row.2.2 ≠ infoHash d.content

theorem Deletion.not_kept_of_loses {d : Deletion} (h : d.loses infoHash = true) :
    ¬d.Kept infoHash := by
  rintro ⟨key, row, metainfo, hash, hrow, hmetainfo, hcontent⟩
  have hne := List.all_eq_true.mp h _ (AList.mem_lookup_iff.mp hrow)
  exact of_decide_eq_true hne (hmetainfo.trans hcontent.symm)

theorem exists_not_kept {w : Watcher σ} (h : w.deletions.any (Deletion.loses infoHash) = true) :
    ∃ d ∈ w.deletions, ¬d.Kept infoHash := by
  obtain ⟨d, hd, hloses⟩ := List.any_eq_true.mp h
  exact ⟨d, hd, Deletion.not_kept_of_loses hloses⟩

/-- A read-only service deletes a file of which it saves nothing, and any other deletes what was
written to the file after it was read. -/
theorem autoload_loses_torrents :
    (∃ d ∈ (watchA true torrentA).deletions, ¬d.Kept twoHashes) ∧
      ∃ d ∈ (watchA false torrentB).deletions, ¬d.Kept twoHashes :=
  ⟨exists_not_kept (by decide +kernel), exists_not_kept (by decide +kernel)⟩

end Autoload

end Rustorr
