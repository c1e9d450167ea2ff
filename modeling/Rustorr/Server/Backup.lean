import Rustorr.Server.Restore

/-! Backup of the data directory (`maintenance.rs`), and what a restore of it gives back. The file
system is as the backup finds it from its beginning to its end. -/

namespace Rustorr.Maintenance

open Except (failIf okOr)

/-- What `backup` writes as `backup.json`. -/
structure BackupManifest where
  format : ℕ
  rustorr : String
  schema : ℕ
  created : ℕ
  files : List String
  deriving DecidableEq

/-- The steps of a backup that fail. A name that cannot be looked at seems to be no file. -/
structure BackupFaults where
  looks : String → Bool
  setUp : Bool
  copy : String → Bool
  write : Bool

inductive BackupError where
  | noDatabase
  | setUp
  | copy (name : String)
  | write
  deriving DecidableEq

section backup

-- the copy that the database makes of itself and of its journal, with its schema's version, how a
-- manifest is written, and the build's version and the clock
variable (snapshot : List UInt8 → Option (List UInt8) → Option (ℕ × List UInt8))
variable (printManifest : BackupManifest → List UInt8) (version : String) (created : ℕ)
variable (faults : BackupFaults) (data : Files)

def isFile (name : String) : Option (List UInt8) :=
  if faults.looks name then none else data.content name

def copyAll : List String → Except BackupError (List (String × List UInt8))
  | [] => .ok []
  | name :: names =>
    match isFile faults data name with
    | none => copyAll names
    | some bytes => do
      failIf (faults.copy name = true) (.copy name)
      let copies ← copyAll names
      .ok ((name, bytes) :: copies)

def tarEntry (file : String × List UInt8) : Option TarEntry := some ⟨some file.1, true, file.2⟩

/-- The names of the files, and the archive. -/
def backup : Except BackupError (List String × Archive) := do
  let db ← okOr (isFile faults data database) .noDatabase
  failIf (faults.setUp = true) .setUp
  let (schema, copy) ← okOr (snapshot db (data.content "rustorr.db-wal")) (.copy database)
  let copies ← copyAll faults data stateFiles
  let staged := (database, copy) :: copies
  let files := staged.map Prod.fst
  failIf (faults.write = true) .write
  let manifest := printManifest ⟨1, version, schema, created, files⟩
  .ok (files, some ((staged ++ [(manifestName, manifest)]).map tarEntry))

/-! What an archive of a backup holds. -/

/-- The names a backup copies, the database aside. -/
def copied : List String := stateFiles.filter fun name => (isFile faults data name).isSome

theorem copyAll_ok : ∀ {names : List String} {copies : List (String × List UInt8)},
    copyAll faults data names = .ok copies →
    copies.map Prod.fst = names.filter (fun name => (isFile faults data name).isSome) ∧
      ∀ name bytes, (name, bytes) ∈ copies ↔ name ∈ names ∧ isFile faults data name = some bytes
  | [], copies, h => by
    obtain rfl := Except.ok.inj h
    exact ⟨rfl, fun name bytes => by simp⟩
  | name :: names, copies, h => by
    unfold copyAll at h
    cases hfile : isFile faults data name with
    | none =>
      rw [hfile] at h
      obtain ⟨hnames, hmem⟩ := copyAll_ok h
      constructor
      · rw [hnames, List.filter_cons_of_neg (by simp [hfile])]
      · intro n bytes
        rw [hmem, List.mem_cons, or_and_right]
        refine (or_iff_right fun hn => ?_).symm
        rw [hn.1, hfile] at hn
        exact nomatch hn.2
    | some content =>
      rw [hfile] at h
      obtain ⟨_, -, h⟩ := Except.bind_eq_ok.mp h
      obtain ⟨rest, hrest, h⟩ := Except.bind_eq_ok.mp h
      obtain rfl := Except.ok.inj h
      obtain ⟨hnames, hmem⟩ := copyAll_ok hrest
      constructor
      · rw [List.filter_cons_of_pos (by simp [hfile]), List.map_cons, hnames]
      · intro n bytes
        rw [List.mem_cons, hmem, List.mem_cons, or_and_right, Prod.mk.injEq]
        refine or_congr_left (and_congr_right fun hn => ?_)
        rw [hn, hfile, Option.some_inj, eq_comm]

theorem archived_tarEntry_cons (file : String × List UInt8) (entries : List (Option TarEntry))
    (name : String) : archived (tarEntry file :: entries) name =
      (archived entries name).or (if file.1 = name then some file.2 else none) := by
  unfold tarEntry
  rw [archived]
  simp only [Option.some_inj]

/-- The archive of files of different names holds each of them. -/
theorem archived_map_tarEntry : ∀ {files : List (String × List UInt8)},
    (∀ name a b, (name, a) ∈ files → (name, b) ∈ files → a = b) →
    ∀ {name : String} {bytes : List UInt8},
    archived (files.map tarEntry) name = some bytes ↔ (name, bytes) ∈ files
  | [], _, name, bytes => iff_of_false (fun h => nomatch h) List.not_mem_nil
  | file :: files, hsame, name, bytes => by
    have hrest := @archived_map_tarEntry files (fun n a b ha hb =>
      hsame n a b (List.mem_cons_of_mem _ ha) (List.mem_cons_of_mem _ hb)) name
    rw [List.map_cons, List.mem_cons, archived_tarEntry_cons]
    cases hlater : archived (files.map tarEntry) name with
    | some later =>
      have hin := hrest.mp hlater
      rw [Option.some_or, Option.some_inj]
      constructor
      · rintro rfl
        exact Or.inr hin
      · rintro (hfile | hmem)
        · exact hsame name later bytes (List.mem_cons_of_mem _ hin)
            (List.mem_cons.mpr (Or.inl hfile))
        · exact hsame name later bytes (List.mem_cons_of_mem _ hin) (List.mem_cons_of_mem _ hmem)
    | none =>
      have hout : (name, bytes) ∉ files := by
        intro hmem
        rw [hrest.mpr hmem] at hlater
        exact nomatch hlater
      rw [Option.none_or, or_iff_left hout]
      split
      · rename_i hname
        rw [← hname, Option.some_inj, Prod.mk.injEq, eq_comm (a := bytes)]
        exact (and_iff_right rfl).symm
      · rename_i hname
        exact iff_of_false (fun h => nomatch h) fun h => hname (congrArg Prod.fst h).symm

/-- What the backup finds and what its archive then holds. -/
structure Saved (files : List String) (archive : Archive) where
  db : List UInt8
  schema : ℕ
  copy : List UInt8
  contents : List (String × List UInt8)
  found : isFile faults data database = some db
  copies : snapshot db (data.content "rustorr.db-wal") = some (schema, copy)
  files_eq : files = database :: copied faults data
  archive_eq : archive = some (contents.map tarEntry)
  mem_contents : ∀ name bytes, (name, bytes) ∈ contents ↔
    (name = database ∧ bytes = copy) ∨
    (name ∈ stateFiles ∧ isFile faults data name = some bytes) ∨
    (name = manifestName ∧
      bytes = printManifest ⟨1, version, schema, created, database :: copied faults data⟩)

theorem backup_ok {files : List String} {archive : Archive}
    (h : backup snapshot printManifest version created faults data = .ok (files, archive)) :
    Nonempty (Saved snapshot printManifest version created faults data files archive) := by
  unfold backup at h
  obtain ⟨db, hdb, h⟩ := Except.bind_eq_ok.mp h
  obtain ⟨_, -, h⟩ := Except.bind_eq_ok.mp h
  obtain ⟨⟨schema, copy⟩, hcopy, h⟩ := Except.bind_eq_ok.mp h
  obtain ⟨copies, hcopies, h⟩ := Except.bind_eq_ok.mp h
  obtain ⟨_, -, h⟩ := Except.bind_eq_ok.mp h
  obtain ⟨hfiles, harchive⟩ := Prod.mk.inj (Except.ok.inj h)
  obtain ⟨hnames, hmem⟩ := copyAll_ok faults data hcopies
  have hlisted : List.map Prod.fst ((database, copy) :: copies) =
      database :: copied faults data := by
    rw [List.map_cons, hnames]
    rfl
  rw [hlisted] at hfiles harchive
  refine ⟨⟨db, schema, copy, _, Except.okOr_eq_ok.mp hdb, Except.okOr_eq_ok.mp hcopy, hfiles.symm,
    harchive.symm, fun name bytes => ?_⟩⟩
  rw [List.mem_append, List.mem_cons, List.mem_singleton, hmem, or_assoc, Prod.mk.injEq,
    Prod.mk.injEq]

section saved

variable {snapshot printManifest version created faults data} {files : List String}
variable {archive : Archive}

namespace Saved

theorem archived_iff (saved : Saved snapshot printManifest version created faults data files archive)
    {name : String} {bytes : List UInt8} :
    archived (saved.contents.map tarEntry) name = some bytes ↔
    (name = database ∧ bytes = saved.copy) ∨
    (name ∈ stateFiles ∧ isFile faults data name = some bytes) ∨
    (name = manifestName ∧ bytes =
      printManifest ⟨1, version, saved.schema, created, database :: copied faults data⟩) := by
  have hdatabase : database ∉ stateFiles := by decide
  have hmanifest : manifestName ∉ stateFiles := by decide
  have hne : database ≠ manifestName := by decide
  rw [archived_map_tarEntry, saved.mem_contents]
  intro name a b ha hb
  rw [saved.mem_contents] at ha hb
  rcases ha with ⟨rfl, rfl⟩ | ⟨hin, ha⟩ | ⟨rfl, rfl⟩
  · rcases hb with ⟨-, rfl⟩ | ⟨hin, -⟩ | ⟨h, -⟩
    · rfl
    · exact absurd hin hdatabase
    · exact absurd h hne
  · rcases hb with ⟨rfl, -⟩ | ⟨-, hb⟩ | ⟨rfl, -⟩
    · exact absurd hin hdatabase
    · exact Option.some.inj (ha.symm.trans hb)
    · exact absurd hin hmanifest
  · rcases hb with ⟨h, -⟩ | ⟨hin, -⟩ | ⟨-, rfl⟩
    · exact absurd h.symm hne
    · exact absurd hin hmanifest
    · rfl

variable (saved : Saved snapshot printManifest version created faults data files archive)

theorem content_database : data.content database = some saved.db := by
  have hfound := saved.found
  unfold isFile at hfound
  split at hfound
  · exact nomatch hfound
  · exact hfound

theorem archived_database : archived (saved.contents.map tarEntry) database = some saved.copy :=
  saved.archived_iff.mpr (Or.inl ⟨rfl, rfl⟩)

theorem archived_stateFile {name : String} (h : name ∈ stateFiles) :
    archived (saved.contents.map tarEntry) name = isFile faults data name := by
  have hdatabase : name ≠ database := ne_of_mem_of_not_mem h (by decide)
  have hmanifest : name ≠ manifestName := ne_of_mem_of_not_mem h (by decide)
  apply Option.ext
  intro bytes
  rw [saved.archived_iff]
  simp [hdatabase, hmanifest, h]

theorem archived_wal : archived (saved.contents.map tarEntry) "rustorr.db-wal" = none := by
  apply Option.eq_none_iff_forall_ne_some.mpr
  intro bytes hbytes
  rcases saved.archived_iff.mp hbytes with ⟨h, -⟩ | ⟨h, -⟩ | ⟨h, -⟩
  · exact absurd h (by decide)
  · exact absurd h (by decide)
  · exact absurd h (by decide)

theorem archived_manifest : archived (saved.contents.map tarEntry) manifestName =
    some (printManifest ⟨1, version, saved.schema, created, database :: copied faults data⟩) :=
  saved.archived_iff.mpr (Or.inr (Or.inr ⟨rfl, rfl⟩))

end Saved

end saved

end backup

/-! A restore of what was saved. -/

/-- No step fails. -/
def Faults.none : Faults :=
  ⟨false, fun _ => false, false, false, false, fun _ => false, fun _ => false, fun _ => false,
    fun _ => false⟩

section restored

variable {D : Type} (read : List UInt8 → Option (List UInt8) → D)

/-- The content of a database is read from its file and its journal. -/
def databaseContent (files : Files) : Option D :=
  (files.content database).map fun db => read db (files.content "rustorr.db-wal")

structure SameState (a b : Files) : Prop where
  stateFiles : ∀ name ∈ stateFiles, a.content name = b.content name
  database : databaseContent read a = databaseContent read b

theorem content_of_eq_map {files : Files} {name : String} {bytes : Option (List UInt8)}
    (h : files name = bytes.map .file) : files.content name = bytes := by
  unfold Files.content
  rw [h]
  cases bytes with
  | none => rfl
  | some b => rfl

theorem unpackAll_none : ∀ (files : List (String × List UInt8)),
    (∀ file ∈ files, file.1 ∈ [database, manifestName] ++ stateFiles) →
    ∀ (i : ℕ) (staged : Staged), ∃ staged',
      unpackAll Faults.none i (files.map tarEntry) staged = .ok staged'
  | [], _, _, staged => ⟨staged, rfl⟩
  | file :: files, h, i, staged => by
    obtain ⟨hfile, hfiles⟩ := List.forall_mem_cons.mp h
    have hpath : (some file.1).filter (fun name => name ∈ [database, manifestName] ++ stateFiles) =
        some file.1 := Option.filter_eq_some_iff.mpr ⟨rfl, decide_eq_true hfile⟩
    rw [List.map_cons]
    unfold tarEntry unpackAll
    simp only [hpath]
    exact unpackAll_none files hfiles (i + 1) _

variable {parseManifest : List UInt8 → Option Manifest} {usable : List UInt8 → Bool}
variable {snapshot : List UInt8 → Option (List UInt8) → Option (ℕ × List UInt8)}
variable {printManifest : BackupManifest → List UInt8} {version : String} {created : ℕ}
variable {saving : BackupFaults} {saved : Files} {files : List String} {archive : Archive}

theorem checkBackup_saved
    (s : Saved snapshot printManifest version created saving saved files archive)
    (hmanifest : parseManifest (printManifest
      ⟨1, version, s.schema, created, database :: copied saving saved⟩) =
        some ⟨some 1, database :: copied saving saved⟩)
    (husable : usable s.copy = true) :
    ∃ checked, checkBackup parseManifest usable Faults.none archive = .ok checked := by
  have hallowed : ∀ file ∈ s.contents, file.1 ∈ [database, manifestName] ++ stateFiles := by
    rintro ⟨name, bytes⟩ hfile
    rcases (s.mem_contents name bytes).mp hfile with ⟨rfl, -⟩ | ⟨hin, -⟩ | ⟨rfl, -⟩
    · exact List.mem_append_left _ List.mem_cons_self
    · exact List.mem_append_right _ hin
    · exact List.mem_append_left _ (List.mem_cons_of_mem _ List.mem_cons_self)
  obtain ⟨staged, hstaged⟩ := unpackAll_none s.contents hallowed 0 fun _ => none
  have heq : staged = archived (s.contents.map tarEntry) := by
    funext n
    rw [(unpackAll_ok _ hstaged n).1, Option.or_none]
  subst heq
  unfold checkBackup
  rw [s.archive_eq]
  refine ⟨(archived (s.contents.map tarEntry), ⟨some 1, database :: copied saving saved⟩), ?_⟩
  refine Except.bind_eq_ok.mpr ⟨(), Except.failIf_of_not Bool.false_ne_true _, ?_⟩
  refine Except.bind_eq_ok.mpr ⟨_, Except.okOr_eq_ok.mpr rfl, ?_⟩
  refine Except.bind_eq_ok.mpr ⟨_, hstaged, ?_⟩
  refine Except.bind_eq_ok.mpr ⟨_, Except.okOr_eq_ok.mpr s.archived_manifest, ?_⟩
  refine Except.bind_eq_ok.mpr ⟨_, Except.okOr_eq_ok.mpr hmanifest, ?_⟩
  refine Except.bind_eq_ok.mpr ⟨(), Except.failIf_of_not (fun h => h rfl) _, ?_⟩
  refine Except.bind_eq_ok.mpr ⟨_, Except.okOr_eq_ok.mpr s.archived_database, ?_⟩
  refine Except.bind_eq_ok.mpr ⟨(), Except.failIf_of_not ?_ _, rfl⟩
  rintro (h | h)
  · exact Bool.false_ne_true h
  · rw [husable] at h
    exact Bool.false_ne_true h.symm

theorem isStaged_none (staged : Staged) (name : String) :
    isStaged Faults.none staged name = (staged name).isSome := Bool.true_and _

/-- Without a fault a saved archive is restored. -/
theorem restore_saved (s : Saved snapshot printManifest version created saving saved files archive)
    (hmanifest : parseManifest (printManifest
      ⟨1, version, s.schema, created, database :: copied saving saved⟩) =
        some ⟨some 1, database :: copied saving saved⟩)
    (husable : usable s.copy = true) {force : Bool} {data : Files}
    (hfiles : ∀ name ∈ removalNames, data name ≠ some .dir)
    (hfree : force = true ∨ data database = none) :
    (restore parseManifest usable Faults.none force archive data).1 = .ok files := by
  have hreplaces : Replaces parseManifest usable Faults.none force archive data := by
    refine ⟨checkBackup_saved s hmanifest husable, ?_⟩
    unfold seen
    rcases hfree with rfl | hnone
    · simp
    · simp [hnone]
  obtain ⟨entries, hentries, -, hok⟩ :=
    restore_of_replaces parseManifest usable Faults.none force hreplaces
  obtain rfl := Option.some.inj (hentries.symm.trans s.archive_eq)
  rw [hok]
  constructor
  · constructor
    · intro n hn _
      simp [removable, Faults.none, hfiles n hn]
    · intro n hn _
      simp [renamable, Faults.none, hfiles n (mem_removalNames hn)]
  · have hdatabase : isStaged Faults.none (archived (s.contents.map tarEntry)) database = true := by
      rw [isStaged_none, s.archived_database, Option.isSome_some]
    refine s.files_eq.trans ?_
    unfold restoredNames copied
    rw [List.filter_cons_of_pos hdatabase]
    apply congrArg
    apply List.filter_congr
    intro n hn
    rw [isStaged_none, s.archived_stateFile hn]

/-- What is restored from a saved archive is what was saved, if no file was overlooked. -/
theorem sameState_iff (s : Saved snapshot printManifest version created saving saved files archive)
    (hread : read s.copy none = read s.db (saved.content "rustorr.db-wal")) {after : Files}
    (hafter : ∀ entries, archive = some entries → ∀ name ∈ removalNames,
      after name = (archived entries name).map .file) :
    SameState read saved after ↔
      ∀ name ∈ stateFiles, saving.looks name = true → saved.content name = none := by
  have hcontent : ∀ name ∈ removalNames,
      after.content name = archived (s.contents.map tarEntry) name := fun name hname =>
    content_of_eq_map (hafter _ s.archive_eq name hname)
  have hstate : ∀ name ∈ stateFiles, after.content name = isFile saving saved name := by
    intro name hname
    rw [hcontent name (List.mem_append_right _ hname), s.archived_stateFile hname]
  have hsame : ∀ name ∈ stateFiles, (saved.content name = after.content name ↔
      (saving.looks name = true → saved.content name = none)) := by
    intro name hname
    rw [hstate name hname]
    unfold isFile
    cases hlooks : saving.looks name with
    | true => simp
    | false => simp
  have hdatabase : databaseContent read saved = databaseContent read after := by
    unfold databaseContent
    rw [s.content_database, hcontent database (by decide), hcontent "rustorr.db-wal" (by decide),
      s.archived_database, s.archived_wal, Option.map_some, Option.map_some, hread]
  constructor
  · intro h name hname
    exact (hsame name hname).mp (h.stateFiles name hname)
  · intro h
    exact ⟨fun name hname => (hsame name hname).mpr (h name hname), hdatabase⟩

end restored

/-- A restore is all or nothing exactly if it does no harm where a step fails. What it restores from
a backup is what was saved, if the backup overlooked no file. -/
theorem restore_all_or_nothing_iff {D : Type} (parseManifest : List UInt8 → Option Manifest)
    (usable : List UInt8 → Bool)
    (snapshot : List UInt8 → Option (List UInt8) → Option (ℕ × List UInt8))
    (printManifest : BackupManifest → List UInt8) (version : String) (created : ℕ)
    (read : List UInt8 → Option (List UInt8) → D) (saving : BackupFaults) (saved : Files)
    (hmanifest : ∀ schema, parseManifest (printManifest
      ⟨1, version, schema, created, database :: copied saving saved⟩) =
        some ⟨some 1, database :: copied saving saved⟩)
    (hsnapshot : ∀ db schema copy, saved.content database = some db →
      snapshot db (saved.content "rustorr.db-wal") = some (schema, copy) →
        usable copy = true ∧ read copy none = read db (saved.content "rustorr.db-wal"))
    (faults : Faults) (force : Bool) (data : Files) :
    (∀ archive, AllOrNothing parseManifest archive data
        (restore parseManifest usable faults force archive data) ↔
      Sound parseManifest usable faults force archive data) ∧
    ∀ files archive,
      backup snapshot printManifest version created saving saved = .ok (files, archive) →
      (Sound parseManifest usable faults force archive data → ∀ restored after,
        restore parseManifest usable faults force archive data = (.ok restored, after) →
        (SameState read saved after ↔
          ∀ name ∈ stateFiles, saving.looks name = true → saved.content name = none)) ∧
      ((∀ name ∈ removalNames, data name ≠ some .dir) → force = true ∨ data database = none →
        (restore parseManifest usable Faults.none force archive data).1 = .ok files) := by
  refine ⟨fun archive => allOrNothing_iff_sound parseManifest usable faults force archive data,
    fun files archive hbackup => ?_⟩
  obtain ⟨s⟩ := backup_ok snapshot printManifest version created saving saved hbackup
  have hfound : saved.content database = some s.db := s.content_database
  obtain ⟨husable, hread⟩ := hsnapshot s.db s.schema s.copy hfound s.copies
  constructor
  · intro hsound restored after hrestore
    have hall := (allOrNothing_iff_sound parseManifest usable faults force archive data).mpr hsound
    rw [hrestore] at hall
    obtain ⟨entries, rfl, -, hafter⟩ := hall.all restored rfl
    refine sameState_iff read s hread fun entries' hentries => ?_
    obtain rfl := Option.some.inj hentries
    exact hafter
  · intro hfiles hfree
    exact restore_saved s (hmanifest s.schema) husable hfiles hfree

def manifestText : List UInt8 :=
  "\x7b\"format\":1,\"files\":[\"rustorr.db\",\"accs.db\"]\x7d".toList.map fun c => .ofNat c.toNat

/-- The reader of the one manifest here. -/
def parseManifestText (bytes : List UInt8) : Option Manifest :=
  if bytes = manifestText then some ⟨some 1, ["rustorr.db", "accs.db"]⟩ else none

/-- A data directory of a database and its accounts. -/
def accounts (db accs : UInt8) : Files := fun name =>
  if name = database then some (.file [db])
  else if name = "accs.db" then some (.file [accs])
  else none

def noBackupFaults : BackupFaults := ⟨fun _ => false, false, fun _ => false, false⟩

theorem restore_all_or_nothing_accounts :
    ∃ files archive, backup (fun db _ => some (1, db)) (fun _ => manifestText) "0.1.0" 0
        noBackupFaults (accounts 1 2) = .ok (files, archive) ∧
      (restore parseManifestText (fun _ => true) Faults.none true archive (accounts 3 4)).1 =
        .ok files := by
  refine ⟨_, _, rfl, ?_⟩
  refine ((restore_all_or_nothing_iff parseManifestText (fun _ => true) (fun db _ => some (1, db))
    (fun _ => manifestText) "0.1.0" 0 (fun db _ => db) noBackupFaults (accounts 1 2) ?_ ?_
    Faults.none true (accounts 3 4)).2 _ _ rfl).2 ?_ (Or.inl rfl)
  · intro schema
    exact if_pos rfl
  · rintro db schema copy - hcopy
    cases hcopy
    exact ⟨rfl, rfl⟩
  · decide

/-- A directory stands where the trackers would: the restore fails, and the old files are gone. -/
theorem restore_fails_halfway :
    let archive : Archive := some ([(database, [1]), ("accs.db", [2]),
      (manifestName, manifestText)].map tarEntry)
    let data := (accounts 3 4).set "trackers.txt" (some .dir)
    let result := restore parseManifestText (fun _ => true) Faults.none true archive data
    result.1 = .error (.cannotRemove "trackers.txt") ∧ result.2 database = none ∧
      ¬AllOrNothing parseManifestText archive data result := by
  intro archive data result
  have herror : result.1 = .error (.cannotRemove "trackers.txt") := by decide +kernel
  have hgone : result.2 database = none := by decide +kernel
  refine ⟨herror, hgone, fun h => ?_⟩
  have hkept := h.nothing _ herror database List.mem_cons_self
  rw [hgone] at hkept
  exact nomatch hkept

end Rustorr.Maintenance
