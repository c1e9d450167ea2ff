import Rustorr.Lib.Fallible
import Mathlib.Data.List.Basic
import Mathlib.Data.List.Nodup
import Mathlib.Data.List.TakeWhile
import Mathlib.Data.Nat.Notation

/-! Backup and restore of the files of the data directory (`maintenance.rs`). An archive is the list
of its entries; packing and compressing it, and the database's own format, are left to the crates
that do them. -/

namespace Rustorr.Maintenance

open Except (failIf okOr)

/-- What a directory holds under a name. -/
inductive Node where
  | file (bytes : List UInt8)
  | dir
  deriving DecidableEq

abbrev Files : Type := String → Option Node

namespace Files

def set (name : String) (node : Option Node) (files : Files) : Files :=
  fun n => if n = name then node else files n

/-- `is_file`, where the name can be looked at. -/
def content (files : Files) (name : String) : Option (List UInt8) :=
  match files name with
  | some (.file bytes) => some bytes
  | _ => none

end Files

def database : String := "rustorr.db"

def manifestName : String := "backup.json"

/-- `STATE_FILES`. -/
def stateFiles : List String :=
  ["accs.db", "trackers.txt", "server.pem", "server.key", "tls-cert.pem", "tls-key.pem"]

/-- What a restore removes: the database, its journals and the state files. -/
def removalNames : List String := [database, "rustorr.db-wal", "rustorr.db-shm"] ++ stateFiles

def restoredNames : List String := database :: stateFiles

/-- The members of `backup.json` that matter here. -/
structure Manifest where
  format : Option ℕ
  files : List String
  deriving DecidableEq

/-- An entry of an archive. Its path may be no text. -/
structure TarEntry where
  path : Option String
  isFile : Bool
  content : List UInt8
  deriving DecidableEq

/-- An archive as it is read, if it is one: its entries, up to one that cannot be read. -/
abbrev Archive : Type := Option (List (Option TarEntry))

/-- The steps of a restore that fail. A name that cannot be looked at seems not to be there. -/
structure Faults where
  setUp : Bool
  unpack : ℕ → Bool
  readManifest : Bool
  lookAtDatabase : Bool
  inspect : Bool
  looks : String → Bool
  remove : String → Bool
  staged : String → Bool
  rename : String → Bool

inductive RestoreError where
  | setUp
  | notABackup
  | unexpectedEntry
  | notAFile (name : String)
  | unpack (name : String)
  | noManifest
  | notJson
  | unknownFormat
  | noDatabase
  | unusableDatabase
  | holdsDatabase
  | cannotRemove (name : String)
  | rename (name : String)
  deriving DecidableEq

abbrev Staged : Type := String → Option (List UInt8)

section restore

-- how the manifest is read, and whether this build can use a database
variable (parseManifest : List UInt8 → Option Manifest) (usable : List UInt8 → Bool)
variable (faults : Faults)

/-- The entries are unpacked in turn; a later one of a name replaces an earlier one. -/
def unpackAll : ℕ → List (Option TarEntry) → Staged → Except RestoreError Staged
  | _, [], staged => .ok staged
  | _, none :: _, _ => .error .notABackup
  | i, some entry :: entries, staged =>
    match entry.path.filter fun name => name ∈ [database, manifestName] ++ stateFiles with
    | none => .error .unexpectedEntry
    | some name =>
      if entry.isFile = false then .error (.notAFile name)
      else if faults.unpack i then .error (.unpack name)
      else unpackAll (i + 1) entries fun n => if n = name then some entry.content else staged n

/-- What is checked before the data directory changes. -/
def checkBackup (archive : Archive) : Except RestoreError (Staged × Manifest) := do
  failIf (faults.setUp = true) .setUp
  let entries ← okOr archive .notABackup
  let staged ← unpackAll faults 0 entries fun _ => none
  let bytes ← okOr (if faults.readManifest then none else staged manifestName) .noManifest
  let manifest ← okOr (parseManifest bytes) .notJson
  failIf (manifest.format ≠ some 1) .unknownFormat
  let db ← okOr (if faults.lookAtDatabase then none else staged database) .noDatabase
  failIf (faults.inspect = true ∨ usable db = false) .unusableDatabase
  .ok (staged, manifest)

/-- `path.exists()`. -/
def seen (data : Files) (name : String) : Bool := (data name).isSome && !faults.looks name

def removeAll : List String → Files → Except RestoreError Unit × Files
  | [], data => (.ok (), data)
  | name :: names, data =>
    if seen faults data name then
      if faults.remove name || data name = some .dir then (.error (.cannotRemove name), data)
      else removeAll names (data.set name none)
    else removeAll names data

def renameAll (staged : Staged) : List String → List String → Files →
    Except RestoreError (List String) × Files
  | [], files, data => (.ok files, data)
  | name :: names, files, data =>
    match if faults.staged name then none else staged name with
    | none => renameAll staged names files data
    | some bytes =>
      if faults.rename name || data name = some .dir then (.error (.rename name), data)
      else renameAll staged names (files ++ [name]) (data.set name (some (.file bytes)))

/-- The result and the data directory after it. -/
def restore (force : Bool) (archive : Archive) (data : Files) :
    Except RestoreError (List String) × Files :=
  match checkBackup parseManifest usable faults archive with
  | .error e => (.error e, data)
  | .ok (staged, _) =>
    if seen faults data database && !force then (.error .holdsDatabase, data)
    else match removeAll faults removalNames data with
      | (.error e, data) => (.error e, data)
      | (.ok _, data) => renameAll faults staged restoredNames [] data

end restore

/-! What is left in the data directory, whatever fails. -/

section left

variable (faults : Faults) (staged : Staged)

def removable (data : Files) (name : String) : Bool := !(faults.remove name || data name = some .dir)

def renamable (data : Files) (name : String) : Bool := !(faults.rename name || data name = some .dir)

/-- What a restore takes from the staging directory. -/
def isStaged (name : String) : Bool := !faults.staged name && (staged name).isSome

theorem not_removable {data : Files} {name : String} :
    removable faults data name = false ↔ (faults.remove name || data name = some .dir) = true := by
  unfold removable
  rw [Bool.not_eq_eq_eq_not, Bool.not_false]

theorem not_renamable {data : Files} {name : String} :
    renamable faults data name = false ↔ (faults.rename name || data name = some .dir) = true := by
  unfold renamable
  rw [Bool.not_eq_eq_eq_not, Bool.not_false]

theorem seen_set_of_ne {name n : String} {node : Option Node} (data : Files) (h : n ≠ name) :
    seen faults (data.set name node) n = seen faults data n := by
  unfold seen Files.set
  rw [if_neg h]

theorem removable_set_of_ne {name n : String} {node : Option Node} (data : Files) (h : n ≠ name) :
    removable faults (data.set name node) n = removable faults data n := by
  unfold removable Files.set
  rw [if_neg h]

theorem renamable_set_of_ne {name n : String} {node : Option Node} (data : Files) (h : n ≠ name) :
    renamable faults (data.set name node) n = renamable faults data n := by
  unfold renamable Files.set
  rw [if_neg h]

theorem takeWhile_congr {α : Type} {p q : α → Bool} :
    ∀ {l : List α}, (∀ x ∈ l, p x = q x) → l.takeWhile p = l.takeWhile q
  | [], _ => rfl
  | x :: l, h => by
    have hrest : l.takeWhile p = l.takeWhile q :=
      takeWhile_congr fun y hy => h y (List.mem_cons_of_mem x hy)
    rw [List.takeWhile_cons, List.takeWhile_cons, h x List.mem_cons_self, hrest]

/-- The names of a list that are removed. -/
def removedOf (names : List String) (data : Files) : List String :=
  (names.filter (seen faults data)).takeWhile (removable faults data)

def placedOf (names : List String) (data : Files) : List String :=
  (names.filter (isStaged faults staged)).takeWhile (renamable faults data)

theorem mem_removedOf {names : List String} {data : Files} {n : String}
    (h : n ∈ removedOf faults names data) :
    n ∈ names ∧ seen faults data n = true ∧ removable faults data n = true := by
  obtain ⟨hn, hseen⟩ := List.mem_filter.mp (List.takeWhile_subset _ h)
  exact ⟨hn, hseen, List.mem_takeWhile_imp h⟩

theorem removedOf_set {name : String} {names : List String} {node : Option Node} (data : Files)
    (h : name ∉ names) :
    removedOf faults names (data.set name node) = removedOf faults names data := by
  have hne : ∀ n ∈ names, n ≠ name := fun n hn => ne_of_mem_of_not_mem hn h
  unfold removedOf
  rw [List.filter_congr fun n hn => seen_set_of_ne faults data (hne n hn)]
  apply takeWhile_congr
  intro n hn
  exact removable_set_of_ne faults data (hne n (List.mem_of_mem_filter hn))

theorem placedOf_set {name : String} {names : List String} {node : Option Node} (data : Files)
    (h : name ∉ names) :
    placedOf faults staged names (data.set name node) = placedOf faults staged names data := by
  unfold placedOf
  apply takeWhile_congr
  intro n hn
  exact renamable_set_of_ne faults data (ne_of_mem_of_not_mem (List.mem_of_mem_filter hn) h)

/-- What a removal leaves, and when all of them succeed. -/
theorem removeAll_spec : ∀ {names : List String}, names.Nodup → ∀ data : Files,
    (removeAll faults names data).2 = (fun n =>
      if n ∈ removedOf faults names data then none else data n) ∧
    ((removeAll faults names data).1 = .ok () ↔
      ∀ n ∈ names, seen faults data n = true → removable faults data n = true)
  | [], _, data => by
    refine ⟨?_, iff_of_true rfl fun n hn => absurd hn List.not_mem_nil⟩
    funext n
    exact (if_neg List.not_mem_nil).symm
  | name :: names, hnodup, data => by
    obtain ⟨hname, hnames⟩ := List.nodup_cons.mp hnodup
    unfold removeAll
    cases hseen : seen faults data name with
    | false =>
      have hremoved : removedOf faults (name :: names) data = removedOf faults names data := by
        unfold removedOf
        rw [List.filter_cons_of_neg (by rw [hseen]; exact Bool.false_ne_true)]
      rw [hremoved, if_neg Bool.false_ne_true, List.forall_mem_cons]
      obtain ⟨hdata, hok⟩ := removeAll_spec hnames data
      refine ⟨hdata, hok.trans (iff_and_self.mpr fun _ h => ?_)⟩
      rw [hseen] at h
      exact absurd h Bool.false_ne_true
    | true =>
      rw [if_pos rfl, List.forall_mem_cons]
      have hfilter : (name :: names).filter (seen faults data) =
          name :: names.filter (seen faults data) := List.filter_cons_of_pos hseen
      cases hremovable : removable faults data name with
      | false =>
        have hremoved : removedOf faults (name :: names) data = [] := by
          unfold removedOf
          rw [hfilter, List.takeWhile_cons_of_neg (by rw [hremovable]; exact Bool.false_ne_true)]
        rw [hremoved, if_pos ((not_removable faults).mp hremovable)]
        constructor
        · funext n
          exact (if_neg List.not_mem_nil).symm
        · exact iff_of_false (fun h => nomatch h) fun h => Bool.false_ne_true (h.1 hseen)
      | true =>
        have hremoved : removedOf faults (name :: names) data =
            name :: removedOf faults names data := by
          unfold removedOf
          rw [hfilter, List.takeWhile_cons_of_pos hremovable]
        have hfails : ¬(faults.remove name || data name = some .dir) = true := by
          rw [← not_removable, hremovable]
          exact Bool.noConfusion
        rw [hremoved, if_neg hfails]
        obtain ⟨hdata, hok⟩ := removeAll_spec hnames (data.set name none)
        rw [removedOf_set faults data hname] at hdata
        constructor
        · rw [hdata]
          funext n
          unfold Files.set
          simp only [List.mem_cons]
          by_cases hn : n = name
          · simp [hn]
          · simp [hn]
        · rw [hok]
          have hne : ∀ n ∈ names, n ≠ name := fun n hn => ne_of_mem_of_not_mem hn hname
          constructor
          · intro h
            refine ⟨fun _ => rfl, fun n hn hs => ?_⟩
            rw [← removable_set_of_ne faults data (hne n hn)]
            apply h n hn
            rw [seen_set_of_ne faults data (hne n hn), hs]
          · rintro ⟨-, h⟩ n hn hs
            rw [seen_set_of_ne faults data (hne n hn)] at hs
            rw [removable_set_of_ne faults data (hne n hn), h n hn hs]

/-- What the renames leave, and when all of them succeed. -/
theorem renameAll_spec : ∀ {names : List String}, names.Nodup → ∀ (files : List String)
    (data : Files),
    (renameAll faults staged names files data).2 = (fun n =>
      if n ∈ placedOf faults staged names data then (staged n).map Node.file else data n) ∧
    (∀ done, (renameAll faults staged names files data).1 = .ok done ↔
      (∀ n ∈ names, isStaged faults staged n = true → renamable faults data n = true) ∧
        done = files ++ names.filter (isStaged faults staged))
  | [], _, files, data => by
    constructor
    · funext n
      exact (if_neg List.not_mem_nil).symm
    · intro done
      rw [List.filter_nil, List.append_nil]
      constructor
      · intro h
        exact ⟨fun n hn => absurd hn List.not_mem_nil, (Except.ok.inj h).symm⟩
      · rintro ⟨-, rfl⟩
        rfl
  | name :: names, hnodup, files, data => by
    obtain ⟨hname, hnames⟩ := List.nodup_cons.mp hnodup
    unfold renameAll
    cases hstaged : isStaged faults staged name with
    | false =>
      have hnone : (if faults.staged name then none else staged name) = none := by
        unfold isStaged at hstaged
        split
        · rfl
        · simp_all
      have hfilter : (name :: names).filter (isStaged faults staged) =
          names.filter (isStaged faults staged) :=
        List.filter_cons_of_neg (by rw [hstaged]; exact Bool.false_ne_true)
      have hplaced : placedOf faults staged (name :: names) data =
          placedOf faults staged names data := by
        unfold placedOf
        rw [hfilter]
      rw [hplaced, hfilter, hnone]
      obtain ⟨hdata, hok⟩ := renameAll_spec hnames files data
      refine ⟨hdata, fun done => ?_⟩
      rw [List.forall_mem_cons, hstaged]
      refine (hok done).trans (and_congr_left fun _ => ?_)
      exact (and_iff_right fun h => absurd h Bool.false_ne_true).symm
    | true =>
      obtain ⟨bytes, hbytes, hsome⟩ : ∃ bytes, staged name = some bytes ∧
          (if faults.staged name then none else staged name) = some bytes := by
        unfold isStaged at hstaged
        rw [Bool.and_eq_true, Bool.not_eq_true'] at hstaged
        obtain ⟨bytes, hbytes⟩ := Option.isSome_iff_exists.mp hstaged.2
        exact ⟨bytes, hbytes, by rw [hstaged.1, if_neg Bool.false_ne_true, hbytes]⟩
      have hfilter : (name :: names).filter (isStaged faults staged) =
          name :: names.filter (isStaged faults staged) := List.filter_cons_of_pos hstaged
      rw [hsome, hfilter]
      simp only [List.forall_mem_cons]
      cases hrenamable : renamable faults data name with
      | false =>
        have hplaced : placedOf faults staged (name :: names) data = [] := by
          unfold placedOf
          rw [hfilter, List.takeWhile_cons_of_neg (by rw [hrenamable]; exact Bool.false_ne_true)]
        rw [hplaced, if_pos ((not_renamable faults).mp hrenamable)]
        constructor
        · funext n
          exact (if_neg List.not_mem_nil).symm
        · intro done
          exact iff_of_false (fun h => nomatch h) fun h => Bool.false_ne_true (h.1.1 hstaged)
      | true =>
        have hplaced : placedOf faults staged (name :: names) data =
            name :: placedOf faults staged names data := by
          unfold placedOf
          rw [hfilter, List.takeWhile_cons_of_pos hrenamable]
        have hfails : ¬(faults.rename name || data name = some .dir) = true := by
          rw [← not_renamable, hrenamable]
          exact Bool.noConfusion
        rw [hplaced, if_neg hfails]
        obtain ⟨hdata, hok⟩ := renameAll_spec hnames (files ++ [name])
          (data.set name (some (.file bytes)))
        rw [placedOf_set faults staged data hname] at hdata
        constructor
        · rw [hdata]
          funext n
          unfold Files.set
          simp only [List.mem_cons]
          by_cases hn : n = name
          · simp [hn, hbytes]
          · simp [hn]
        · intro done
          have hne : ∀ n ∈ names, n ≠ name := fun n hn => ne_of_mem_of_not_mem hn hname
          rw [hok, List.append_assoc, List.singleton_append]
          refine and_congr_left fun _ => ?_
          constructor
          · intro h
            refine ⟨fun _ => rfl, fun n hn hs => ?_⟩
            rw [← renamable_set_of_ne faults data (hne n hn)]
            exact h n hn hs
          · rintro ⟨-, h⟩ n hn hs
            rw [renamable_set_of_ne faults data (hne n hn), h n hn hs]

/-- The names that are removed, and those that are then put in place. -/
def removed (data : Files) : List String := removedOf faults removalNames data

def placed (data : Files) : List String :=
  if ∀ n ∈ removalNames, seen faults data n = true → removable faults data n = true then
    placedOf faults staged restoredNames data
  else []

/-- Every removal and every rename succeeds. -/
def Succeeds (data : Files) : Prop :=
  (∀ n ∈ removalNames, seen faults data n = true → removable faults data n = true) ∧
    ∀ n ∈ restoredNames, isStaged faults staged n = true → renamable faults data n = true

/-- A removed name was no directory, so the renames meet the directories they met before. -/
theorem renamable_after_removal (data : Files) (n : String) :
    renamable faults (fun n => if n ∈ removed faults data then none else data n) n =
      renamable faults data n := by
  unfold renamable
  by_cases hn : n ∈ removed faults data
  · have hfile := (mem_removedOf faults hn).2.2
    unfold removable at hfile
    simp_all
  · simp only [if_neg hn]

theorem nodup_removalNames : removalNames.Nodup := by decide

theorem nodup_restoredNames : restoredNames.Nodup := by decide

/-- The second half of a restore, from the removals on. -/
theorem replace_spec (data : Files) :
    let result := match removeAll faults removalNames data with
      | (.error e, data) => (Except.error e, data)
      | (.ok _, data) => renameAll faults staged restoredNames [] data
    (∀ n, result.2 n = if n ∈ placed faults staged data then (staged n).map Node.file
      else if n ∈ removed faults data then none else data n) ∧
    (∀ files, result.1 = .ok files ↔ Succeeds faults staged data ∧
      files = restoredNames.filter (isStaged faults staged)) := by
  obtain ⟨hdata, hok⟩ := removeAll_spec faults nodup_removalNames data
  obtain ⟨outcome, left, hremove⟩ : ∃ outcome left,
      removeAll faults removalNames data = (outcome, left) := ⟨_, _, rfl⟩
  rw [hremove] at hdata hok
  rw [hremove]
  subst hdata
  unfold Succeeds placed
  cases outcome with
  | error e =>
    have hfails : ¬∀ n ∈ removalNames, seen faults data n = true →
        removable faults data n = true := fun h => nomatch hok.mpr h
    rw [if_neg hfails]
    refine ⟨fun n => (if_neg List.not_mem_nil).symm, ?_⟩
    exact fun files => iff_of_false (fun h => nomatch h) fun h => hfails h.1.1
  | ok _ =>
    have hall := hok.mp rfl
    rw [if_pos hall]
    obtain ⟨hplaced, hdone⟩ := renameAll_spec faults staged nodup_restoredNames []
      fun n => if n ∈ removed faults data then none else data n
    have hsame : placedOf faults staged restoredNames
        (fun n => if n ∈ removed faults data then none else data n) =
        placedOf faults staged restoredNames data :=
      takeWhile_congr fun n _ => renamable_after_removal faults data n
    rw [hsame] at hplaced
    refine ⟨fun n => congrFun hplaced n, ?_⟩
    simp only [renamable_after_removal] at hdone
    intro files
    refine (hdone files).trans (and_congr_left fun _ => ?_)
    exact (and_iff_right hall).symm

end left

/-! What the checks accept. -/

section archived

variable (parseManifest : List UInt8 → Option Manifest) (usable : List UInt8 → Bool)
variable (faults : Faults)

/-- The file of an archive under a name is its last entry of that name. -/
def archived : List (Option TarEntry) → Staged
  | [], _ => none
  | none :: entries, n => archived entries n
  | some entry :: entries, n =>
    (archived entries n).or (if entry.path = some n then some entry.content else none)

theorem unpackAll_ok : ∀ {entries : List (Option TarEntry)} {i : ℕ} {staged staged' : Staged},
    unpackAll faults i entries staged = .ok staged' →
    ∀ n, staged' n = (archived entries n).or (staged n) ∧
      ((archived entries n).isSome → n ∈ [database, manifestName] ++ stateFiles)
  | [], i, staged, staged', h, n => by
    obtain rfl := Except.ok.inj h
    exact ⟨rfl, fun h => nomatch h⟩
  | none :: entries, i, staged, staged', h, n => nomatch h
  | some entry :: entries, i, staged, staged', h, n => by
    unfold unpackAll at h
    cases hpath : entry.path.filter fun name => name ∈ [database, manifestName] ++ stateFiles with
    | none =>
      rw [hpath] at h
      exact nomatch h
    | some name =>
      rw [hpath] at h
      obtain ⟨hname, hallowed⟩ := Option.filter_eq_some_iff.mp hpath
      simp only at h
      split at h
      · exact nomatch h
      split at h
      · exact nomatch h
      obtain ⟨hstaged, hin⟩ := unpackAll_ok h n
      unfold archived
      rw [hstaged, hname, Option.or_assoc]
      simp only [Option.some_inj]
      constructor
      · by_cases hn : n = name
        · rw [if_pos hn, if_pos hn.symm, Option.some_or]
        · rw [if_neg hn, if_neg (Ne.symm hn), Option.none_or]
      · intro h
        by_cases hn : name = n
        · rw [← hn]
          exact of_decide_eq_true hallowed
        · rw [if_neg hn, Option.or_none] at h
          exact hin h

theorem checkBackup_ok {archive : Archive} {staged : Staged} {manifest : Manifest}
    (h : checkBackup parseManifest usable faults archive = .ok (staged, manifest)) :
    ∃ entries bytes, archive = some entries ∧ staged = archived entries ∧
      (∀ n, (archived entries n).isSome → n ∈ [database, manifestName] ++ stateFiles) ∧
      archived entries manifestName = some bytes ∧ parseManifest bytes = some manifest := by
  unfold checkBackup at h
  obtain ⟨_, -, h⟩ := Except.bind_eq_ok.mp h
  obtain ⟨entries, hentries, h⟩ := Except.bind_eq_ok.mp h
  obtain ⟨unpacked, hunpacked, h⟩ := Except.bind_eq_ok.mp h
  obtain ⟨bytes, hbytes, h⟩ := Except.bind_eq_ok.mp h
  obtain ⟨m, hm, h⟩ := Except.bind_eq_ok.mp h
  obtain ⟨_, -, h⟩ := Except.bind_eq_ok.mp h
  obtain ⟨db, -, h⟩ := Except.bind_eq_ok.mp h
  obtain ⟨_, -, h⟩ := Except.bind_eq_ok.mp h
  obtain ⟨rfl, rfl⟩ := Prod.mk.inj (Except.ok.inj h)
  rw [Except.okOr_eq_ok] at hentries hbytes hm
  have hstaged : unpacked = archived entries := by
    funext n
    rw [(unpackAll_ok faults hunpacked n).1, Option.or_none]
  subst hstaged
  refine ⟨entries, bytes, hentries, rfl, fun n => (unpackAll_ok faults hunpacked n).2, ?_, hm⟩
  split at hbytes
  · exact nomatch hbytes
  · exact hbytes

end archived

/-! When a restore is all or nothing. -/

section sound

variable (parseManifest : List UInt8 → Option Manifest) (usable : List UInt8 → Bool)
variable (faults : Faults) (force : Bool)

/-- The manifest of an archive lists exactly its files. -/
def ListsItsFiles (entries : List (Option TarEntry)) : Prop :=
  ∃ bytes manifest, archived entries manifestName = some bytes ∧
    parseManifest bytes = some manifest ∧
    ∀ name, name ∈ manifest.files ↔ name ∈ restoredNames ∧ (archived entries name).isSome

/-- What a restore into a data directory should come to. -/
structure AllOrNothing (archive : Archive) (data : Files)
    (result : Except RestoreError (List String) × Files) : Prop where
  nothing : ∀ e, result.1 = .error e → ∀ name ∈ removalNames, result.2 name = data name
  all : ∀ files, result.1 = .ok files → ∃ entries, archive = some entries ∧
    ListsItsFiles parseManifest entries ∧
    ∀ name ∈ removalNames, result.2 name = (archived entries name).map .file

/-- The archive passes the checks, and the data directory may be replaced. -/
def Replaces (archive : Archive) (data : Files) : Prop :=
  (∃ s, checkBackup parseManifest usable faults archive = .ok s) ∧
    ¬(seen faults data database && !force) = true

/-- Where every step succeeds, the manifest lists the files and no name is overlooked that matters.
Where one fails, what has changed by then was as it should be. -/
def Harmless (entries : List (Option TarEntry)) (data : Files) : Prop :=
  (Succeeds faults (archived entries) data →
    ListsItsFiles parseManifest entries ∧
    ∀ name ∈ removalNames, name ∈ restoredNames ∧ isStaged faults (archived entries) name = true ∨
      (if seen faults data name then none else data name) = (archived entries name).map .file) ∧
  (¬Succeeds faults (archived entries) data →
    (∀ name ∈ placed faults (archived entries) data,
      data name = (archived entries name).map .file) ∧
    ∀ name ∈ removed faults data, name ∈ placed faults (archived entries) data)

def Sound (archive : Archive) (data : Files) : Prop :=
  Replaces parseManifest usable faults force archive data →
    ∀ entries, archive = some entries → Harmless parseManifest faults entries data

theorem mem_placed {staged : Staged} {data : Files} {name : String}
    (h : name ∈ placed faults staged data) :
    name ∈ restoredNames ∧ isStaged faults staged name = true := by
  unfold placed at h
  split at h
  · exact List.mem_filter.mp (List.takeWhile_subset _ h)
  · exact absurd h List.not_mem_nil

theorem mem_removalNames {name : String} (h : name ∈ restoredNames) : name ∈ removalNames := by
  revert name
  decide

theorem mem_placed_iff {staged : Staged} {data : Files} (h : Succeeds faults staged data)
    {name : String} : name ∈ placed faults staged data ↔
      name ∈ restoredNames ∧ isStaged faults staged name = true := by
  have hall : placedOf faults staged restoredNames data =
      restoredNames.filter (isStaged faults staged) := by
    apply List.takeWhile_eq_self_iff.mpr
    intro n hn
    obtain ⟨hin, hstaged⟩ := List.mem_filter.mp hn
    exact h.2 n hin hstaged
  unfold placed
  rw [if_pos h.1, hall, List.mem_filter]

theorem mem_removed_iff {staged : Staged} {data : Files} (h : Succeeds faults staged data)
    {name : String} : name ∈ removed faults data ↔
      name ∈ removalNames ∧ seen faults data name = true := by
  have hall : removed faults data = removalNames.filter (seen faults data) := by
    apply List.takeWhile_eq_self_iff.mpr
    intro n hn
    obtain ⟨hin, hseen⟩ := List.mem_filter.mp hn
    exact h.1 n hin hseen
  rw [hall, List.mem_filter]

/-- A restore that does not replace anything fails and changes nothing. -/
theorem restore_of_not_replaces {archive : Archive} {data : Files}
    (h : ¬Replaces parseManifest usable faults force archive data) :
    (restore parseManifest usable faults force archive data).2 = data ∧
      ∀ files, (restore parseManifest usable faults force archive data).1 ≠ .ok files := by
  unfold restore
  cases hcheck : checkBackup parseManifest usable faults archive with
  | error e => exact ⟨rfl, fun files h => nomatch h⟩
  | ok s =>
    have hrefused : (seen faults data database && !force) = true := by
      by_contra hfree
      exact h ⟨⟨s, hcheck⟩, hfree⟩
    simp only [hrefused, if_true]
    exact ⟨trivial, fun files h => nomatch h⟩

theorem restore_of_replaces {archive : Archive} {data : Files}
    (h : Replaces parseManifest usable faults force archive data) :
    ∃ entries, archive = some entries ∧
      let result := restore parseManifest usable faults force archive data
      (∀ n, result.2 n = if n ∈ placed faults (archived entries) data
        then (archived entries n).map Node.file
        else if n ∈ removed faults data then none else data n) ∧
      (∀ files, result.1 = .ok files ↔ Succeeds faults (archived entries) data ∧
        files = restoredNames.filter (isStaged faults (archived entries))) := by
  obtain ⟨⟨⟨staged, manifest⟩, hcheck⟩, hfree⟩ := h
  obtain ⟨entries, bytes, harchive, rfl, -⟩ := checkBackup_ok parseManifest usable faults hcheck
  refine ⟨entries, harchive, ?_⟩
  unfold restore
  simp only [hcheck, if_neg hfree]
  exact replace_spec faults (archived entries) data

theorem allOrNothing_iff_sound (archive : Archive) (data : Files) :
    AllOrNothing parseManifest archive data
        (restore parseManifest usable faults force archive data) ↔
      Sound parseManifest usable faults force archive data := by
  by_cases hreplaces : Replaces parseManifest usable faults force archive data
  case neg =>
    obtain ⟨hdata, hfails⟩ := restore_of_not_replaces parseManifest usable faults force hreplaces
    refine iff_of_true ⟨fun e _ name _ => ?_, fun files hok => absurd hok (hfails files)⟩
      fun h => absurd h hreplaces
    rw [hdata]
  obtain ⟨entries, rfl, hdata, hok⟩ :=
    restore_of_replaces parseManifest usable faults force hreplaces
  set result := restore parseManifest usable faults force (some entries) data
  by_cases hsucceeds : Succeeds faults (archived entries) data
  · have hfiles := (hok _).mpr ⟨hsucceeds, rfl⟩
    have hleft : ∀ name ∈ removalNames, (result.2 name = (archived entries name).map Node.file ↔
        name ∈ restoredNames ∧ isStaged faults (archived entries) name = true ∨
          (if seen faults data name then none else data name) =
            (archived entries name).map .file) := by
      intro name hname
      rw [hdata]
      simp only [mem_placed_iff faults hsucceeds, mem_removed_iff faults hsucceeds]
      by_cases hplaced : name ∈ restoredNames ∧ isStaged faults (archived entries) name = true
      · rw [if_pos hplaced]
        exact iff_of_true rfl (Or.inl hplaced)
      · rw [if_neg hplaced, or_iff_right hplaced]
        simp only [hname, true_and]
    constructor
    · intro h _ entries' hentries
      obtain rfl := Option.some.inj hentries
      obtain ⟨entries', hentries, hlists, hall⟩ := h.all _ hfiles
      obtain rfl := Option.some.inj hentries
      exact ⟨fun _ => ⟨hlists, fun name hname => (hleft name hname).mp (hall name hname)⟩,
        fun hfails => absurd hsucceeds hfails⟩
    · intro h
      obtain ⟨hlists, hall⟩ := (h hreplaces entries rfl).1 hsucceeds
      refine ⟨fun e he => ?_, fun _ _ => ?_⟩
      · rw [hfiles] at he
        exact nomatch he
      · exact ⟨entries, rfl, hlists, fun name hname => (hleft name hname).mpr (hall name hname)⟩
  · have hfails : ∀ files, result.1 ≠ .ok files := fun files h => hsucceeds ((hok files).mp h).1
    obtain ⟨e, he⟩ : ∃ e, result.1 = .error e := by
      cases houtcome : result.1 with
      | error e => exact ⟨e, rfl⟩
      | ok files => exact absurd houtcome (hfails files)
    constructor
    · intro h _ entries' hentries
      obtain rfl := Option.some.inj hentries
      refine ⟨fun hs => absurd hs hsucceeds, fun _ => ⟨fun name hname => ?_, fun name hname => ?_⟩⟩
      · have hin := mem_removalNames (mem_placed faults hname).1
        rw [← h.nothing e he name hin, hdata, if_pos hname]
      · by_contra hplaced
        obtain ⟨hin, hseen, -⟩ := mem_removedOf faults hname
        have hgone := h.nothing e he name hin
        rw [hdata, if_neg hplaced, if_pos hname] at hgone
        unfold seen at hseen
        rw [← hgone] at hseen
        exact Bool.false_ne_true hseen
    · intro h
      obtain ⟨hplaced, hremoved⟩ := (h hreplaces entries rfl).2 hsucceeds
      refine ⟨fun _ _ name hname => ?_, fun files h => absurd h (hfails files)⟩
      rw [hdata]
      by_cases hin : name ∈ placed faults (archived entries) data
      · rw [if_pos hin, hplaced name hin]
      · rw [if_neg hin, if_neg fun hgone => hin (hremoved name hgone)]

end sound

end Rustorr.Maintenance
