import Rustorr.Lib.Mealy
import Mathlib.Data.List.Basic
import Mathlib.Data.Nat.Basic
import Mathlib.Tactic.Common

/-! Opening the database (`schema.rs`, `state.rs`): what one build does statement by
statement, with other builds at the same file between any two of them. -/

namespace Rustorr

/-- "RSTR". -/
def APPLICATION_ID : ℤ := 0x52535452

inductive OpenError where
  | io
  | database (context : String)
  | notRustorrDatabase
  | schemaTooNew (found supported : ℕ)
  deriving DecidableEq

/-- The migrations that the lists of all builds are prefixes of, on files with contents `γ`.
The first one makes the file Rustorr's and no later one takes that back. -/
structure Migrations (γ : Type) where
  empty : γ
  applicationId : γ → ℤ
  tables : γ → ℕ
  list : List (γ → γ)
  tables_empty : tables empty = 0
  applicationId_eq : ∀ v, 0 < v → v ≤ list.length →
    applicationId ((list.take v).foldl (fun c m => m c) empty) = APPLICATION_ID

structure DatabaseFile (γ : Type) where
  contents : γ
  userVersion : ℕ
  deriving DecidableEq

/-- The statement an `open` comes to next. -/
inductive OpenPhase (γ : Type) where
  | creatingDir
  | connecting
  | settingTimeout
  | reading
  | counting
  | identifying (found : ℕ)
  | beginning (target : ℕ)
  | rereading (target : ℕ)
  | applying (target : ℕ)
  | recording (target : ℕ) (work : DatabaseFile γ)
  | committing (target : ℕ) (work : DatabaseFile γ)
  | finishing
  | ended
  deriving DecidableEq

/-- A call of `State::open_with` with the first `latest` migrations. -/
structure Opener (γ : Type) where
  latest : ℕ
  phase : OpenPhase γ
  deriving DecidableEq

/-- `lock` names the call whose immediate transaction is under way. -/
structure SharedFile (γ : Type) where
  file : DatabaseFile γ
  lock : Option ℕ
  openers : List (Opener γ)

inductive OpenEvent where
  | opens (latest : ℕ)
  | statement (i : ℕ) (fails : Bool)
  deriving DecidableEq

namespace Migrations

variable {γ : Type} (m : Migrations γ)

/-- An empty file after the first `v` migrations. -/
def applied (v : ℕ) : γ := (m.list.take v).foldl (fun c m => m c) m.empty

def result (v : ℕ) : DatabaseFile γ := ⟨m.applied v, v⟩

theorem applied_zero : m.applied 0 = m.empty := rfl

theorem applied_succ {v : ℕ} (h : v < m.list.length) :
    m.applied (v + 1) = m.list.getD v id (m.applied v) := by
  have hget : m.list[v]? = some m.list[v] := List.getElem?_eq_getElem h
  unfold applied
  rw [List.take_add_one, hget, Option.toList_some, List.foldl_append, List.getD_eq_getElem?_getD,
    hget]
  rfl

end Migrations

namespace SharedFile

variable {γ : Type} (m : Migrations γ)

/-- The call is at a new statement. -/
def goTo (d : SharedFile γ) (i : ℕ) (o : Opener γ) (phase : OpenPhase γ) : SharedFile γ :=
  { d with openers := d.openers.set i { o with phase := phase } }

def setLock (d : SharedFile γ) (lock : Option ℕ) : SharedFile γ := { d with lock := lock }

/-- The call returns; a transaction that is not committed is rolled back. -/
def ends (d : SharedFile γ) (i : ℕ) (o : Opener γ) (lock : Option ℕ)
    (answer : Except OpenError Unit) : Option (Except OpenError Unit) × SharedFile γ :=
  (some answer, (d.setLock lock).goTo i o .ended)

/-- The head of the loop of `migrate`. -/
def nextTarget (o : Opener γ) (target : ℕ) : OpenPhase γ :=
  if target ≤ o.latest then .beginning target else .finishing

/-- The end of `check`. -/
def checked (d : SharedFile γ) (i : ℕ) (o : Opener γ) (found : ℕ) :
    Option (Except OpenError Unit) × SharedFile γ :=
  if found > o.latest then d.ends i o d.lock (.error (.schemaTooNew found o.latest))
  else (none, d.goTo i o (nextTarget o (found + 1)))

/-- One statement of a call, and what the call answers if it is the last. -/
def statement (d : SharedFile γ) (i : ℕ) (o : Opener γ) (fails : Bool) :
    Option (Except OpenError Unit) × SharedFile γ :=
  match o.phase with
  | .creatingDir =>
    if fails then d.ends i o d.lock (.error .io) else (none, d.goTo i o .connecting)
  | .connecting =>
    if fails then d.ends i o d.lock (.error (.database "open database"))
    else (none, d.goTo i o .settingTimeout)
  | .settingTimeout =>
    if fails then d.ends i o d.lock (.error (.database "set busy timeout"))
    else (none, d.goTo i o .reading)
  | .reading =>
    if fails then d.ends i o d.lock (.error (.database "read schema version"))
    else if d.file.userVersion = 0 then (none, d.goTo i o .counting)
    else (none, d.goTo i o (.identifying d.file.userVersion))
  | .counting =>
    if fails then d.ends i o d.lock (.error (.database "inspect database"))
    else if m.tables d.file.contents > 0 then d.ends i o d.lock (.error .notRustorrDatabase)
    else d.checked i o 0
  | .identifying found =>
    if fails then d.ends i o d.lock (.error (.database "read application id"))
    else if m.applicationId d.file.contents ≠ APPLICATION_ID then
      d.ends i o d.lock (.error .notRustorrDatabase)
    else d.checked i o found
  | .beginning target =>
    if fails then d.ends i o d.lock (.error (.database "begin migration"))
    -- an immediate transaction waits for the one that is under way
    else if d.lock.isSome then (none, d)
    else (none, (d.setLock (some i)).goTo i o (.rereading target))
  | .rereading target =>
    if fails then d.ends i o none (.error (.database "read schema version"))
    else if d.file.userVersion ≥ target then
      (none, (d.setLock none).goTo i o (nextTarget o (target + 1)))
    else (none, d.goTo i o (.applying target))
  | .applying target =>
    if fails then d.ends i o none (.error (.database "apply migration"))
    else
      let work := { d.file with contents := m.list.getD (target - 1) id d.file.contents }
      (none, d.goTo i o (.recording target work))
  | .recording target work =>
    if fails then d.ends i o none (.error (.database "record schema version"))
    else (none, d.goTo i o (.committing target { work with userVersion := target }))
  | .committing target work =>
    if fails then d.ends i o none (.error (.database "commit migration"))
    else
      (none, ({ d with file := work, lock := none } : SharedFile γ).goTo i o
        (nextTarget o (target + 1)))
  | .finishing =>
    if fails then d.ends i o d.lock (.error (.database "enable write-ahead logging"))
    else d.ends i o d.lock (.ok ())
  | .ended => (none, d)

/-- A call that begins, of a build whose list is a prefix of the common one, or a statement
of one that is under way. -/
def step (d : SharedFile γ) : OpenEvent → Option (Except OpenError Unit) × SharedFile γ
  | .opens latest =>
    if latest ≤ m.list.length then
      (none, { d with openers := d.openers ++ [⟨latest, .creatingDir⟩] })
    else (none, d)
  | .statement i fails => match d.openers[i]? with
    | none => (none, d)
    | some o => d.statement m i o fails

/-- A file that a Rustorr has left, or nothing yet. -/
def start (v : ℕ) : SharedFile γ := ⟨m.result v, none, []⟩

/-- A call that has read a version its list has. -/
def Checked (o : Opener γ) : Prop :=
  match o.phase with
  | .creatingDir | .connecting | .settingTimeout | .reading | .ended => False
  | .identifying found => found ≤ o.latest
  | _ => True

/-- A migration is committed while another call has read that there was none and is still to
count the tables, or while one is under way whose list does not have it. -/
def Slip (d : SharedFile γ) : OpenEvent → Prop
  | .opens _ => False
  | .statement i fails => fails = false ∧ ∃ o target work, d.openers[i]? = some o ∧
    o.phase = .committing target work ∧ ∃ (j : ℕ) (other : Opener γ), j ≠ i ∧
      d.openers[j]? = some other ∧
      (other.phase = .counting ∨ Checked other ∧ other.latest < target)

/-- What is asked of every step: the file is the result of the first migrations, the call
that returns without an error has migrated it to the end of its list, and none refuses it as
foreign. -/
def MigratesOnce (d : SharedFile γ) (e : OpenEvent) : Prop :=
  (∃ v ≤ m.list.length, (step m d e).2.file = m.result v) ∧
  (∀ i fails o, e = .statement i fails → d.openers[i]? = some o →
    (step m d e).1 = some (.ok ()) → (step m d e).2.file.userVersion = o.latest) ∧
  (step m d e).1 ≠ some (.error .notRustorrDatabase)

/-! ### The file -/

/-- What is known of a call at each of its statements, whatever the others do. -/
def Sound (d : SharedFile γ) (i : ℕ) (o : Opener γ) : Prop :=
  match o.phase with
  | .creatingDir | .connecting | .settingTimeout | .reading | .counting | .ended => True
  | .identifying found => 0 < found ∧ found ≤ d.file.userVersion
  | .beginning target => 0 < target ∧ target ≤ o.latest ∧ target ≤ d.file.userVersion + 1
  | .rereading target =>
    d.lock = some i ∧ 0 < target ∧ target ≤ o.latest ∧ target ≤ d.file.userVersion + 1
  | .applying target => d.lock = some i ∧ target ≤ o.latest ∧ target = d.file.userVersion + 1
  | .recording target work => d.lock = some i ∧ target ≤ o.latest ∧
    target = d.file.userVersion + 1 ∧ work.contents = m.applied target
  | .committing target work => d.lock = some i ∧ target ≤ o.latest ∧
    target = d.file.userVersion + 1 ∧ work = m.result target
  | .finishing => o.latest ≤ d.file.userVersion

structure Exact (d : SharedFile γ) : Prop where
  file : d.file = m.result d.file.userVersion
  bound : d.file.userVersion ≤ m.list.length
  latest : ∀ o ∈ d.openers, o.latest ≤ m.list.length
  sound : ∀ (i : ℕ) (o : Opener γ), d.openers[i]? = some o → d.Sound m i o

variable {m} {d : SharedFile γ} {i : ℕ} {o : Opener γ}

/-- A call keeps what is known of it when the version grows, unless it has the lock. -/
theorem Sound.other {d' : SharedFile γ} {j : ℕ} {other : Opener γ} (h : d.Sound m j other)
    (hgrow : d.file.userVersion ≤ d'.file.userVersion)
    (hlock : d.lock = some j → d'.lock = some j ∧ d'.file = d.file) : d'.Sound m j other := by
  unfold Sound at h ⊢
  split <;> rename_i hphase <;> rw [hphase] at h
  · trivial
  · trivial
  · trivial
  · trivial
  · trivial
  · trivial
  · exact ⟨h.1, Nat.le_trans h.2 hgrow⟩
  · exact ⟨h.1, h.2.1, Nat.le_trans h.2.2 (Nat.succ_le_succ hgrow)⟩
  · obtain ⟨hl, hf⟩ := hlock h.1
    rw [hf]
    exact ⟨hl, h.2⟩
  · obtain ⟨hl, hf⟩ := hlock h.1
    rw [hf]
    exact ⟨hl, h.2⟩
  · obtain ⟨hl, hf⟩ := hlock h.1
    rw [hf]
    exact ⟨hl, h.2⟩
  · obtain ⟨hl, hf⟩ := hlock h.1
    rw [hf]
    exact ⟨hl, h.2⟩
  · exact Nat.le_trans h hgrow

/-- One call moves on; the others find the file grown, or as it was while they hold the
lock. -/
theorem Exact.goTo (h : d.Exact m) (hi : d.openers[i]? = some o) {d' : SharedFile γ}
    {phase : OpenPhase γ} (hopeners : d'.openers = d.openers.set i { o with phase := phase })
    (hfile : d'.file = m.result d'.file.userVersion) (hbound : d'.file.userVersion ≤ m.list.length)
    (hgrow : d.file.userVersion ≤ d'.file.userVersion)
    (hlock : ∀ j ≠ i, d.lock = some j → d'.lock = some j ∧ d'.file = d.file)
    (hself : d'.Sound m i { o with phase := phase }) : d'.Exact m := by
  have hlt : i < d.openers.length := (List.getElem?_eq_some_iff.mp hi).1
  refine ⟨hfile, hbound, fun x hx => ?_, fun j x hj => ?_⟩
  · rw [hopeners] at hx
    rcases List.mem_or_eq_of_mem_set hx with hx | rfl
    · exact h.latest x hx
    · exact h.latest o (List.mem_of_getElem? hi)
  · rw [hopeners] at hj
    by_cases hji : j = i
    · subst hji
      rw [List.getElem?_set_self hlt, Option.some.injEq] at hj
      rw [← hj]
      exact hself
    · rw [List.getElem?_set_ne (Ne.symm hji)] at hj
      exact (h.sound j x hj).other hgrow (hlock j hji)

/-- A statement that leaves the file and the lock to the others. -/
theorem Exact.moves (h : d.Exact m) (hi : d.openers[i]? = some o) {phase : OpenPhase γ}
    (hself : d.Sound m i { o with phase := phase }) : (d.goTo i o phase).Exact m :=
  h.goTo hi rfl h.file h.bound le_rfl (fun _ _ hl => ⟨hl, rfl⟩) hself

/-- A statement after which the call does not hold the lock. -/
theorem Exact.unlocks (h : d.Exact m) (hi : d.openers[i]? = some o) (hheld : d.lock = some i)
    {phase : OpenPhase γ} (hself : (d.setLock none).Sound m i { o with phase := phase }) :
    ((d.setLock none).goTo i o phase).Exact m := by
  refine h.goTo hi rfl h.file h.bound le_rfl (fun j hj hl => ?_) hself
  rw [hheld] at hl
  exact absurd (Option.some.inj hl).symm hj

theorem Exact.ends (h : d.Exact m) (hi : d.openers[i]? = some o)
    (answer : Except OpenError Unit) : (d.ends i o d.lock answer).2.Exact m :=
  h.goTo hi rfl h.file h.bound le_rfl (fun _ _ hl => ⟨hl, rfl⟩) trivial

theorem Exact.endsUnlocked (h : d.Exact m) (hi : d.openers[i]? = some o) (hheld : d.lock = some i)
    (answer : Except OpenError Unit) : (d.ends i o none answer).2.Exact m :=
  h.unlocks hi hheld trivial

theorem sound_nextTarget {target : ℕ} (h : target ≤ d.file.userVersion) :
    d.Sound m i { o with phase := nextTarget o (target + 1) } := by
  unfold nextTarget
  split
  · next hle => exact ⟨Nat.succ_pos _, hle, Nat.succ_le_succ h⟩
  · next hlt => exact Nat.le_trans (Nat.le_of_lt_succ (not_le.mp hlt)) h

theorem Exact.checked (h : d.Exact m) (hi : d.openers[i]? = some o) {found : ℕ}
    (hfound : found ≤ d.file.userVersion) : (d.checked i o found).2.Exact m := by
  unfold SharedFile.checked
  split
  · exact h.ends hi _
  · exact h.moves hi (sound_nextTarget hfound)

theorem Exact.statement (h : d.Exact m) (hi : d.openers[i]? = some o) (fails : Bool) :
    (d.statement m i o fails).2.Exact m := by
  have hsound := h.sound i o hi
  unfold Sound at hsound
  unfold SharedFile.statement
  split <;> rename_i hphase <;> rw [hphase] at hsound
  · split
    · exact h.ends hi _
    · exact h.moves hi trivial
  · split
    · exact h.ends hi _
    · exact h.moves hi trivial
  · split
    · exact h.ends hi _
    · exact h.moves hi trivial
  · split
    · exact h.ends hi _
    · split
      · exact h.moves hi trivial
      · next hne => exact h.moves hi ⟨Nat.pos_of_ne_zero hne, le_rfl⟩
  · split
    · exact h.ends hi _
    · split
      · exact h.ends hi _
      · exact h.checked hi (Nat.zero_le _)
  · split
    · exact h.ends hi _
    · split
      · exact h.ends hi _
      · exact h.checked hi hsound.2
  · split
    · exact h.ends hi _
    · split
      · exact h
      · next hfree =>
        -- nobody else has the lock that the call takes
        refine h.goTo hi rfl h.file h.bound le_rfl (fun j _ hl => ?_) ⟨rfl, hsound⟩
        rw [hl] at hfree
        exact absurd rfl hfree
  · obtain ⟨hheld, hpos, hle, hnear⟩ := hsound
    split
    · exact h.endsUnlocked hi hheld _
    · split
      · next hge => exact h.unlocks hi hheld (sound_nextTarget hge)
      · next hlt =>
        refine h.moves hi ⟨hheld, hle, ?_⟩
        have hless := not_le.mp hlt
        exact le_antisymm hnear hless
  · obtain ⟨hheld, hle, htarget⟩ := hsound
    split
    · exact h.endsUnlocked hi hheld _
    · refine h.moves hi ⟨hheld, hle, htarget, ?_⟩
      have hlt : d.file.userVersion < m.list.length := by
        have hbound := h.latest o (List.mem_of_getElem? hi)
        omega
      have hcontents : d.file.contents = m.applied d.file.userVersion :=
        congrArg DatabaseFile.contents h.file
      show m.list.getD _ id d.file.contents = _
      rw [htarget, Nat.add_sub_cancel, hcontents]
      exact (m.applied_succ hlt).symm
  · obtain ⟨hheld, hle, htarget, hwork⟩ := hsound
    split
    · exact h.endsUnlocked hi hheld _
    · refine h.moves hi ⟨hheld, hle, htarget, ?_⟩
      show DatabaseFile.mk _ _ = DatabaseFile.mk _ _
      rw [hwork]
  · obtain ⟨hheld, hle, htarget, hwork⟩ := hsound
    split
    · exact h.endsUnlocked hi hheld _
    · have hbound := h.latest o (List.mem_of_getElem? hi)
      refine h.goTo hi rfl ?_ ?_ ?_ (fun j hj hl => ?_) ?_
      · rw [hwork]
        rfl
      · rw [hwork]
        exact Nat.le_trans hle hbound
      · rw [hwork]
        show d.file.userVersion ≤ _
        rw [htarget]
        exact Nat.le_succ _
      · rw [hheld] at hl
        exact absurd (Option.some.inj hl).symm hj
      · rw [hwork]
        exact sound_nextTarget (d := ⟨m.result _, none, d.openers⟩) le_rfl
  · split
    · exact h.ends hi _
    · exact h.ends hi _
  · exact h

theorem Exact.opens (h : d.Exact m) (latest : ℕ) : (step m d (.opens latest)).2.Exact m := by
  dsimp only [SharedFile.step]
  split
  · next hle =>
    refine ⟨h.file, h.bound, fun o ho => ?_, fun i o ho => ?_⟩
    · rcases List.mem_append.mp ho with ho | ho
      · exact h.latest o ho
      · rw [List.mem_singleton.mp ho]
        exact hle
    · rw [List.getElem?_append] at ho
      split at ho
      · exact h.sound i o ho
      · obtain rfl := List.mem_singleton.mp (List.mem_of_getElem? ho)
        exact trivial
  · exact h

/-- Whatever the calls do to each other, the file is the result of the first migrations. -/
theorem Exact.step (h : d.Exact m) (e : OpenEvent) : (step m d e).2.Exact m := by
  cases e with
  | opens latest => exact h.opens latest
  | statement i fails =>
    dsimp only [SharedFile.step]
    split
    · exact h
    · next o ho => exact h.statement ho fails

theorem exact_start {v : ℕ} (hv : v ≤ m.list.length) : (start m v).Exact m :=
  ⟨rfl, hv, fun o ho => absurd ho List.not_mem_nil, fun i o ho => by cases ho⟩

/-! ### Calls that nobody overtakes -/

/-- What a call has read of the version is still so, as far as its list goes. -/
def Timely (d : SharedFile γ) (o : Opener γ) : Prop :=
  (o.phase = .counting → d.file.userVersion = 0) ∧ (Checked o → d.file.userVersion ≤ o.latest)

theorem timely_ended (d : SharedFile γ) (o : Opener γ) :
    d.Timely { o with phase := .ended } := ⟨(fun h => nomatch h), fun h => h.elim⟩

/-- A step that leaves the version leaves the other calls timely. -/
theorem timely_goTo (hall : ∀ o ∈ d.openers, d.Timely o) {d' : SharedFile γ} {phase : OpenPhase γ}
    (hopeners : d'.openers = d.openers.set i { o with phase := phase })
    (hsame : d'.file.userVersion = d.file.userVersion)
    (hself : d'.Timely { o with phase := phase }) : ∀ x ∈ d'.openers, d'.Timely x := by
  intro x hx
  rw [hopeners] at hx
  rcases List.mem_or_eq_of_mem_set hx with hx | rfl
  · unfold Timely
    rw [hsame]
    exact hall x hx
  · exact hself

theorem timely_nextTarget {target : ℕ} (h : d.file.userVersion ≤ o.latest) :
    d.Timely { o with phase := nextTarget o target } := by
  refine ⟨fun hphase => ?_, fun _ => h⟩
  exfalso
  unfold nextTarget at hphase
  dsimp only at hphase
  split at hphase <;> cases hphase

theorem timely_checked (hall : ∀ o ∈ d.openers, d.Timely o) {found : ℕ}
    (h : found ≤ o.latest → d.file.userVersion ≤ o.latest) :
    ∀ x ∈ (d.checked i o found).2.openers, (d.checked i o found).2.Timely x := by
  unfold SharedFile.checked
  split
  · exact timely_goTo hall rfl rfl (timely_ended _ o)
  · next hle => exact timely_goTo hall rfl rfl (timely_nextTarget (h (not_lt.mp hle)))

/-- A call that goes on after its check, to a statement that is no commit. -/
theorem timely_on (hall : ∀ o ∈ d.openers, d.Timely o) {d' : SharedFile γ} {phase : OpenPhase γ}
    (hopeners : d'.openers = d.openers.set i { o with phase := phase })
    (hsame : d'.file.userVersion = d.file.userVersion) (hcount : phase ≠ .counting)
    (hbound : d.file.userVersion ≤ o.latest) : ∀ x ∈ d'.openers, d'.Timely x :=
  timely_goTo hall hopeners hsame ⟨fun h => absurd h hcount, fun _ => hsame.symm ▸ hbound⟩

/-- Without a slip, what the calls have read stays so. -/
theorem timely_statement (h : d.Exact m) (hall : ∀ o ∈ d.openers, d.Timely o)
    (hi : d.openers[i]? = some o) {fails : Bool} (hslip : ¬Slip d (.statement i fails)) :
    ∀ x ∈ (d.statement m i o fails).2.openers, (d.statement m i o fails).2.Timely x := by
  have hsound := h.sound i o hi
  have htimely := hall o (List.mem_of_getElem? hi)
  unfold Sound at hsound
  unfold Timely Checked at htimely
  unfold SharedFile.statement
  split <;> rename_i hphase <;> rw [hphase] at hsound htimely
  · split
    · exact timely_goTo hall rfl rfl (timely_ended _ o)
    · exact timely_goTo hall rfl rfl ⟨(fun hc => nomatch hc), fun hc => hc.elim⟩
  · split
    · exact timely_goTo hall rfl rfl (timely_ended _ o)
    · exact timely_goTo hall rfl rfl ⟨(fun hc => nomatch hc), fun hc => hc.elim⟩
  · split
    · exact timely_goTo hall rfl rfl (timely_ended _ o)
    · exact timely_goTo hall rfl rfl ⟨(fun hc => nomatch hc), fun hc => hc.elim⟩
  · split
    · exact timely_goTo hall rfl rfl (timely_ended _ o)
    · split
      · next hzero =>
        refine timely_goTo hall rfl rfl ⟨fun _ => hzero, fun _ => ?_⟩
        show d.file.userVersion ≤ _
        rw [hzero]
        exact Nat.zero_le _
      · exact timely_goTo hall rfl rfl ⟨(fun hc => nomatch hc), fun hc => hc⟩
  · split
    · exact timely_goTo hall rfl rfl (timely_ended _ o)
    · split
      · exact timely_goTo hall rfl rfl (timely_ended _ o)
      · exact timely_checked hall fun _ => htimely.2 trivial
  · split
    · exact timely_goTo hall rfl rfl (timely_ended _ o)
    · split
      · exact timely_goTo hall rfl rfl (timely_ended _ o)
      · exact timely_checked hall htimely.2
  · split
    · exact timely_goTo hall rfl rfl (timely_ended _ o)
    · split
      · exact hall
      · exact timely_on hall rfl rfl nofun (htimely.2 trivial)
  · split
    · exact timely_goTo hall rfl rfl (timely_ended _ o)
    · split
      · exact timely_goTo hall rfl rfl
          (timely_nextTarget (d := d.setLock none) (htimely.2 trivial))
      · exact timely_on hall rfl rfl nofun (htimely.2 trivial)
  · split
    · exact timely_goTo hall rfl rfl (timely_ended _ o)
    · exact timely_on hall rfl rfl nofun (htimely.2 trivial)
  · split
    · exact timely_goTo hall rfl rfl (timely_ended _ o)
    · exact timely_on hall rfl rfl nofun (htimely.2 trivial)
  · rename_i target work
    obtain ⟨hheld, hle, htarget, hwork⟩ := hsound
    split
    · exact timely_goTo hall rfl rfl (timely_ended _ o)
    · next hok =>
      -- the version grows: the others have not read it, or their lists have the migration
      intro x hx
      obtain ⟨j, hj⟩ := List.mem_iff_getElem?.mp hx
      have hversion : work.userVersion = target := by rw [hwork]; rfl
      by_cases hji : j = i
      · subst hji
        have hlt : j < d.openers.length := (List.getElem?_eq_some_iff.mp hi).1
        have hset : (d.openers.set j { o with phase := nextTarget o (target + 1) })[j]? = some x := hj
        rw [List.getElem?_set_self hlt, Option.some.injEq] at hset
        rw [← hset]
        refine timely_nextTarget ?_
        show work.userVersion ≤ _
        rw [hversion]
        exact hle
      · have hset : (d.openers.set i { o with phase := nextTarget o (target + 1) })[j]? = some x := hj
        rw [List.getElem?_set_ne (Ne.symm hji)] at hset
        have hquiet : ¬(x.phase = .counting ∨ Checked x ∧ x.latest < target) := fun hother =>
          hslip ⟨Bool.not_eq_true _ ▸ hok, o, target, work, hi, hphase, j, x, hji, hset, hother⟩
        rw [not_or] at hquiet
        refine ⟨fun hc => absurd hc hquiet.1, fun hc => ?_⟩
        show work.userVersion ≤ _
        rw [hversion]
        by_contra hless
        exact hquiet.2 ⟨hc, not_le.mp hless⟩
  · split
    · exact timely_goTo hall rfl rfl (timely_ended _ o)
    · exact timely_goTo hall rfl rfl (timely_ended _ o)
  · exact hall

theorem timely_step (h : d.Exact m) (hall : ∀ o ∈ d.openers, d.Timely o) {e : OpenEvent}
    (hslip : ¬Slip d e) : ∀ x ∈ (step m d e).2.openers, (step m d e).2.Timely x := by
  cases e with
  | opens latest =>
    dsimp only [SharedFile.step]
    split
    · intro x hx
      rcases List.mem_append.mp hx with hx | hx
      · exact hall x hx
      · rw [List.mem_singleton.mp hx]
        exact ⟨(fun hc => nomatch hc), fun hc => hc.elim⟩
    · exact hall
  | statement i fails =>
    dsimp only [SharedFile.step]
    split
    · exact hall
    · next o ho => exact timely_statement h hall ho hslip

/-- A call that returns without an error is at the end of its list. -/
theorem of_answer_ok {fails : Bool} (hok : (d.statement m i o fails).1 = some (.ok ())) :
    o.phase = .finishing ∧ (d.statement m i o fails).2.file = d.file := by
  cases hphase : o.phase
  case finishing =>
    refine ⟨rfl, ?_⟩
    simp only [SharedFile.statement, hphase]
    split <;> rfl
  all_goals
    exfalso
    simp only [SharedFile.statement, hphase, SharedFile.checked, SharedFile.ends] at hok
    repeat' split at hok
    all_goals cases hok

/-- What a file that is refused as foreign lacks. -/
theorem of_refused {fails : Bool}
    (hrefused : (d.statement m i o fails).1 = some (.error .notRustorrDatabase)) :
    (o.phase = .counting ∧ 0 < m.tables d.file.contents) ∨
      ∃ found, o.phase = .identifying found ∧
        m.applicationId d.file.contents ≠ APPLICATION_ID := by
  cases hphase : o.phase
  case counting =>
    refine Or.inl ⟨rfl, Nat.pos_of_ne_zero fun hzero => ?_⟩
    simp only [SharedFile.statement, hphase, SharedFile.checked, SharedFile.ends, hzero] at hrefused
    repeat' split at hrefused
    all_goals first
      | exact absurd ‹0 > 0› (lt_irrefl 0)
      | cases hrefused
  case identifying found =>
    refine Or.inr ⟨found, rfl, fun hours => ?_⟩
    simp only [SharedFile.statement, hphase, SharedFile.checked, SharedFile.ends, hours, ne_eq,
      not_true_eq_false, if_false] at hrefused
    repeat' split at hrefused
    all_goals cases hrefused
  all_goals
    exfalso
    simp only [SharedFile.statement, hphase, SharedFile.ends] at hrefused
    repeat' split at hrefused
    all_goals cases hrefused

theorem Exact.migratesOnce (h : d.Exact m) (hall : ∀ o ∈ d.openers, d.Timely o) (e : OpenEvent) :
    d.MigratesOnce m e := by
  have hafter := h.step e
  refine ⟨⟨_, hafter.bound, hafter.file⟩, fun i fails o he ho hok => ?_, fun hrefused => ?_⟩
  · subst he
    simp only [SharedFile.step, ho] at hok ⊢
    obtain ⟨hphase, hfile⟩ := of_answer_ok hok
    have hsound := h.sound i o ho
    unfold Sound at hsound
    rw [hphase] at hsound
    have htimely := (hall o (List.mem_of_getElem? ho)).2
    unfold Checked at htimely
    rw [hphase] at htimely
    rw [hfile]
    exact le_antisymm (htimely trivial) hsound
  · cases e with
    | opens latest =>
      dsimp only [SharedFile.step] at hrefused
      split at hrefused <;> cases hrefused
    | statement i fails =>
      dsimp only [SharedFile.step] at hrefused
      split at hrefused
      · cases hrefused
      · next o ho =>
        rcases of_refused hrefused with ⟨hphase, htables⟩ | ⟨found, hphase, hforeign⟩
        · -- the version is still the one that was read, so the file is still empty
          have hzero := (hall o (List.mem_of_getElem? ho)).1 hphase
          rw [h.file, hzero] at htables
          exact absurd m.tables_empty (Nat.pos_iff_ne_zero.mp htables)
        · have hsound := h.sound i o ho
          unfold Sound at hsound
          rw [hphase] at hsound
          refine hforeign ?_
          rw [h.file]
          exact m.applicationId_eq _ (Nat.lt_of_lt_of_le hsound.1 hsound.2) h.bound

/-- In every run of opens of one file, by builds whose lists are prefixes of the common one,
the file is the result of the first migrations. -/
theorem opens_keep_exact {v : ℕ} (hv : v ≤ m.list.length) (events : List OpenEvent) :
    (Mealy.after (step m) (start m v) events).Exact m :=
  Mealy.after_invariant (step m) (fun _ e h => h.step e) (exact_start hv) events

/-- In every run in which no open is overtaken, opens migrate the file once and refuse none. -/
theorem opens_migrate_once {v : ℕ} (hv : v ≤ m.list.length) (events : List OpenEvent)
    (hslip : ∀ k e, events[k]? = some e →
      ¬Slip (Mealy.after (step m) (start m v) (events.take k)) e) :
    ∀ k e, events[k]? = some e →
      MigratesOnce m (Mealy.after (step m) (start m v) (events.take k)) e := by
  intro k e _
  have hinv : ∀ j, (Mealy.after (step m) (start m v) (events.take j)).Exact m ∧
      ∀ o ∈ (Mealy.after (step m) (start m v) (events.take j)).openers,
        (Mealy.after (step m) (start m v) (events.take j)).Timely o :=
    Mealy.forall_after_of_not_bad (step m)
      (P := fun d => d.Exact m ∧ ∀ o ∈ d.openers, d.Timely o) (B := Slip)
      (fun d e hd hgood => ⟨hd.1.step e, timely_step hd.1 hd.2 hgood⟩)
      ⟨exact_start hv, fun o ho => absurd ho List.not_mem_nil⟩ hslip
  exact (hinv k).1.migratesOnce (hinv k).2 e

/-! ### The builds so far -/

/-- What the migrations change that an open looks at. -/
structure Schema where
  applicationId : ℤ
  tables : List String
  deriving DecidableEq

def V1 (c : Schema) : Schema :=
  { applicationId := 1381192786, tables := c.tables ++ ["torrents", "settings", "viewed"] }

def V2 (c : Schema) : Schema := { c with tables := c.tables ++ ["waf"] }

def V3 (c : Schema) : Schema := { c with tables := c.tables ++ ["module_settings"] }

def MIGRATIONS : Migrations Schema where
  empty := ⟨0, []⟩
  applicationId := Schema.applicationId
  tables c := c.tables.length
  list := [V1, V2, V3]
  tables_empty := rfl
  applicationId_eq v hpos hle := match v with
    | 0 => absurd hpos (lt_irrefl 0)
    | 1 | 2 | 3 => rfl
    | v + 4 => absurd hle (by simp)

/-- The target of the commit a call comes to next. -/
def commits (o : Opener γ) : Option ℕ := match o.phase with
  | .committing target _ => some target
  | _ => none

theorem commits_eq_some {target : ℕ} :
    commits o = some target ↔ ∃ work, o.phase = .committing target work := by
  unfold commits
  split
  · next t work hphase => simp [hphase]
  · next hphase =>
    refine ⟨(fun h => nomatch h), fun ⟨work, h⟩ => ?_⟩
    exact absurd h (hphase target work)

theorem slip_iff {fails : Bool} : Slip d (.statement i fails) ↔
    fails = false ∧ ∃ target ∈ d.openers[i]?.bind commits, ∃ j : Fin d.openers.length, j.val ≠ i ∧
      (d.openers[j].phase = .counting ∨ Checked d.openers[j] ∧ d.openers[j].latest < target) := by
  refine and_congr_right fun _ => ⟨?_, ?_⟩
  · rintro ⟨o, target, work, hi, hphase, j, other, hji, hj, hother⟩
    obtain ⟨hlt, rfl⟩ := List.getElem?_eq_some_iff.mp hj
    refine ⟨target, ?_, ⟨j, hlt⟩, hji, hother⟩
    rw [hi]
    exact commits_eq_some.mpr ⟨work, hphase⟩
  · rintro ⟨target, htarget, j, hji, hother⟩
    obtain ⟨o, hi, hcommits⟩ := Option.bind_eq_some_iff.mp htarget
    obtain ⟨work, hphase⟩ := commits_eq_some.mp hcommits
    exact ⟨o, target, work, hi, hphase, j, _, hji, List.getElem?_eq_getElem j.isLt, hother⟩

instance decidableChecked (o : Opener γ) : Decidable (Checked o) := match o with
  | ⟨_, .creatingDir⟩ | ⟨_, .connecting⟩ | ⟨_, .settingTimeout⟩ | ⟨_, .reading⟩ | ⟨_, .ended⟩ =>
    inferInstanceAs (Decidable False)
  | ⟨latest, .identifying found⟩ => inferInstanceAs (Decidable (found ≤ latest))
  | ⟨_, .counting⟩ | ⟨_, .beginning _⟩ | ⟨_, .rereading _⟩ | ⟨_, .applying _⟩
  | ⟨_, .recording _ _⟩ | ⟨_, .committing _ _⟩ | ⟨_, .finishing⟩ =>
    inferInstanceAs (Decidable True)

instance decidableSlip [DecidableEq γ] (d : SharedFile γ) (e : OpenEvent) : Decidable (Slip d e) :=
  match e with
  | .opens _ => inferInstanceAs (Decidable False)
  | .statement _ _ => decidable_of_iff _ slip_iff.symm

/-- The first `n` statements of a call, none of which fails. -/
def statements (i n : ℕ) : List OpenEvent := List.replicate n (.statement i false)

/-- The second call reads the version when the first has recorded it. -/
def inTurn : List OpenEvent :=
  [.opens 1, .opens 3] ++ statements 1 3 ++ statements 0 11 ++ statements 1 13

theorem opens_migrate_once_in_turn :
    (Mealy.run (step MIGRATIONS) (start MIGRATIONS 0) inTurn).1.getLast? = some (some (.ok ())) ∧
      ∀ k e, inTurn[k]? = some e → MigratesOnce MIGRATIONS
        (Mealy.after (step MIGRATIONS) (start MIGRATIONS 0) (inTurn.take k)) e := by
  have hquiet : ∀ k : Fin inTurn.length, ¬Slip
      (Mealy.after (step MIGRATIONS) (start MIGRATIONS 0) (inTurn.take k)) inTurn[k] := by
    decide +kernel
  refine ⟨by decide +kernel, opens_migrate_once (Nat.zero_le _) inTurn fun k e hk => ?_⟩
  obtain ⟨hlt, rfl⟩ := List.getElem?_eq_some_iff.mp hk
  exact hquiet ⟨k, hlt⟩

/-- The first call reads that there is no version before the second migrates. -/
def overtaken : List OpenEvent :=
  [.opens 3, .opens 3] ++ statements 0 4 ++ statements 1 10 ++ [.statement 0 false]

/-- The first call is of a build without the migration that the second then commits. -/
def outgrown : List OpenEvent :=
  [.opens 1, .opens 2] ++ statements 0 10 ++ statements 1 10 ++ [.statement 0 false]

theorem opens_not_migrate_once :
    (¬∀ k e, overtaken[k]? = some e → MigratesOnce MIGRATIONS
      (Mealy.after (step MIGRATIONS) (start MIGRATIONS 0) (overtaken.take k)) e) ∧
    ¬∀ k e, outgrown[k]? = some e → MigratesOnce MIGRATIONS
      (Mealy.after (step MIGRATIONS) (start MIGRATIONS 0) (outgrown.take k)) e := by
  refine ⟨fun hall => ?_, fun hall => ?_⟩
  · refine (hall 16 (.statement 0 false) (by decide +kernel)).2.2 ?_
    decide +kernel
  · have hversion := (hall 22 (.statement 0 false) (by decide +kernel)).2.1 0 false
      ⟨1, .finishing⟩ rfl (by decide +kernel) (by decide +kernel)
    revert hversion
    decide +kernel

end SharedFile

end Rustorr
