import Mathlib.Data.List.AList
import Mathlib.Data.List.MinMax
import Mathlib.Data.Prod.Lex
import Mathlib.Logic.Function.Basic
import Rustorr.Lib.Prog

/-! The table of transcoder tasks (`service.rs`) and its calls under way at once. They take turns
at their locks and awaits, and run to their ends. Freezing, the probe cache and what a task serves
are left out. -/

namespace Rustorr.Gst

open Function (update)

inductive ServiceError where
  | badSource
  | serviceClosed
  | other
  deriving DecidableEq

/-- A task that was created. Tasks are named by the order of their creation. -/
structure TaskCell where
  fileId : String
  audio : ℤ
  lastActive : ℕ
  disposed : Bool

abbrev TaskMap : Type := AList fun _ : String => ℕ

abbrev TaskEntry : Type := Sigma fun _ : String => ℕ

/-- The order in which a hash map is gone through. -/
structure IterationOrder where
  apply : List TaskEntry → List TaskEntry
  perm : ∀ l, (apply l).Perm l

/-- `creating` tells whether `task_calls` is locked, `spawned` are the disposals on blocking
threads. `swept` is set when `Dispose` has taken the table. -/
structure TaskTable where
  closed : Bool
  swept : Bool
  tasks : TaskMap
  cells : List TaskCell
  maxTasks : ℤ
  inactiveMinutes : ℤ
  creating : Bool
  spawned : List ℕ

namespace TaskTable

def new (maxTasks inactiveMinutes : ℤ) : TaskTable :=
  ⟨false, false, ∅, [], maxTasks, inactiveMinutes, false, []⟩

variable (s : TaskTable)

def isDisposed (t : ℕ) : Bool := (s.cells[t]?.map TaskCell.disposed).getD true

def lastActive (t : ℕ) : ℕ := (s.cells[t]?.map TaskCell.lastActive).getD 0

/-- `Task::dispose`. -/
def dispose (t : ℕ) : TaskTable :=
  { s with cells := s.cells.modify t fun cell => { cell with disposed := true } }

/-- `(!task.is_disposed(), task.last_active())`. -/
def evictionKey (t : ℕ) : Bool ×ₗ ℕ := toLex (!s.isDisposed t, s.lastActive t)

def oldest (order : IterationOrder) (protectedId : Option String) (tasks : TaskMap) :
    Option String :=
  (((order.apply tasks.entries).filter fun entry => some entry.1 ≠ protectedId).argmin
    fun entry => s.evictionKey entry.2).map Sigma.fst

/-- The loop of `evict_for_limit`. Each round takes an entry away. -/
def evictLoop (order : IterationOrder) (protectedId : Option String) (limit : ℕ) :
    ℕ → TaskMap → List ℕ → TaskMap × List ℕ
  | 0, tasks, evicted => (tasks, evicted)
  | rounds + 1, tasks, evicted =>
    if tasks.entries.length > limit then
      match s.oldest order protectedId tasks with
      | none => (tasks, evicted)
      | some id =>
        evictLoop order protectedId limit rounds (tasks.erase id)
          (evicted ++ (tasks.lookup id).toList)
    else (tasks, evicted)

/-- `evict_for_limit`, with the limit it has read. -/
def evictForLimit (order : IterationOrder) (protectedId : Option String) (limit : ℤ) :
    TaskMap × List ℕ :=
  if limit ≤ 0 then (s.tasks, [])
  else s.evictLoop order protectedId limit.toNat s.tasks.entries.length s.tasks []

end TaskTable

/-! ### Calls -/

/-- The statements of the methods that reach what they share. -/
inductive TableCall where
  | isClosed
  /-- `disposed.swap(true)`. -/
  | close
  | lookUp (id : String)
  | fits (t : ℕ) (fileId : String) (audio : ℤ)
  | touch (t : ℕ)
  | lockCreating
  | unlockCreating
  /-- The probe and the cue timeline. -/
  | prepare (hash fileId : String)
  | create (fileId : String) (audio : ℤ)
  | insert (id : String) (t : ℕ)
  | limit
  | evict (protectedId : Option String) (limit : ℤ)
  | setConfig (maxTasks inactiveMinutes : ℤ)
  | remove (id : String)
  /-- `mem::take`. -/
  | take
  | now
  | inactiveMinutes
  | snapshot
  | lastActive (t : ℕ)
  | removeInactive (id : String) (t cutoff : ℕ)
  | dispose (t : ℕ)
  | disposeBlocking (t : ℕ)

abbrev TableCall.Ans : TableCall → Type
  | isClosed | close | fits _ _ _ | removeInactive _ _ _ => Bool
  | lookUp _ | insert _ _ | remove _ => Option ℕ
  | touch _ | lockCreating | unlockCreating | setConfig _ _ | dispose _ | disposeBlocking _ => Unit
  | prepare _ _ => Except ServiceError Unit
  | create _ _ => Except ServiceError ℕ
  | limit | inactiveMinutes => ℤ
  | evict _ _ | take => List ℕ
  | now | lastActive _ => ℕ
  | snapshot => List TaskEntry

/-- What a statement takes from outside: the clock, whether there is a runtime to spawn on, how
the work before a task and its creation end, and the order of a hash map. -/
structure TableInput where
  now : ℕ
  onRuntime : Bool
  prepared : Except ServiceError Unit
  created : Except ServiceError Unit
  order : IterationOrder

namespace TaskTable

def answer (input : TableInput) (s : TaskTable) : (c : TableCall) → c.Ans × TaskTable
  | .isClosed => (s.closed, s)
  | .close => (s.closed, { s with closed := true })
  | .lookUp id => (s.tasks.lookup id, s)
  | .fits t fileId audio =>
    (match s.cells[t]? with
      | some cell => cell.fileId = fileId && cell.audio = audio && !cell.disposed
      | none => false, s)
  | .touch t =>
    ((), { s with cells := s.cells.modify t fun cell => { cell with lastActive := input.now } })
  | .lockCreating => ((), { s with creating := true })
  | .unlockCreating => ((), { s with creating := false })
  | .prepare _ _ => (input.prepared, s)
  | .create fileId audio => match input.created with
    | .error e => (.error e, s)
    | .ok () => (.ok s.cells.length,
        { s with cells := s.cells ++ [⟨fileId, audio, input.now, false⟩] })
  | .insert id t => (s.tasks.lookup id, { s with tasks := s.tasks.insert id t })
  | .limit => (s.maxTasks, s)
  | .evict protectedId limit =>
    let (tasks, evicted) := s.evictForLimit input.order protectedId limit
    (evicted, { s with tasks := tasks })
  | .setConfig maxTasks inactiveMinutes =>
    ((), { s with
      maxTasks := max maxTasks 0
      inactiveMinutes := if inactiveMinutes ≤ 0 then 5 else inactiveMinutes })
  | .remove id => (s.tasks.lookup id, { s with tasks := s.tasks.erase id })
  | .take => ((input.order.apply s.tasks.entries).map Sigma.snd,
      { s with tasks := ∅, swept := true })
  | .now => (input.now, s)
  | .inactiveMinutes => (s.inactiveMinutes, s)
  | .snapshot => (input.order.apply s.tasks.entries, s)
  | .lastActive t => (s.lastActive t, s)
  | .removeInactive id t cutoff =>
    if s.tasks.lookup id = some t ∧ s.lastActive t < cutoff then
      (true, { s with tasks := s.tasks.erase id })
    else (false, s)
  | .dispose t => ((), s.dispose t)
  | .disposeBlocking t =>
    ((), if input.onRuntime then { s with spawned := s.spawned ++ [t] } else s.dispose t)

end TaskTable

/-! ### Methods -/

abbrev TableM : Type → Type := Prog TableCall TableCall.Ans ServiceError

namespace TableM

def ask (c : TableCall) : TableM c.Ans := Prog.perform c

/-- `matching_task`. -/
def matchingTask (hash fileId : String) (audio : ℤ) : TableM (Option ℕ) := do
  let found : Option ℕ ← ask (.lookUp hash)
  match found with
  | none => pure none
  | some t =>
    let fits : Bool ← ask (.fits t fileId audio)
    if fits then
      let () ← ask (.touch t)
      pure (some t)
    else pure none

/-- Every task of the list is disposed of, on a blocking thread if there is a runtime. -/
def disposeAll (tasks : List ℕ) : TableM PUnit := tasks.forM fun t => do
  let () ← ask (.disposeBlocking t)
  pure ⟨⟩

def evictForLimit (protectedId : Option String) : TableM PUnit := do
  let limit : ℤ ← ask .limit
  let evicted : List ℕ ← ask (.evict protectedId limit)
  disposeAll evicted

/-- `get_or_add` once there is a new task. -/
def addTask (hash : String) (t : ℕ) : TableM ℕ := do
  let closed : Bool ← ask .isClosed
  if closed then
    disposeAll [t]
    Prog.fail .serviceClosed
  else
    let replaced : Option ℕ ← ask (.insert hash t)
    disposeAll replaced.toList
    evictForLimit (some hash)
    pure t

/-- `get_or_add` while `task_calls` is locked. -/
def createTask (hash fileId : String) (audio : ℤ) : TableM ℕ := do
  match ← matchingTask hash fileId audio with
  | some t => pure t
  | none =>
    let prepared : Except ServiceError Unit ← ask (.prepare hash fileId)
    match prepared with
    | .error e => Prog.fail e
    | .ok () =>
      let created : Except ServiceError ℕ ← ask (.create fileId audio)
      match created with
      | .error e => Prog.fail e
      | .ok t => addTask hash t

def getOrAdd (hash fileId : String) (audio : ℤ) : TableM ℕ :=
  if hash = "" ∨ fileId = "" then Prog.fail .badSource
  else do
    let closed : Bool ← ask .isClosed
    if closed then Prog.fail .serviceClosed
    else match ← matchingTask hash fileId audio with
      | some t => pure t
      | none =>
        let () ← ask .lockCreating
        let result ← (createTask hash fileId audio).attempt
        let () ← ask .unlockCreating
        Prog.ofExcept result

def tryRemove (id : String) : TableM Bool :=
  if id = "" then pure false
  else do
    let removed : Option ℕ ← ask (.remove id)
    match removed with
    | none => pure false
    | some t =>
      disposeAll [t]
      pure true

def updateConfig (maxTasks inactiveMinutes : ℤ) : TableM PUnit := do
  let closed : Bool ← ask .isClosed
  if closed then pure ⟨⟩
  else
    let () ← ask (.setConfig maxTasks inactiveMinutes)
    evictForLimit none

/-- One task of the snapshot. -/
def cleanupTask (removeCutoff : Option ℕ) (entry : TaskEntry) : TableM PUnit := do
  let lastActive : ℕ ← ask (.lastActive entry.2)
  match removeCutoff with
  | none => pure ⟨⟩
  | some cutoff =>
    if lastActive < cutoff then
      let removed : Bool ← ask (.removeInactive entry.1 entry.2 cutoff)
      if removed then
        let () ← ask (.dispose entry.2)
        pure ⟨⟩
      else pure ⟨⟩
    else pure ⟨⟩

/-- `cleanup_inactive`, with times in seconds. -/
def cleanupInactive : TableM PUnit := do
  let closed : Bool ← ask .isClosed
  if closed then pure ⟨⟩
  else
    let now : ℕ ← ask .now
    let inactiveMinutes : ℤ ← ask .inactiveMinutes
    let inactive := (max inactiveMinutes 1).toNat * 60
    let removeCutoff := if inactive + 20 * 60 ≤ now then some (now - (inactive + 20 * 60)) else none
    let snapshot : List TaskEntry ← ask .snapshot
    snapshot.forM (cleanupTask removeCutoff)

/-- `Service::dispose`. -/
def dispose : TableM PUnit := do
  let closed : Bool ← ask .close
  if closed then pure ⟨⟩
  else
    let tasks : List ℕ ← ask .take
    disposeAll tasks

end TableM

inductive TableRequest where
  | getOrAdd (hash fileId : String) (audio : ℤ)
  | tryRemove (id : String)
  | updateConfig (maxTasks inactiveMinutes : ℤ)
  | cleanupInactive
  | dispose

def TableRequest.body : TableRequest → TableM PUnit
  | .getOrAdd hash fileId audio => do
    let _ ← TableM.getOrAdd hash fileId audio
    pure ⟨⟩
  | .tryRemove id => do
    let _ ← TableM.tryRemove id
    pure ⟨⟩
  | .updateConfig maxTasks inactiveMinutes => TableM.updateConfig maxTasks inactiveMinutes
  | .cleanupInactive => TableM.cleanupInactive
  | .dispose => TableM.dispose

/-! ### The pool -/

/-- What a method has yet to do: the tasks it has to dispose of or put into the table, and
whether it is to take the table. -/
structure TableDebt where
  tasks : List ℕ
  sweep : Bool

def TableDebt.nothing : TableDebt := ⟨[], false⟩

/-- What is to be done after a statement, from what was before it. -/
def TableCall.owes : (c : TableCall) → c.Ans → TableDebt → TableDebt
  | .close, closed, debt => { debt with sweep := !closed }
  | .take, taken, debt => ⟨debt.tasks ++ taken, false⟩
  | .create _ _, .ok t, debt => { debt with tasks := debt.tasks ++ [t] }
  | .insert _ t, replaced, debt => { debt with tasks := debt.tasks.erase t ++ replaced.toList }
  | .evict _ _, evicted, debt => { debt with tasks := debt.tasks ++ evicted }
  | .remove _, removed, debt => { debt with tasks := debt.tasks ++ removed.toList }
  | .removeInactive _ t _, true, debt => { debt with tasks := debt.tasks ++ [t] }
  | .dispose t, _, debt => { debt with tasks := debt.tasks.erase t }
  | .disposeBlocking t, _, debt => { debt with tasks := debt.tasks.erase t }
  | _, _, debt => debt

/-- A method under way with what is left of it. -/
structure TableTask where
  body : TableM PUnit
  debt : TableDebt

structure TablePool where
  state : TaskTable
  calls : ℕ → Option TableTask

inductive TableEvent where
  | request (i : ℕ) (r : TableRequest)
  | call (i : ℕ)
  | finish (i : ℕ)
  /-- A disposal on a blocking thread. -/
  | spawned (t : ℕ)

namespace TablePool

def start (maxTasks inactiveMinutes : ℤ) : TablePool :=
  ⟨.new maxTasks inactiveMinutes, fun _ => none⟩

inductive Step : TablePool → TableEvent → TablePool → Prop
  | request {p i} (r : TableRequest) : p.calls i = none →
    Step p (.request i r) { p with calls := update p.calls i (some ⟨r.body, .nothing⟩) }
  | call {p i c k debt} (input : TableInput) : p.calls i = some ⟨.call c k, debt⟩ →
    (c = .lockCreating → p.state.creating = false) →
    Step p (.call i)
      { state := (p.state.answer input c).2
        calls := update p.calls i
          (some ⟨k (p.state.answer input c).1, c.owes (p.state.answer input c).1 debt⟩) }
  | finish {p i task} : p.calls i = some task → task.body.finished →
    Step p (.finish i) { p with calls := update p.calls i none }
  | spawned {p t} : t ∈ p.state.spawned →
    Step p (.spawned t)
      { p with state := { p.state.dispose t with spawned := p.state.spawned.erase t } }

/-- The pools that any number of allowed steps lead to. -/
inductive Reachable (allowed : TablePool → TableEvent → Prop) (maxTasks inactiveMinutes : ℤ) :
    TablePool → Prop
  | start : Reachable allowed maxTasks inactiveMinutes (start maxTasks inactiveMinutes)
  | step {p e p'} : Reachable allowed maxTasks inactiveMinutes p → Step p e p' → allowed p e →
    Reachable allowed maxTasks inactiveMinutes p'

/-- A task is put into the table after `Dispose` has taken it. -/
def Slip (p : TablePool) : TableEvent → Prop
  | .call i => ∃ id t k debt, p.calls i = some ⟨.call (.insert id t) k, debt⟩ ∧
    p.state.swept = true
  | _ => False

end TablePool

end Rustorr.Gst
