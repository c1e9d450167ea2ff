import Rustorr.Lifecycle.Client

/-! The coordinator under any number of requests at once: tasks take turns act by
act, any of them may be dropped where it waits, and the engine's traffic runs
beside them. -/

namespace Rustorr

open Function (update)

/-- A request or a spawned task with what is left of it to do. -/
structure Task : Type 1 where
  name : Option Background
  body : Coordinator.M Unit

/-- `gate` is the task that holds the gate and `held` are the pins of tasks; a
playback reader holds its own pin. -/
structure Pool (σ : Type) : Type 1 where
  world : World σ
  tasks : ℕ → Option Task
  gate : Option ℕ
  held : List (ℕ × Cache.Pin)
  readers : List PlaybackReader

/-- The pins a call gives to the task that makes it. -/
def Call.gained : (c : Call) → c.Ans → List Cache.Pin
  | .pin _ _, .ok taken => [taken]
  | _, _ => []

/-- The requests of the HTTP layer. -/
inductive Request
  | addSource (request : AddTorrent) (source : TorrentSource)
  | play (hash : InfoHash) (index offset : ℕ) (stop prefetchOffset : Option ℕ)
  | schedulePrefetch (hash : InfoHash) (index offset : ℕ)
  | dropLive (hash : InfoHash)
  | removeTorrent (hash : InfoHash)
  | evict (hash : InfoHash)
  | evictToCap
  | setSettings (settings : Settings)
  | client (command : ClientCommand)

def Request.body : Request → Coordinator.M Unit
  | .addSource request source => do let _ ← Coordinator.addSource request source
  | .play hash index offset stop prefetchOffset => do
    let _ ← Coordinator.playWithPrefetch hash index offset stop prefetchOffset
  | .schedulePrefetch hash index offset => Coordinator.schedulePrefetch hash index offset
  | .dropLive hash => do let _ ← Coordinator.dropLive hash
  | .removeTorrent hash => do let _ ← Coordinator.removeTorrent hash
  | .evict hash => do let _ ← Coordinator.evict hash
  | .evictToCap => Coordinator.evictToCap
  | .setSettings settings => Coordinator.setSettings settings
  | .client command => command.body

namespace Pool

variable {ε σ : Type} (ops : PieceStore ε σ)

def start (world : World σ) : Pool σ := ⟨world, fun _ => none, none, [], []⟩

/-- Task `i` goes on with `body`. -/
def goOn (i : ℕ) (name : Option Background) (body : Coordinator.M Unit) (p : Pool σ) : Pool σ :=
  { p with tasks := update p.tasks i (some ⟨name, body⟩) }

def dropPin (pin : Cache.Pin) (p : Pool σ) : Pool σ :=
  { p with world := { p.world with cache := p.world.cache.dropPin pin } }

/-- A call by task `i`: what it does to the world and to the pins of the task. -/
def callBy (i : ℕ) (a : Answers ε) (c : Call) (p : Pool σ) : c.Ans × Pool σ :=
  let (x, world) := p.world.answer ops a c
  let held := match c with
    | .dropPin pin => p.held.erase (i, pin)
    | _ => p.held
  (x, { p with world := world, held := held ++ (c.gained x).map (Prod.mk i) })

/-- One step and the act that makes it, if a task does. -/
inductive Step : Pool σ → Option Act → Pool σ → Prop
  /-- The gate is free and task `i` takes it. -/
  | lock {p i name k} : p.tasks i = some ⟨name, .call .lock k⟩ → p.gate = none →
    Step p (some .lock) ({ p with gate := some i }.goOn i name (k ()))
  | unlock {p i name k} : p.tasks i = some ⟨name, .call .unlock k⟩ →
    Step p (some .unlock) ({ p with gate := none }.goOn i name (k ()))
  | call {p i name caller c k} (a : Answers ε) :
    p.tasks i = some ⟨name, .call (.call caller c) k⟩ →
    Step p (some (.call caller c))
      ((p.callBy ops i a c).2.goOn i name (k (p.callBy ops i a c).1))
  | atomically {p i name β f k} : p.tasks i = some ⟨name, .call (.atomically β f) k⟩ →
    Step p (some (.atomically β f))
      ({ p with world := { p.world with fields := (f p.world.fields).2 } }.goOn i name
        (k (f p.world.fields).1))
  | spawn {p i name task k j} : p.tasks i = some ⟨name, .call (.spawn task) k⟩ → p.tasks j = none →
    Step p (some (.spawn task)) ((p.goOn j (some task) task.body).goOn i name (k ()))
  /-- `abort` and `await` of a handle: the task goes on when the other is gone. -/
  | cancel {p i name task k} : p.tasks i = some ⟨name, .call (.cancel task) k⟩ →
    (∀ j t, p.tasks j = some t → t.name ≠ some task) →
    Step p (some (.cancel task)) (p.goOn i name (k ()))
  | handOver {p i name reader k} : p.tasks i = some ⟨name, .call (.handOver reader) k⟩ →
    Step p (some (.handOver reader))
      ({ p with held := p.held.erase (i, reader.pin), readers := p.readers ++ [reader] }.goOn i
        name (k ()))
  | request {p i} (r : Request) : p.tasks i = none → Step p none (p.goOn i none r.body)
  /-- A task is dropped where it waits; its guard and its pins go next. -/
  | abandon {p i task} : p.tasks i = some task → Step p none (p.goOn i task.name (pure ()))
  | dropHeld {p i task pin} : p.tasks i = some task → task.body.finished → (i, pin) ∈ p.held →
    Step p none ({ p with held := p.held.erase (i, pin) }.dropPin pin)
  | dropGuard {p i task} : p.tasks i = some task → task.body.finished → p.gate = some i →
    Step p none { p with gate := none }
  | exit {p i task} : p.tasks i = some task → task.body.finished → p.gate ≠ some i →
    (∀ pin, (i, pin) ∉ p.held) → Step p none { p with tasks := update p.tasks i none }
  /-- `Drop for PlaybackReader`. -/
  | dropReader {p reader j} : reader ∈ p.readers → p.tasks j = none →
    Step p none (({ p with readers := p.readers.erase reader }.dropPin reader.pin).goOn j
      (some (.release reader.hash)) (Background.release reader.hash).body)
  | traffic {p} (env : ε) (hash : InfoHash) (t : World.Traffic) :
    Step p none { p with world := p.world.traffic ops env hash t }

/-- The pools that any number of steps lead to. -/
inductive Reachable (world : World σ) : Pool σ → Prop
  | start : Reachable world (start world)
  | step {p p' act} : Reachable world p → Step ops p act p' → Reachable world p'

end Pool

end Rustorr
