import Rustorr.Lifecycle.Coordinator
import Rustorr.Lib.Mealy

/-! A coordinator serving one request after another: each operation runs to its
end before the next begins, while playback readers, spawned tasks and the
engine's traffic stay in between. -/

namespace Rustorr

open Lifecycle (Error)

/-- `gate` is held between operations only by one that never returned. A task
that reads ahead keeps the pin it took. -/
structure Service (σ : Type) where
  world : World σ
  gate : Bool
  readers : List PlaybackReader
  tasks : List (Background × Option Cache.Pin)

namespace Service

variable {ε σ α : Type} (ops : PieceStore ε σ) (o : Activation → Answers ε)

/-- Aborts a task and waits for it to end, which drops its pin. -/
def cancel (task : Background) (s : Service σ) : Service σ :=
  let pins := (s.tasks.filter fun t => t.1 = task).filterMap Prod.snd
  { s with
    tasks := s.tasks.filter fun t => t.1 ≠ task
    world := { s.world with cache := s.world.cache.dropPins pins } }

def act : (a : Act) → Service σ → Option a.Ans × Service σ
  | .lock, s => if s.gate then (none, s) else (some (), { s with gate := true })
  | .unlock, s => (some (), { s with gate := false })
  | .call caller c, s =>
    let (x, world) := s.world.answer ops (o caller) c
    (some x, { s with world := world })
  | .atomically _ f, s =>
    let (x, t) := f s.world.fields
    (some x, { s with world := { s.world with fields := t } })
  | .spawn task, s => (some (), { s with tasks := s.tasks ++ [(task, none)] })
  | .cancel task, s => (some (), s.cancel task)
  | .handOver reader, s => (some (), { s with readers := s.readers ++ [reader] })
  | .waitForever, s => (none, s)

inductive Op
  | addSource (request : AddTorrent) (source : TorrentSource)
  | play (hash : InfoHash) (index offset : ℕ) (stop prefetchOffset : Option ℕ)
  | dropReader (reader : PlaybackReader)
  | release (hash : InfoHash)
  | schedulePrefetch (hash : InfoHash) (index offset : ℕ)
  | prefetchPrepare (id : ℕ) (hash : InfoHash) (file : FileIndex) (offset : ℕ)
  | prefetchFinish (id : ℕ) (hash : InfoHash) (file : FileIndex) (offset : ℕ)
      (prepared : Option Cache.Pin)
  | idleDetach (id : ℕ) (hash : InfoHash)
  | dropLive (hash : InfoHash)
  | removeTorrent (hash : InfoHash)
  | evict (hash : InfoHash)
  | evictToCap
  | setSettings (settings : Settings)
  | traffic (hash : InfoHash) (t : World.Traffic)

/-- No reply means that the operation never returns. -/
abbrev Reply : Type := Option (Except Error Unit)

def perform (body : Coordinator.M α) (s : Service σ) : Reply × Service σ :=
  let (r, s) := body.run (act ops o) s
  (r.map fun r => r.map fun _ => (), s)

/-- A spawned task runs if it is still there. -/
def resume (task : Background × Option Cache.Pin) (body : Coordinator.M α) (s : Service σ) :
    Reply × Service σ :=
  if task ∈ s.tasks then perform ops o body { s with tasks := s.tasks.erase task }
  else (some (.ok ()), s)

/-- `Drop for PlaybackReader`. -/
def dropReader (reader : PlaybackReader) (s : Service σ) : Service σ :=
  if reader ∈ s.readers then
    { s with
      readers := s.readers.erase reader
      world := { s.world with cache := s.world.cache.dropPin reader.pin }
      tasks := s.tasks ++ [(.release reader.hash, none)] }
  else s

/-- The reading ahead starts: what the task prepares stays with it. -/
def prepare (task : Background) (body : Coordinator.M (Option Cache.Pin)) (s : Service σ) :
    Reply × Service σ :=
  if (task, none) ∈ s.tasks then
    match body.run (act ops o) { s with tasks := s.tasks.erase (task, none) } with
    | (some (.ok pin), s) => (some (.ok ()), { s with tasks := s.tasks ++ [(task, pin)] })
    | (some (.error e), s) => (some (.error e), s)
    | (none, s) => (none, s)
  else (some (.ok ()), s)

def step (s : Service σ) : (Activation → Answers ε) × Op → Reply × Service σ
  | (o, .addSource request source) => perform ops o (Coordinator.addSource request source) s
  | (o, .play hash index offset stop prefetchOffset) =>
    perform ops o (Coordinator.playWithPrefetch hash index offset stop prefetchOffset) s
  | (_, .dropReader reader) => (some (.ok ()), s.dropReader reader)
  | (o, .release hash) => resume ops o (.release hash, none) (Coordinator.release hash) s
  | (o, .schedulePrefetch hash index offset) =>
    perform ops o (Coordinator.schedulePrefetch hash index offset) s
  | (o, .prefetchPrepare id hash file offset) =>
    prepare ops o (.prefetch id hash file offset)
      (Coordinator.prefetchPrepare id hash file offset) s
  | (o, .prefetchFinish id hash file offset prepared) =>
    resume ops o (.prefetch id hash file offset, prepared)
      (Coordinator.prefetchFinish id hash prepared) s
  | (o, .idleDetach id hash) =>
    resume ops o (.idleDetach id hash, none) (Coordinator.idleDetach id hash) s
  | (o, .dropLive hash) => perform ops o (Coordinator.dropLive hash) s
  | (o, .removeTorrent hash) => perform ops o (Coordinator.removeTorrent hash) s
  | (o, .evict hash) => perform ops o (Coordinator.evict hash) s
  | (o, .evictToCap) => perform ops o Coordinator.evictToCap s
  | (o, .setSettings settings) => perform ops o (Coordinator.setSettings settings) s
  | (o, .traffic hash t) =>
    (some (.ok ()), { s with world := s.world.traffic ops (o .engine).store hash t })

/-! ### The acts call by call -/

section wp

variable (W : Service σ → Prop) (s : Service σ)

/-- What an act of a served program does, where `W` holds of the states in which
it waits for ever. -/
abbrev spec : Prog.Spec Act Act.Ans (Service σ) := Prog.Spec.ofStep (act ops o) W

def setWorld (world : World σ) (s : Service σ) : Service σ := { s with world := world }

def setFields (t : TorrentCoordinator) (s : Service σ) : Service σ :=
  s.setWorld { s.world with fields := t }

theorem spec_monotone : (spec ops o W).Monotone := Prog.Spec.monotone_ofStep _ W

@[simp] theorem wp_call (caller : Activation) (c : Call) (Q : Except Error c.Ans → Service σ → Prop) :
    Prog.wp (α := no_index c.Ans) (spec ops o W) (Coordinator.call caller c) s Q =
      Q (.ok (s.world.answer ops (o caller) c).1)
        (s.setWorld (s.world.answer ops (o caller) c).2) := rfl

@[simp] theorem wp_atomically {β : Type} (f : TorrentCoordinator → β × TorrentCoordinator)
    (Q : Except Error β → Service σ → Prop) :
    Prog.wp (spec ops o W) (Coordinator.atomically f) s Q =
      Q (.ok (f s.world.fields).1) (s.setFields (f s.world.fields).2) := rfl

@[simp] theorem wp_fields {β : Type} (f : TorrentCoordinator → β)
    (Q : Except Error β → Service σ → Prop) :
    Prog.wp (spec ops o W) (Coordinator.fields f) s Q = Q (.ok (f s.world.fields)) s := rfl

@[simp] theorem wp_update (f : TorrentCoordinator → TorrentCoordinator)
    (Q : Except Error Unit → Service σ → Prop) :
    Prog.wp (spec ops o W) (Coordinator.update f) s Q =
      Q (.ok ()) (s.setFields (f s.world.fields)) := rfl

@[simp] theorem wp_engine (r : Except Engine.Error α) (Q : Except Error α → Service σ → Prop) :
    Prog.wp (spec ops o W) (Coordinator.engine r) s Q = Q (r.mapError .engine) s :=
  Prog.wp_ofExcept _ s _ Q

@[simp] theorem wp_state (r : Except State.Error α) (Q : Except Error α → Service σ → Prop) :
    Prog.wp (spec ops o W) (Coordinator.state r) s Q = Q (r.mapError .state) s :=
  Prog.wp_ofExcept _ s _ Q

@[simp] theorem wp_cache (r : Except Cache.Error α) (Q : Except Error α → Service σ → Prop) :
    Prog.wp (spec ops o W) (Coordinator.cache r) s Q = Q (r.mapError .cache) s :=
  Prog.wp_ofExcept _ s _ Q

@[simp] theorem wp_okOr (e : Error) (a : Option α) (Q : Except Error α → Service σ → Prop) :
    Prog.wp (spec ops o W) (Coordinator.okOr e a) s Q = Q (a.elim (.error e) .ok) s := by
  cases a <;> rfl

theorem act_lock (s : Service σ) :
    act ops o .lock s = if s.gate then (none, s) else (some (), { s with gate := true }) := rfl

theorem wp_lock (Q : Except Error Unit → Service σ → Prop) :
    Prog.wp (spec ops o W) (Coordinator.act .lock) s Q ↔
      if s.gate then W s else Q (.ok ()) { s with gate := true } := by
  show Prog.Spec.ofStep (act ops o) W .lock s _ ↔ _
  unfold Prog.Spec.ofStep
  rw [act_lock]
  by_cases hg : s.gate = true
  · rw [if_pos hg, if_pos hg]
  · rw [if_neg hg, if_neg hg]
    exact Iff.rfl

@[simp] theorem wp_unlock (Q : Except Error Unit → Service σ → Prop) :
    Prog.wp (α := no_index Unit) (spec ops o W) (Coordinator.act .unlock) s Q = Q (.ok ()) { s with gate := false } :=
  rfl

@[simp] theorem wp_spawn (task : Background) (Q : Except Error Unit → Service σ → Prop) :
    Prog.wp (α := no_index Unit) (spec ops o W) (Coordinator.act (.spawn task)) s Q =
      Q (.ok ()) { s with tasks := s.tasks ++ [(task, none)] } := rfl

@[simp] theorem wp_cancel (task : Background) (Q : Except Error Unit → Service σ → Prop) :
    Prog.wp (α := no_index Unit) (spec ops o W) (Coordinator.act (.cancel task)) s Q = Q (.ok ()) (s.cancel task) := rfl

@[simp] theorem wp_handOver (reader : PlaybackReader) (Q : Except Error Unit → Service σ → Prop) :
    Prog.wp (α := no_index Unit) (spec ops o W) (Coordinator.act (.handOver reader)) s Q =
      Q (.ok ()) { s with readers := s.readers ++ [reader] } := rfl

variable {W s}

/-- A body under the gate: it runs if nobody holds the gate, and gives it back. -/
theorem wp_withGate {body : Coordinator.M α} {Q : Except Error α → Service σ → Prop}
    (hwait : s.gate = true → W s)
    (hbody : s.gate = false → Prog.wp (spec ops o W) body { s with gate := true }
      fun r s' => Q r { s' with gate := false }) :
    Prog.wp (spec ops o W) (Coordinator.withGate body) s Q := by
  unfold Coordinator.withGate
  rw [Prog.wp_bind, wp_lock]
  split
  · next hg => exact hwait hg
  · next hg =>
    simp only [Prog.followed_ok, Prog.wp_bind, Prog.wp_attempt, Prog.wp_ofExcept, wp_unlock]
    exact hbody (Bool.eq_false_iff.mpr hg)

def setCache (cache : Cache σ) (s : Service σ) : Service σ :=
  s.setWorld { s.world with cache := cache }

/-- A service whose engine has given up a torrent. -/
def unload (hash : InfoHash) (s : Service σ) : Service σ :=
  s.setWorld { s.world with loaded := s.world.loaded.erase hash }

theorem wp_engineDelete {caller : Activation} {hash : InfoHash}
    {Q : Except Error (Except Engine.Error (List SocketAddr)) → Service σ → Prop}
    (habsent : s.world.loaded.lookup hash = none → Q (.ok (.error (.notLoaded hash))) s)
    (hfails : ∀ e, (s.world.loaded.lookup hash).isSome → (o caller).delete = .error e →
      Q (.ok (.error e)) s)
    (hok : ∀ livePeers, (s.world.loaded.lookup hash).isSome → (o caller).delete = .ok livePeers →
      Q (.ok (.ok livePeers)) (s.unload hash)) :
    Prog.wp (spec ops o W) (Coordinator.engineDelete caller hash) s Q := by
  unfold Coordinator.engineDelete
  rw [Prog.wp_bind, wp_call, Prog.followed_ok]
  cases hl : s.world.loaded.lookup hash with
  | none =>
    simp only [World.answer, World.delete, hl]
    exact habsent hl
  | some id =>
    cases hd : (o caller).delete with
    | error e =>
      simp only [World.answer, World.delete, hl, hd, Except.map]
      exact hfails e (by rw [hl]; rfl) hd
    | ok livePeers =>
      simp only [World.answer, World.delete, hl, hd, Except.map]
      show Q _ (s.setWorld (s.world.forget hash id))
      unfold World.forget
      rw [if_pos hl]
      exact hok livePeers (by rw [hl]; rfl) hd

/-- What is shown of a body act by act holds when its operation returns. -/
theorem perform_of_wp {body : Coordinator.M α} {Q : Except Error α → Service σ → Prop}
    {ops : PieceStore ε σ} {o : Activation → Answers ε} (h : Prog.wp (spec ops o W) body s Q)
    {r : Except Error Unit} (hr : (perform ops o body s).1 = some r) :
    ∃ r', Q r' (perform ops o body s).2 := by
  have hrun := (Prog.wp_iff_run (act ops o)).mp h
  unfold perform at hr ⊢
  split at hrun
  · next r' s' hs' =>
    rw [hs']
    exact ⟨r', hrun⟩
  · next s' hs' =>
    rw [hs'] at hr
    cases hr

end wp

end Service

/-- `TorrentCoordinator::new` over an engine that holds nothing, an empty cache
registry and a store from which what no saved torrent owns is discarded. `fails`
tells whether the settings cannot be read and whether they cannot be written. -/
def TorrentCoordinator.new {σ : Type} (fails : Bool × Bool) (store : σ) (capBytes : ℕ)
    (state : State Settings) (readOnly : Bool) : World σ :=
  let found := if fails.1 then none else state.settings
  let fresh := { Settings.default with cacheSize := min (capBytes : ℤ) (2 ^ 63 - 1) }
  let state := match found with
    | some _ => state
    | none => (state.setSettings fails.2 fresh).2
  let settings := (found.getD fresh).normalized
  ⟨∅, (Cache.new store capBytes).setCapBytes settings.cacheCap, state,
    ⟨∅, ∅, ∅, ∅, settings, 1, 1, readOnly⟩⟩

def Service.new {σ : Type} (world : World σ) : Service σ := ⟨world, false, [], []⟩

end Rustorr
