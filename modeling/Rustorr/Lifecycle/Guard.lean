import Rustorr.Lifecycle.Pool

/-! The discipline of the lifecycle gate, act by act: a torrent is deleted from
the engine only under the gate, after it was seen without a pin and before a
reader of it is handed over. Every coordinator function follows it. -/

namespace Rustorr

open Lifecycle (Error)
open Prog (followed_ok followed_error)

/-- What a task may rely on: whether it holds the gate, the torrents it has seen
without a pin since it took the gate, and the pins it holds. -/
structure Ghost where
  gate : Bool
  clear : List InfoHash
  pins : List Cache.Pin

namespace Ghost

def saw (g : Ghost) (hash : InfoHash) : Except Cache.Error Unit → Ghost
  | .error (.pinned _) => g
  | _ => { g with clear := hash :: g.clear }

def guardCall : (c : Call) → Ghost → (c.Ans → Ghost → Prop) → Prop
  | .ensureUnpinned hash, g, Q => ∀ r, Q r (g.saw hash r)
  | .delete hash, g, Q => (g.gate = true ∧ hash ∈ g.clear) ∧ ∀ r, Q r g
  | .forget hash _, g, Q => (g.gate = true ∧ hash ∈ g.clear) ∧ Q () g
  | .pin hash _, g, Q => (∀ e, Q (.error e) g) ∧
    ∀ pin, pin.torrent = hash → Q (.ok pin) { g with pins := pin :: g.pins }
  | .dropPin pin, g, Q => pin ∈ g.pins ∧ Q () { g with pins := g.pins.erase pin }
  | _, g, Q => ∀ x, Q x g

/-- What each act asks of the task that makes it, and what the task knows then. -/
def guard : Prog.Spec Act Act.Ans Ghost
  | .lock, g, Q => g.gate = false ∧ Q () { g with gate := true, clear := [] }
  | .unlock, g, Q => g.gate = true ∧ Q () { g with gate := false }
  | .call _ c, g, Q => guardCall c g Q
  | .atomically _ _, g, Q => ∀ x, Q x g
  | .spawn _, g, Q | .cancel _, g, Q => Q () g
  | .handOver reader, g, Q =>
    (g.gate = true ∧ reader.pin ∈ g.pins ∧ reader.pin.torrent = reader.hash) ∧
      Q () { g with
        clear := g.clear.filter fun hash => hash ≠ reader.hash
        pins := g.pins.erase reader.pin }
  | .waitForever, _, _ => True

theorem guard_monotone : Prog.Spec.Monotone guard := by
  intro a g Q Q' hQ h
  cases a with
  | lock => exact ⟨h.1, hQ _ _ h.2⟩
  | unlock => exact ⟨h.1, hQ _ _ h.2⟩
  | call caller c =>
    cases c with
    | ensureUnpinned hash => exact fun r => hQ _ _ (h r)
    | delete hash => exact ⟨h.1, fun r => hQ _ _ (h.2 r)⟩
    | forget hash id => exact ⟨h.1, hQ _ _ h.2⟩
    | pin hash range => exact ⟨fun e => hQ _ _ (h.1 e), fun pin hp => hQ _ _ (h.2 pin hp)⟩
    | dropPin pin => exact ⟨h.1, hQ _ _ h.2⟩
    | _ => exact fun x => hQ _ _ (h x)
  | atomically β f => exact fun x => hQ _ _ (h x)
  | spawn task => exact hQ _ _ h
  | cancel task => exact hQ _ _ h
  | handOver reader => exact ⟨h.1, hQ _ _ h.2⟩
  | waitForever => trivial

end Ghost

/-! ### Programs that neither use nor change what the task knows -/

def Call.Plain : Call → Prop
  | .ensureUnpinned _ | .delete _ | .forget _ _ | .pin _ _ | .dropPin _ => False
  | _ => True

def Act.Plain : Act → Prop
  | .call _ c => c.Plain
  | .lock | .unlock | .handOver _ => False
  | _ => True

open Ghost (guard guard_monotone)

theorem guard_of_plain {a : Act} (ha : a.Plain) {g : Ghost} {Q : a.Ans → Ghost → Prop}
    (hQ : ∀ x, Q x g) : guard a g Q := by
  cases a with
  | call caller c => cases c <;> first | exact ha.elim | exact hQ
  | atomically β f => exact hQ
  | spawn task => exact hQ ()
  | cancel task => exact hQ ()
  | waitForever => trivial
  | _ => exact ha.elim

namespace Coordinator

variable {α β : Type}

def Plain (p : M α) : Prop := Prog.Every Act.Plain p

theorem Plain.wp {p : M α} (hp : Plain p) {g : Ghost} {Q : Except Error α → Ghost → Prop}
    (hQ : ∀ r, Q r g) : Prog.wp guard p g Q := by
  induction p with
  | ret a => exact hQ _
  | fail e => exact hQ _
  | call c k ih => exact guard_of_plain hp.1 fun x => ih x (hp.2 x)

theorem Plain.bind {p : M α} {f : α → M β} (hp : Plain p) (hf : ∀ a, Plain (f a)) :
    Plain (p >>= f) := Prog.every_bind hp hf

theorem plain_call {caller : Activation} {c : Call} (hc : c.Plain) : Plain (call caller c) :=
  ⟨hc, fun _ => trivial⟩

theorem plain_act {a : Act} (ha : a.Plain) : Plain (act a) := ⟨ha, fun _ => trivial⟩

theorem plain_atomically (f : TorrentCoordinator → β × TorrentCoordinator) :
    Plain (atomically f) := ⟨trivial, fun _ => trivial⟩

theorem plain_ofExcept (r : Except Error α) : Plain (Prog.ofExcept r : M α) :=
  Prog.every_ofExcept r

theorem plain_okOr (e : Error) (a : Option α) : Plain (okOr e a) := by
  cases a <;> trivial

/-- A query of the database, with its failure passed on. -/
theorem plain_state {caller : Activation} {c : Call} (hc : c.Plain)
    (f : c.Ans → Except State.Error α) : Plain (call caller c >>= fun r => state (f r)) :=
  (plain_call hc).bind fun _ => plain_ofExcept _

theorem plain_stopPrefetchLocked (hash : InfoHash) : Plain (stopPrefetchLocked hash) := by
  refine (plain_atomically _).bind ?_
  rintro (_ | task)
  · trivial
  · exact plain_act (by trivial)

theorem plain_stopIdleDetachLocked (hash : InfoHash) : Plain (stopIdleDetachLocked hash) := by
  refine (plain_atomically _).bind ?_
  rintro (_ | task)
  · trivial
  · exact plain_act (by trivial)

theorem plain_removeCache (caller : Activation) (hash : InfoHash) :
    Plain (removeCache caller hash) := by
  refine (plain_call (by trivial)).bind fun r => ?_
  split <;> trivial

theorem plain_persist (caller : Activation) (live : LiveTorrent) : Plain (persist caller live) := by
  refine (plain_atomically _).bind fun readOnly => ?_
  split
  · trivial
  · exact (plain_call (by trivial)).bind fun _ => plain_ofExcept _

theorem plain_addLive (request : AddTorrent) (hash : InfoHash) (live : LiveTorrent) :
    Plain (addLive request hash live) := by
  unfold addLive
  split
  · refine (plain_call (by trivial)).bind fun r => (plain_ofExcept _).bind fun found => ?_
    split
    · exact (plain_persist _ _).bind fun _ => (plain_act (by trivial)).bind fun x => nomatch x
    · trivial
  · trivial

theorem plain_savedSource (source : TorrentSource) (hash : Option InfoHash) :
    Plain (savedSource source hash) := by
  unfold savedSource
  split
  · trivial
  · split
    · trivial
    · refine (plain_call (by trivial)).bind fun r => (plain_ofExcept _).bind fun found => ?_
      split <;> trivial

theorem plain_storedOf (request : AddTorrent) (live : LiveTorrent) :
    Plain (storedOf request live) := by
  unfold storedOf
  split
  · exact (plain_persist _ _).bind fun _ => trivial
  · trivial

theorem plain_addNew (request : AddTorrent) (source : TorrentSource) (hash : Option InfoHash) :
    Plain (addNew request source hash) := by
  refine (plain_savedSource _ _).bind fun source => (plain_atomically _).bind fun peers => ?_
  refine (plain_call (by trivial)).bind fun trackers => (plain_call (by trivial)).bind fun added => ?_
  refine (plain_ofExcept _).bind fun metadata => (plain_atomically _).bind fun _ => ?_
  refine (plain_call (by trivial)).bind fun found => (plain_ofExcept _).bind fun existing => ?_
  refine (plain_call (by trivial)).bind fun now => (plain_storedOf _ _).bind fun stored => ?_
  exact (plain_atomically _).bind fun _ => trivial

theorem plain_load (hash : InfoHash) : Plain (load hash) := by
  refine (plain_call (by trivial)).bind fun loaded => ?_
  split
  · trivial
  · refine (plain_call (by trivial)).bind fun r => (plain_ofExcept _).bind fun found => ?_
    refine (plain_okOr _ _).bind fun metainfo => (plain_atomically _).bind fun peers => ?_
    refine (plain_call (by trivial)).bind fun trackers => (plain_call (by trivial)).bind fun added => ?_
    refine (plain_ofExcept _).bind fun metadata => ?_
    split
    · trivial
    · refine Plain.bind ?_ fun _ => plain_atomically _
      refine (plain_atomically _).bind fun known => ?_
      split
      · trivial
      · refine (plain_call (by trivial)).bind fun r => (plain_ofExcept _).bind fun found => ?_
        exact (plain_okOr _ _).bind fun entry => plain_atomically _

theorem plain_attach (hash : InfoHash) : Plain (attach hash) := by
  refine (plain_call (by trivial)).bind fun loaded => ?_
  split
  · trivial
  · refine (plain_call (by trivial)).bind fun r => (plain_ofExcept _).bind fun found => ?_
    split
    · exact plain_load hash
    · trivial

theorem plain_engineFile (hash : InfoHash) (index : ℕ) : Plain (engineFile hash index) := by
  refine (plain_atomically _).bind fun found => (plain_okOr _ _).bind fun live => ?_
  exact (plain_okOr _ _).bind fun _ => trivial

theorem plain_playReader (hash : InfoHash) (index : ℕ) (file : FileIndex) (offset : ℕ) :
    Plain (playReader hash index file offset) := by
  refine (plain_call (by trivial)).bind fun r => ?_
  split <;> trivial

theorem plain_startPrefetchLocked (hash : InfoHash) (file : FileIndex) (offset : ℕ) :
    Plain (startPrefetchLocked hash file offset) := by
  refine (plain_stopPrefetchLocked _).bind fun _ => (plain_atomically _).bind fun id => ?_
  exact (plain_act (by trivial)).bind fun _ => plain_atomically _

theorem plain_filterLoaded (hashes : List InfoHash) : Plain (filterLoaded hashes) := by
  induction hashes with
  | nil => trivial
  | cons hash rest ih => exact (plain_call (by trivial)).bind fun _ => ih.bind fun _ => trivial

/-! ### The functions under the gate -/

theorem wp_call (caller : Activation) (c : Call) (g : Ghost)
    (Q : Except Error c.Ans → Ghost → Prop) :
    Prog.wp guard (call caller c) g Q = Ghost.guardCall c g fun x => Q (.ok x) := rfl

theorem wp_act (a : Act) (g : Ghost) (Q : Except Error a.Ans → Ghost → Prop) :
    Prog.wp guard (act a) g Q = guard a g fun x => Q (.ok x) := rfl

/-- A program that follows the discipline and ends as it began: with the gate or
without it. -/
def Follows (gate : Bool) (p : M α) : Prop :=
  ∀ g : Ghost, g.gate = gate → Prog.wp guard p g fun _ g' => g'.gate = gate

theorem Plain.follows {p : M α} (hp : Plain p) (gate : Bool) : Follows gate p :=
  fun _ hg => hp.wp fun _ => hg

theorem Follows.bind {gate : Bool} {p : M α} {f : α → M β} (hp : Follows gate p)
    (hf : ∀ a, Follows gate (f a)) : Follows gate (p >>= f) := by
  intro g hg
  rw [Prog.wp_bind]
  refine Prog.wp_mono guard_monotone ?_ (hp g hg)
  intro r g' hg'
  cases r with
  | ok a => exact hf a g' hg'
  | error e => exact hg'

theorem Plain.andThen {gate : Bool} {p : M α} {f : α → M β} (hp : Plain p)
    (hf : ∀ a, Follows gate (f a)) : Follows gate (p >>= f) := (hp.follows gate).bind hf

theorem Follows.attempt {gate : Bool} {p : M α} (hp : Follows gate p) : Follows gate p.attempt := by
  intro g hg
  rw [Prog.wp_attempt]
  exact hp g hg

theorem Follows.logged {gate : Bool} {p : M α} (hp : Follows gate p) : Follows gate (logged p) :=
  hp.attempt.bind fun _ _ hg => hg

theorem Follows.forM {ι : Type} {gate : Bool} {f : ι → M Unit} (hf : ∀ i, Follows gate (f i))
    (l : List ι) : Follows gate (l.forM f) := fun _ hg =>
  Prog.wp_forM guard_monotone (I := fun g => g.gate = gate)
    (fun i _ g hg => Prog.wp_mono guard_monotone (fun r _ h => by cases r <;> exact h) (hf i g hg))
    (fun _ h => h) hg

/-- The gate is taken where the task does not hold it, and given back. -/
theorem Follows.withGate {body : M α} (hbody : Follows true body) :
    Follows false (withGate body) := by
  intro g hg
  unfold Coordinator.withGate
  rw [Prog.wp_bind, wp_act]
  refine ⟨hg, ?_⟩
  simp only [followed_ok, Prog.wp_bind, Prog.wp_attempt]
  refine Prog.wp_mono guard_monotone ?_ (hbody _ rfl)
  intro r g' hg'
  rw [wp_act]
  refine ⟨hg', ?_⟩
  simp only [followed_ok, Prog.wp_ofExcept]

theorem wp_ensureUnpinned {caller : Activation} {hash : InfoHash} {g : Ghost}
    {Q : Except Error Unit → Ghost → Prop}
    (herror : ∀ e g', g'.gate = g.gate → Q (.error e) g')
    (hok : ∀ g', g'.gate = g.gate → hash ∈ g'.clear → Q (.ok ()) g') :
    Prog.wp guard (ensureUnpinned caller hash) g Q := by
  unfold ensureUnpinned
  rw [Prog.wp_bind, wp_call]
  intro r
  simp only [followed_ok]
  split
  · exact hok _ rfl List.mem_cons_self
  · exact hok _ rfl List.mem_cons_self
  · refine herror _ _ ?_
    unfold Ghost.saw
    split <;> rfl

/-- What follows the check may rely on it. -/
theorem follows_ensureUnpinned {gate : Bool} {caller : Activation} {hash : InfoHash}
    {f : Unit → M α}
    (hf : ∀ g : Ghost, g.gate = gate → hash ∈ g.clear →
      Prog.wp guard (f ()) g fun _ g' => g'.gate = gate) :
    Follows gate (ensureUnpinned caller hash >>= f) := by
  intro g hg
  rw [Prog.wp_bind]
  refine wp_ensureUnpinned (fun e g' hg' => hg'.trans hg) fun g' hg' hclear => ?_
  exact hf g' (hg'.trans hg) hclear

theorem wp_engineDelete {caller : Activation} {hash : InfoHash} {g : Ghost} (hg : g.gate = true)
    (hclear : hash ∈ g.clear)
    {Q : Except Error (Except Engine.Error (List SocketAddr)) → Ghost → Prop}
    (hQ : ∀ r, Q (.ok r) g) : Prog.wp guard (engineDelete caller hash) g Q := by
  unfold engineDelete
  rw [Prog.wp_bind, wp_call]
  refine ⟨⟨hg, hclear⟩, fun r => ?_⟩
  cases r with
  | error e => exact hQ _
  | ok deleted =>
    obtain ⟨id, livePeers⟩ := deleted
    simp only [followed_ok, Prog.wp_bind]
    exact ⟨⟨hg, hclear⟩, hQ _⟩

/-- The engine's delete, with what follows it plain. -/
theorem wp_engineDelete_bind {caller : Activation} {hash : InfoHash} {g : Ghost}
    (hg : g.gate = true) (hclear : hash ∈ g.clear)
    {f : Except Engine.Error (List SocketAddr) → M α} (hf : ∀ r, Plain (f r)) :
    Prog.wp guard (engineDelete caller hash >>= f) g fun _ g' => g'.gate = true := by
  rw [Prog.wp_bind]
  exact wp_engineDelete hg hclear fun r => (hf r).wp fun _ => hg

theorem plain_dropCache (hash : InfoHash) (saved : Bool) : Plain (dropCache hash saved) := by
  refine (plain_atomically _).bind fun always => ?_
  split
  · exact plain_removeCache _ _
  · trivial

theorem plain_forgetTorrent (hash : InfoHash) : Plain (forgetTorrent hash) := by
  refine (plain_removeCache _ _).bind fun _ => (plain_call (by trivial)).bind fun r => ?_
  refine (plain_ofExcept _).bind fun removed => (plain_atomically _).bind fun _ => ?_
  exact (plain_atomically _).bind fun _ => trivial

theorem follows_dropLocked (hash : InfoHash) : Follows true (dropLocked hash) := by
  refine (plain_stopIdleDetachLocked hash).andThen fun _ => ?_
  refine (plain_call (by trivial)).andThen fun r => (plain_ofExcept _).andThen fun saved => ?_
  refine (plain_stopPrefetchLocked hash).andThen fun _ => follows_ensureUnpinned ?_
  intro g hg hclear
  have hrest : Plain (do
      dropCache hash saved.isSome
      forgetLive hash
      pure saved.isSome : M Bool) :=
    (plain_dropCache _ _).bind fun _ => (plain_atomically _).bind fun _ => trivial
  rw [Prog.wp_bind]
  unfold detach
  rw [Prog.wp_bind, wp_call]
  intro loaded
  simp only [followed_ok]
  split
  · rw [Prog.wp_bind]
    refine wp_engineDelete hg hclear fun r => ?_
    rw [followed_ok]
    refine Plain.wp ((plain_ofExcept _).bind fun _ => plain_atomically _) fun r => ?_
    cases r with
    | ok _ => exact hrest.wp fun _ => hg
    | error e => exact hg
  · exact hrest.wp fun _ => hg

theorem follows_removeAttached (hash : InfoHash) : Follows true (removeAttached hash) := by
  refine (plain_stopPrefetchLocked hash).andThen fun _ => follows_ensureUnpinned ?_
  intro g hg hclear
  rw [Prog.wp_bind]
  unfold releaseEngine
  rw [Prog.wp_bind]
  refine wp_engineDelete hg hclear fun r => ?_
  rw [followed_ok]
  split
  · exact (plain_forgetTorrent hash).wp fun _ => hg
  · exact (plain_forgetTorrent hash).wp fun _ => hg
  · exact hg

theorem follows_removeLocked (hash : InfoHash) : Follows true (removeLocked hash) :=
  (plain_stopIdleDetachLocked hash).andThen fun _ =>
    (plain_attach hash).andThen fun _ => follows_removeAttached hash

theorem follows_evictLocked (hash : InfoHash) : Follows true (evictLocked hash) := by
  refine (plain_stopIdleDetachLocked hash).andThen fun _ => ?_
  refine (plain_stopPrefetchLocked hash).andThen fun _ => follows_ensureUnpinned ?_
  intro g hg hclear
  refine wp_engineDelete_bind hg hclear fun r => (plain_ofExcept _).bind fun livePeers => ?_
  refine (plain_atomically _).bind fun _ => (plain_call (by trivial)).bind fun freed => ?_
  exact (plain_ofExcept _).bind fun _ => (plain_atomically _).bind fun _ => trivial

theorem follows_evictToCap : Follows false evictToCap :=
  ((plain_call (by trivial)).andThen fun _ =>
    Follows.forM (fun hash => (follows_evictLocked hash).logged) _).withGate

/-- The pin that playback took goes to the reader that is handed over. -/
theorem follows_openReader (hash : InfoHash) (index offset : ℕ) (stop prefetchOffset : Option ℕ) :
    Follows true (openReader hash index offset stop prefetchOffset) := by
  refine (plain_engineFile hash index).andThen fun file => ?_
  refine (plain_playReader hash index file offset).andThen fun length => ?_
  intro g hg
  rw [Prog.wp_bind, wp_call]
  refine ⟨fun e => hg, fun pin hpin => ?_⟩
  · simp only [followed_ok, Prog.wp_bind]
    have hstart : Plain (startPrefetch hash file prefetchOffset) := by
      cases prefetchOffset with
      | none => trivial
      | some prefetchOffset => exact plain_startPrefetchLocked hash file prefetchOffset
    refine hstart.wp fun r => ?_
    cases r with
    | error e => exact hg
    | ok _ =>
      exact ⟨⟨hg, List.mem_cons_self, hpin⟩, hg⟩

theorem follows_playWithPrefetch (hash : InfoHash) (index offset : ℕ)
    (stop prefetchOffset : Option ℕ) :
    Follows false (playWithPrefetch hash index offset stop prefetchOffset) :=
  ((plain_stopIdleDetachLocked hash).andThen fun _ =>
    (plain_load hash).andThen fun _ => follows_openReader _ _ _ _ _).withGate

theorem follows_addSource (request : AddTorrent) (source : TorrentSource) :
    Follows false (addSource request source) := by
  refine Follows.withGate ((plain_call (by trivial)).andThen fun sourceHash => ?_)
  refine (plain_atomically _).andThen fun found => ?_
  split
  · exact (plain_addLive _ _ _).follows true
  · exact (plain_addNew _ _ _).follows true

theorem follows_schedulePrefetch (hash : InfoHash) (index offset : ℕ) :
    Follows false (schedulePrefetch hash index offset) := by
  refine Follows.withGate (((plain_engineFile hash index).follows true).attempt.bind fun r => ?_)
  split
  · exact (plain_startPrefetchLocked _ _ _).follows true
  · exact fun _ hg => hg

theorem follows_dropLive (hash : InfoHash) : Follows false (dropLive hash) :=
  (follows_dropLocked hash).withGate

theorem follows_removeTorrent (hash : InfoHash) : Follows false (removeTorrent hash) := by
  refine (plain_atomically _).andThen fun readOnly => ?_
  split
  · exact fun _ hg => hg
  · exact (follows_removeLocked hash).withGate

theorem follows_dropAllLive : Follows false dropAllLive := by
  refine (plain_atomically _).andThen fun live => (plain_call (by trivial)).andThen fun r => ?_
  refine (plain_ofExcept _).andThen fun saved => (plain_filterLoaded _).andThen fun loaded => ?_
  refine Follows.forM (fun hash => (follows_dropLive hash).attempt.bind fun r => ?_) _
  split <;> exact fun _ hg => hg

theorem follows_setSettings (settings : Settings) : Follows false (setSettings settings) := by
  refine (plain_atomically _).andThen fun readOnly => ?_
  split
  · exact fun _ hg => hg
  · refine (plain_call (by trivial)).andThen fun r => (plain_ofExcept _).andThen fun _ => ?_
    refine (plain_call (by trivial)).andThen fun _ => (plain_atomically _).andThen fun _ => ?_
    exact follows_dropAllLive.bind fun _ => follows_evictToCap

/-! ### Spawned tasks -/

theorem follows_scheduleIdleDetach (hash : InfoHash) : Follows false (scheduleIdleDetach hash) := by
  have hcheck : Follows false (ensureUnpinned (.scheduleIdleDetach hash) hash) :=
    fun g hg => wp_ensureUnpinned (fun _ _ hg' => hg'.trans hg) fun _ hg' _ => hg'.trans hg
  refine hcheck.attempt.bind fun r => ?_
  split
  · exact fun _ hg => hg
  · refine (plain_call (by trivial)).andThen fun loaded => ?_
    split
    · refine (plain_stopIdleDetachLocked hash).andThen fun _ => ?_
      refine (plain_atomically _).andThen fun id => (plain_act (by trivial)).andThen fun _ => ?_
      exact (plain_atomically _).follows false
    · exact fun _ hg => hg

/-- The prefetch takes its pin without the gate. -/
theorem wp_prefetchPrepare (id : ℕ) (hash : InfoHash) (file : FileIndex) (offset : ℕ) {g : Ghost}
    (hg : g.gate = false) :
    Prog.wp guard (prefetchPrepare id hash file offset) g fun r g' =>
      g'.gate = false ∧ ∀ pin, r = .ok (some pin) → pin ∈ g'.pins := by
  have hnone : g.gate = false ∧ ∀ pin, (.ok none : Except Error _) = .ok (some pin) → pin ∈ g.pins :=
    ⟨hg, fun pin h => nomatch h⟩
  unfold prefetchPrepare
  rw [Prog.wp_bind]
  refine (plain_atomically _).wp fun budget => ?_
  cases budget with
  | error e => exact ⟨hg, fun pin h => nomatch h⟩
  | ok budget =>
    rw [followed_ok]
    split
    · exact hnone
    · exact hnone
    · unfold prefetchPin
      rw [Prog.wp_bind, wp_call]
      intro length
      simp only [followed_ok]
      split
      · exact hnone
      · split
        · exact hnone
        · rw [Prog.wp_bind, wp_call]
          refine ⟨fun e => hnone, fun pin hpin => ⟨hg, fun pin' h => ?_⟩⟩
          cases h
          exact List.mem_cons_self

/-- It drops the pin it took. -/
theorem follows_prefetch (id : ℕ) (hash : InfoHash) (file : FileIndex) (offset : ℕ) :
    Follows false (Background.prefetch id hash file offset).body := by
  intro g hg
  unfold Background.body
  rw [Prog.wp_bind]
  refine Prog.wp_mono guard_monotone ?_ (wp_prefetchPrepare id hash file offset hg)
  rintro (e | prepared) g' ⟨hg', hpin⟩
  · exact hg'
  · have hrest : Follows false (do
        update fun t =>
          if (t.prefetches.lookup hash).any fun task => task.id = id then
            { t with prefetches := t.prefetches.erase hash }
          else t
        logged evictToCap : M Unit) :=
      (plain_atomically _).andThen fun _ => follows_evictToCap.logged
    rw [followed_ok]
    unfold prefetchFinish
    rw [Prog.wp_bind]
    cases prepared with
    | none => exact hrest g' hg'
    | some pin => exact ⟨hpin pin rfl, hrest _ hg'⟩

theorem follows_background (task : Background) : Follows false task.body := by
  cases task with
  | prefetch id hash file offset => exact follows_prefetch id hash file offset
  | idleDetach id hash =>
    refine (plain_atomically _).andThen fun current => ?_
    split
    · exact (follows_dropLive hash).logged
    · exact fun _ hg => hg
  | release hash =>
    exact follows_evictToCap.logged.bind fun _ => follows_scheduleIdleDetach hash

theorem Follows.discard {gate : Bool} {p : M α} (hp : Follows gate p) :
    Follows gate (do let _ ← p : M Unit) := hp.bind fun _ _ hg => hg

/-! ### Client commands -/

theorem plain_checkedIndex (index : ℕ) : Plain (checkedIndex index) := by
  unfold checkedIndex
  split <;> trivial

theorem plain_checkedIndexOf (index : Option ℕ) : Plain (checkedIndexOf index) := by
  cases index with
  | none => trivial
  | some index => exact (plain_checkedIndex index).bind fun file => trivial

theorem plain_getView (hash : InfoHash) : Plain (getView hash) := by
  refine (plain_atomically _).bind fun live => ?_
  split
  · trivial
  · exact (plain_call (by trivial)).bind fun r => (plain_ofExcept _).bind fun entry => trivial

theorem plain_magnetsOf (entries : List CatalogEntry) : Plain (magnetsOf entries) := by
  induction entries with
  | nil => trivial
  | cons entry entries ih =>
    refine (plain_call (by trivial)).bind fun r => (plain_ofExcept _).bind fun metainfo => ?_
    split
    · exact ih
    · refine (plain_call (by trivial)).bind fun r => (plain_ofExcept _).bind fun metadata => ?_
      exact ih.bind fun magnets => trivial

theorem plain_updateRow (update : UpdateTorrent) (entry : CatalogEntry) :
    Plain (updateRow update entry) := by
  refine (plain_call (by trivial)).bind fun r => (plain_ofExcept _).bind fun found => ?_
  refine (plain_okOr _ _).bind fun metainfo => Plain.bind ?_ fun title => ?_
  · unfold updateTitle
    split
    · exact (plain_call (by trivial)).bind fun r => (plain_ofExcept _).bind fun metadata => trivial
    · trivial
  · refine (plain_atomically _).bind fun readOnly => ?_
    split
    · trivial
    · exact (plain_call (by trivial)).bind fun r => plain_ofExcept _

theorem follows_updateTorrent (update : UpdateTorrent) : Follows false (updateTorrent update) := by
  refine Follows.withGate ((Plain.bind (plain_atomically _) fun edited => ?_).follows true)
  split
  · refine (plain_call (by trivial)).bind fun r => (plain_ofExcept _).bind fun found => ?_
    split
    · exact plain_persist _ _
    · trivial
  · refine (plain_call (by trivial)).bind fun r => (plain_ofExcept _).bind fun found => ?_
    split
    · exact plain_updateRow _ _
    · trivial

theorem follows_wipe : Follows false wipe := by
  refine (plain_atomically _).andThen fun live => (plain_call (by trivial)).andThen fun r => ?_
  refine (plain_ofExcept _).andThen fun saved => ?_
  exact Follows.forM (fun hash => (follows_removeTorrent hash).discard) _

theorem plain_setStoragePreferences (settingsInJson viewedInJson : Option Bool) :
    Plain (setStoragePreferences settingsInJson viewedInJson) := by
  refine (plain_atomically _).bind fun readOnly => ?_
  split
  · trivial
  · refine (plain_atomically _).bind fun settings => (plain_call (by trivial)).bind fun r => ?_
    exact (plain_ofExcept _).bind fun _ => plain_atomically _

theorem plain_setViewed (hash : InfoHash) (index : ℕ) (timecode : Timecode) :
    Plain (setViewed hash index timecode) := by
  refine (plain_checkedIndex index).bind fun file => (plain_atomically _).bind fun readOnly => ?_
  split
  · trivial
  · refine (plain_atomically _).bind fun track => (plain_call (by trivial)).bind fun r => ?_
    exact plain_ofExcept _

theorem plain_removeViewed (hash : InfoHash) (index : Option ℕ) :
    Plain (removeViewed hash index) := by
  refine (plain_atomically _).bind fun readOnly => ?_
  split
  · trivial
  · refine (plain_checkedIndexOf index).bind fun file => (plain_call (by trivial)).bind fun r => ?_
    exact (plain_ofExcept _).bind fun _ => trivial

theorem plain_cacheView (hash : Option InfoHash) : Plain (cacheView hash) := by
  refine (plain_call (by trivial)).bind fun stats => ?_
  cases hash with
  | none => exact (plain_call (by trivial)).bind fun entries => trivial
  | some hash => exact (plain_call (by trivial)).bind fun r => (plain_ofExcept _).bind fun _ => trivial

theorem plain_setWafLists (lists : WafLists) : Plain (setWafLists lists) := by
  refine (plain_atomically _).bind fun readOnly => ?_
  split
  · exact (plain_call (by trivial)).bind fun r => plain_ofExcept _
  · exact (plain_call (by trivial)).bind fun r => (plain_ofExcept _).bind fun _ => trivial

theorem follows_playback (hash : InfoHash) (index offset : ℕ) (stop prefetchOffset : Option ℕ) :
    Follows false (playback hash index offset stop prefetchOffset) := by
  refine (plain_getView hash).andThen fun found => (plain_okOr _ _).andThen fun view => ?_
  exact (plain_okOr _ _).andThen fun file => follows_playWithPrefetch _ _ _ _ _

theorem follows_torrentCommand (command : TorrentCommand) : Follows false command.body := by
  cases command with
  | add request source => exact (follows_addSource request source).discard
  | get hash => exact ((plain_getView hash).follows false).discard
  | set update => exact follows_updateTorrent update
  | remove hash => exact (follows_removeTorrent hash).discard
  | list =>
    refine Follows.discard (Plain.follows ?_ false)
    refine (plain_atomically _).bind fun live => (plain_call (by trivial)).bind fun r => ?_
    exact (plain_ofExcept _).bind fun saved => trivial
  | drop hash => exact (follows_dropLive hash).discard
  | wipe => exact follows_wipe
  | magnets =>
    refine Follows.discard (Plain.follows ?_ false)
    refine (plain_call (by trivial)).bind fun trackers => (plain_call (by trivial)).bind fun r => ?_
    exact (plain_ofExcept _).bind fun entries => plain_magnetsOf _

theorem follows_settingsCommand (command : SettingsCommand) : Follows false command.body := by
  have hanswer : Follows false (do let _ ← fields TorrentCoordinator.settings : M Unit) :=
    ((plain_atomically _).follows false).discard
  cases command with
  | get => exact hanswer
  | set settings => exact (follows_setSettings settings).bind fun _ => hanswer
  | defaults => exact (follows_setSettings Settings.default).bind fun _ => hanswer
  | setStorage settingsInJson viewedInJson =>
    exact (plain_setStoragePreferences settingsInJson viewedInJson).andThen fun _ => hanswer

theorem follows_clientCommand (command : ClientCommand) : Follows false command.body := by
  cases command with
  | torrents command => exact follows_torrentCommand command
  | playback hash index offset stop prefetchOffset =>
    exact (follows_playback hash index offset stop prefetchOffset).discard
  | settings command => exact follows_settingsCommand command
  | viewed command =>
    cases command with
    | set hash index timecode => exact (plain_setViewed hash index timecode).follows false
    | remove hash index => exact (plain_removeViewed hash index).follows false
    | list hash =>
      refine Follows.discard (Plain.follows ?_ false)
      exact (plain_call (by trivial)).bind fun r => (plain_ofExcept _).bind fun entries => trivial
  | cache hash => exact ((plain_cacheView hash).follows false).discard
  | waf command =>
    cases command with
    | get =>
      exact ((plain_state (by trivial) _).follows false).discard
    | set lists => exact ((plain_setWafLists lists).follows false).discard

theorem follows_request (r : Request) : Follows false r.body := by
  cases r with
  | addSource request source => exact (follows_addSource request source).discard
  | play hash index offset stop prefetchOffset =>
    exact (follows_playWithPrefetch hash index offset stop prefetchOffset).discard
  | schedulePrefetch hash index offset => exact follows_schedulePrefetch hash index offset
  | dropLive hash => exact (follows_dropLive hash).discard
  | removeTorrent hash => exact (follows_removeTorrent hash).discard
  | evict hash => exact (follows_evictLocked hash).withGate.discard
  | evictToCap => exact follows_evictToCap
  | setSettings settings => exact follows_setSettings settings
  | client command => exact follows_clientCommand command

end Coordinator

end Rustorr
