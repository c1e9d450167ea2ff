import Rustorr.Http.Share
import Rustorr.Lifecycle.Service

/-! Playback requests and commands on the viewed history under way at once. A request that plays
a file lists the history, picks the file's old position and writes it back in a second command
(`touch_viewed`), and anything may come in between. -/

namespace Rustorr

open Function (update)
open Coordinator (M)
open Lifecycle (Error)

/-- A request that concerns the viewed history, with what it found of the torrent to play. -/
inductive ViewedRequest where
  | play (headers : Share.Headers) (torrent : LiveTorrent) (index : ℕ)
  | viewed (command : ViewedCommand)

def ViewedRequest.body (http : Share.HttpConfig) : ViewedRequest → M Unit
  | play headers torrent index => do let _ ← Share.rawPlayback http headers torrent index
  | viewed command => command.body

/-- A removal names the file, or its torrent. -/
def ViewedPool.Covers (hash : InfoHash) (file : Option FileIndex) (key : InfoHash × FileIndex) : Prop :=
  key.1 = hash ∧ file.all (key.2 = ·) = true

instance (hash : InfoHash) (file : Option FileIndex) (key : InfoHash × FileIndex) :
    Decidable (ViewedPool.Covers hash file key) := inferInstanceAs (Decidable (_ ∧ _))

/-- The position of a file in a history, zero if there is none. -/
def positionIn (history : List ViewedEntry) (hash : InfoHash) (index : ℕ) : Timecode :=
  match (history.filter fun entry => entry.torrent = hash).find? fun entry =>
    entry.file.oneBased = index with
  | some entry => entry.timecode
  | none => 0

/-- A request under way: what is left of it, and the history it listed. -/
structure ViewedTask where
  request : ViewedRequest
  body : M Unit
  listed : Option (List ViewedEntry)

/-- `history` lists the commands of the clients in the order in which they were carried out. -/
structure ViewedPool (σ : Type) where
  service : Service σ
  tasks : ℕ → Option ViewedTask
  history : List ViewedCommand

/-- A request comes in, or a request under way takes its next step, and ends once it has none. -/
inductive ViewedEvent (ε : Type) where
  | request (i : ℕ) (r : ViewedRequest)
  | step (i : ℕ) (answers : Activation → Answers ε)

/-- The history after an act, if it listed it. -/
def Act.listed : (a : Act) → a.Ans → Option (List ViewedEntry) → Option (List ViewedEntry)
  | .call _ .listViewed, x, old => match x with
    | .ok history => some history
    | .error _ => old
  | _, _, old => old

/-- The command that an act of the request carries out. -/
def ViewedRequest.carriesOut : ViewedRequest → (a : Act) → a.Ans → List ViewedCommand
  | .viewed command, .call _ (.setViewed _), x => match x with
    | .ok _ => [command]
    | .error _ => []
  | .viewed command, .call _ (.removeViewed _ _), x => match x with
    | .ok _ => [command]
    | .error _ => []
  | _, _, _ => []

/-- The stored position of a file, zero if there is none. -/
def State.position {δ : Type} (key : InfoHash × FileIndex) (s : State δ) : Timecode :=
  (s.viewed.lookup key).getD 0

namespace ViewedPool

variable {ε σ : Type} (ops : PieceStore ε σ) (http : Share.HttpConfig)

def start (s : Service σ) : ViewedPool σ := ⟨s, fun _ => none, []⟩

/-- What a request does next. It waits where the gate is held. -/
def advance (p : ViewedPool σ) (i : ℕ) (o : Activation → Answers ε) : ViewedPool σ :=
  match p.tasks i with
  | none => p
  | some ⟨r, .call a k, listed⟩ => match Service.act ops o a p.service with
    | (some x, s) =>
      ⟨s, update p.tasks i (some ⟨r, k x, a.listed x listed⟩), p.history ++ r.carriesOut a x⟩
    | (none, s) => { p with service := s }
  | some _ => { p with tasks := update p.tasks i none }

def step (p : ViewedPool σ) : ViewedEvent ε → Unit × ViewedPool σ
  | .request i r => match p.tasks i with
    | none => ((), { p with tasks := update p.tasks i (some ⟨r, r.body http, none⟩) })
    | some _ => ((), p)
  | .step i o => ((), p.advance ops i o)

def position (key : InfoHash × FileIndex) (p : ViewedPool σ) : Timecode :=
  p.service.world.state.position key

/-- What a command makes of the position of a file. -/
def commanded (key : InfoHash × FileIndex) (old : Timecode) : ViewedCommand → Timecode
  | .set hash index timecode =>
    if (hash, FileIndex.ofPosition (index - 1)) = key then timecode else old
  | .remove hash index =>
    if Covers hash (index.map fun index => FileIndex.ofPosition (index - 1)) key then 0 else old
  | .list _ => old

/-- The position of the last set since the last removal, zero if there is none. -/
def expected (key : InfoHash × FileIndex) (old : Timecode) (history : List ViewedCommand) :
    Timecode := history.foldl (commanded key) old

/-- The act writes back the listed position of the file, and that is no longer the stored one. -/
def WritesOld (key : InfoHash × FileIndex) (s : State Settings) (o : Activation → Answers ε)
    (listed : Option (List ViewedEntry)) : Act → Prop
  | .call caller (.setViewed entry) => (entry.torrent, entry.file) = key ∧
    (∃ history, listed = some history ∧ positionIn history key.1 key.2.oneBased ≠ s.position key) ∧
    (o caller).fails .setViewed = false ∧ entry.timecode.isFinite = true
  | _ => False

/-- A playback writes back the position that it listed after that was replaced. -/
def Stale (key : InfoHash × FileIndex) (p : ViewedPool σ) : ViewedEvent ε → Prop
  | .request _ _ => False
  | .step i o => ∃ headers torrent index a k listed,
    p.tasks i = some ⟨.play headers torrent index, .call a k, listed⟩ ∧
      WritesOld key p.service.world.state o listed a

end ViewedPool

/-! ### What a request asks of the history -/

namespace ViewedRequest

/-- The calls that a request may make, once it has listed the history. -/
def Allowed (listed : Option (List ViewedEntry)) : ViewedRequest → Call → Prop
  | .play _ _ _, .setViewed entry => ∃ history, listed = some history ∧
    entry.timecode = positionIn history entry.torrent entry.file.oneBased
  | .viewed (.set hash index timecode), .setViewed entry =>
    entry = ⟨hash, FileIndex.ofPosition (index - 1), timecode⟩
  | _, .setViewed _ => False
  | .viewed (.remove hash index), .removeViewed hash' file =>
    hash' = hash ∧ file = index.map fun index => FileIndex.ofPosition (index - 1)
  | _, .removeViewed _ _ => False
  | _, _ => True

/-- What each act asks while tracking is on, and the history it leaves. -/
def guard (r : ViewedRequest) : Prog.Spec Act Act.Ans (Option (List ViewedEntry))
  | .call caller c, listed, Q =>
    r.Allowed listed c ∧ ∀ x, Q x ((Act.call caller c).listed x listed)
  | .atomically _ f, listed, Q => ∀ t : TorrentCoordinator, t.settings.trackTimecode = true →
    (f t).2.settings = t.settings ∧ Q (f t).1 listed
  | _, listed, Q => ∀ x, Q x listed

/-- What is left of a request writes what it may. -/
def Orderly (r : ViewedRequest) {α : Type} (body : M α) (listed : Option (List ViewedEntry)) :
    Prop := Prog.wp r.guard body listed fun _ _ => True

end ViewedRequest

end Rustorr
