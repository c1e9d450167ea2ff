import Rustorr.Http.Share
import Rustorr.Lifecycle.AgreementRuns

/-! What a request without credentials leaves of the catalog and of the known
torrents: every part of a route keeps both, but for the add. -/

namespace Rustorr

open Lifecycle (Error)
open Prog (followed_ok followed_error)
open Service (spec act spec_monotone wp_call wp_fields wp_state wp_engine wp_update)

namespace Share

variable {ε σ α β : Type} {ops : PieceStore ε σ} {o : Activation → Answers ε}
variable {s s' s'' : Service σ}

/-- The torrent has a row in the catalog or a live entry. -/
def Known (s : Service σ) (hash : InfoHash) : Prop :=
  (s.world.state.torrents.lookup hash).isSome ∨ (s.world.fields.live.lookup hash).isSome

/-- What the database and the coordinator keep beside torrents and viewed files. -/
def preferences (s : Service σ) : Option Settings × Option WafLists × Settings :=
  (s.world.state.settings, s.world.state.waf, s.world.fields.settings)

/-- The catalog has the same rows, the same torrents are known, and nothing else of the
database differs but what was viewed. -/
structure Same (s s' : Service σ) : Prop where
  rows : ∀ hash, s'.world.state.torrents.lookup hash = s.world.state.torrents.lookup hash
  known : ∀ hash, Known s' hash ↔ Known s hash
  preferences : preferences s' = preferences s

theorem Same.refl (s : Service σ) : Same s s := ⟨fun _ => rfl, fun _ => Iff.rfl, rfl⟩

theorem Same.symm (h : Same s s') : Same s' s :=
  ⟨fun g => (h.rows g).symm, fun g => (h.known g).symm, h.preferences.symm⟩

theorem Same.trans (h : Same s s') (h' : Same s' s'') : Same s s'' :=
  ⟨fun g => (h'.rows g).trans (h.rows g), fun g => (h'.known g).trans (h.known g),
    h'.preferences.trans h.preferences⟩

/-- A step that keeps the rows, the live map and the preferences. -/
theorem Same.of_eq (h : Same s s') (hrows : s''.world.state.torrents = s'.world.state.torrents)
    (hlive : s''.world.fields.live = s'.world.fields.live)
    (hpreferences : Share.preferences s'' = Share.preferences s') : Same s s'' := by
  refine h.trans ⟨fun g => by rw [hrows], fun g => ?_, hpreferences⟩
  unfold Known
  rw [hrows, hlive]

/-- A known torrent goes live, or its live entry changes. -/
theorem Same.insertLive (h : Same s s') {hash : InfoHash} {live : LiveTorrent}
    (hknown : Known s' hash) (hrows : s''.world.state.torrents = s'.world.state.torrents)
    (hlive : s''.world.fields.live = s'.world.fields.live.insert hash live)
    (hpreferences : Share.preferences s'' = Share.preferences s') : Same s s'' := by
  refine h.trans ⟨fun g => by rw [hrows], fun g => ?_, hpreferences⟩
  unfold Known at hknown ⊢
  rw [hrows, hlive, Service.isSome_lookup_insert]
  by_cases hg : g = hash
  · rw [if_pos hg, hg]
    exact iff_of_true (Or.inr rfl) hknown
  · rw [if_neg hg]

/-! ### Programs that keep both -/

/-- The program keeps both, whatever it is answered. -/
def Keeps (ops : PieceStore ε σ) (o : Activation → Answers ε) (p : Coordinator.M α) : Prop :=
  ∀ s s' : Service σ, Same s s' → Prog.wp (spec ops o (Same s)) p s' fun _ => Same s

theorem Keeps.bind {p : Coordinator.M α} {f : α → Coordinator.M β} (hp : Keeps ops o p)
    (hf : ∀ a, Keeps ops o (f a)) : Keeps ops o (p >>= f) := by
  intro s s' h
  rw [Prog.wp_bind]
  refine Prog.wp_mono (spec_monotone ops o _) (fun r s'' h'' => ?_) (hp s s' h)
  cases r with
  | ok a => exact hf a s s'' h''
  | error e => exact h''

theorem keeps_pure (a : α) : Keeps ops o (pure a : Coordinator.M α) := fun _ _ h => h

theorem Keeps.attempt {p : Coordinator.M α} (hp : Keeps ops o p) : Keeps ops o p.attempt := by
  intro s s' h
  rw [Prog.wp_attempt]
  exact hp s s' h

/-- The calls that write what is kept. -/
def writesKept : Call → Bool
  | .saveTorrent _ _ | .removeTorrent _ | .setSettings _ | .setWafLists _ => true
  | _ => false

theorem answer_state {a : Answers ε} {c : Call} (hc : writesKept c = false) (w : World σ) :
    ∃ viewed, (w.answer ops a c).2.state = { w.state with viewed := viewed } := by
  cases c with
  | saveTorrent entry bytes => cases hc
  | removeTorrent hash => cases hc
  | setSettings settings => cases hc
  | setWafLists lists => cases hc
  | setViewed entry =>
    show ∃ viewed, (State.setViewed _ entry w.state).2 = _
    unfold State.setViewed
    split
    · exact ⟨_, rfl⟩
    · split <;> exact ⟨_, rfl⟩
  | removeViewed hash file =>
    show ∃ viewed, (State.removeViewed _ hash file w.state).2 = _
    unfold State.removeViewed
    split <;> exact ⟨_, rfl⟩
  | add source options =>
    show ∃ viewed, (w.add a).2.state = _
    unfold World.add
    split <;> exact ⟨_, rfl⟩
  | forget hash id =>
    show ∃ viewed, (w.forget hash id).state = _
    unfold World.forget
    split <;> exact ⟨_, rfl⟩
  | _ => exact ⟨_, rfl⟩

theorem answer_fields {a : Answers ε} (c : Call) (w : World σ) :
    (w.answer ops a c).2.fields = w.fields := by
  cases c with
  | add source options =>
    show (w.add a).2.fields = _
    unfold World.add
    split <;> rfl
  | forget hash id =>
    show (w.forget hash id).fields = _
    unfold World.forget
    split <;> rfl
  | _ => rfl

theorem same_answer {caller : Activation} {c : Call} (hc : writesKept c = false) (h : Same s s') :
    Same s (s'.setWorld (s'.world.answer ops (o caller) c).2) := by
  obtain ⟨viewed, hstate⟩ : ∃ viewed, (s'.world.answer ops (o caller) c).2.state =
    { s'.world.state with viewed := viewed } := answer_state hc s'.world
  have hfields : (s'.world.answer ops (o caller) c).2.fields = s'.world.fields :=
    answer_fields c s'.world
  refine h.of_eq ?_ ?_ ?_
  · show (s'.world.answer ops (o caller) c).2.state.torrents = _
    rw [hstate]
  · show (s'.world.answer ops (o caller) c).2.fields.live = _
    rw [hfields]
  · unfold preferences Service.setWorld
    rw [hstate, hfields]

theorem same_act {a : Act} (ha : a.Tame) (h : Same s s') : Same s (act ops o a s').2 := by
  cases a with
  | lock =>
    rw [Service.act_lock]
    split
    · exact h
    · exact h.of_eq rfl rfl rfl
  | call caller c =>
    have hc : writesKept c = false := by cases c <;> first | exact ha.elim | rfl
    exact same_answer hc h
  | atomically β f =>
    obtain ⟨hlive, hsettings⟩ := ha s'.world.fields
    refine h.of_eq rfl hlive ?_
    unfold preferences
    exact congrArg (fun settings => (s'.world.state.settings, s'.world.state.waf, settings)) hsettings
  | _ => exact h.of_eq rfl rfl rfl

theorem keeps_tame {p : Coordinator.M α} (hp : Coordinator.Tame p) : Keeps ops o p :=
  fun _ _ h => Prog.wp_of_every (act ops o) (fun _ _ ha hs => same_act ha hs) hp h

theorem keeps_call {caller : Activation} {c : Call} (hc : writesKept c = false) :
    Keeps ops o (Coordinator.call caller c) := fun _ _ h => same_answer hc h

theorem keeps_ofExcept (r : Except Error α) : Keeps ops o (Prog.ofExcept r : Coordinator.M α) :=
  keeps_tame (Prog.every_ofExcept r)

theorem keeps_withGate {body : Coordinator.M α} (hbody : Keeps ops o body) :
    Keeps ops o (Coordinator.withGate body) := by
  refine (keeps_tame (Coordinator.tame_act (a := .lock) trivial)).bind fun _ => ?_
  refine hbody.attempt.bind fun r => ?_
  exact (keeps_tame (Coordinator.tame_act (a := .unlock) trivial)).bind fun _ => keeps_ofExcept r

/-- Only a torrent with a row is revived. -/
theorem keeps_revive (hash : InfoHash) (metadata : TorrentMetadata) :
    Keeps ops o (Coordinator.revive hash metadata) := by
  intro s s' h
  unfold Coordinator.revive
  rw [Prog.wp_bind, wp_fields, followed_ok]
  split
  · exact h
  · rw [Prog.wp_bind, wp_call, followed_ok, Prog.wp_bind, wp_state]
    simp only [World.answer, State.torrent]
    cases (o (.load hash)).fails .torrent with
    | true => exact h
    | false =>
      cases hrow : s'.world.state.torrents.lookup hash with
      | none => exact h
      | some row =>
        have hknown : Known s' hash := Or.inl (by rw [hrow]; rfl)
        exact h.insertLive hknown rfl rfl rfl

theorem keeps_load (hash : InfoHash) : Keeps ops o (Coordinator.load hash) := by
  refine (keeps_call rfl).bind fun loaded => ?_
  split
  · exact keeps_pure ()
  · refine (keeps_call rfl).bind fun found => (keeps_ofExcept _).bind fun metainfo => ?_
    refine (keeps_tame (Coordinator.tame_okOr _ _)).bind fun metainfo => ?_
    refine (keeps_tame (Coordinator.tame_fields _)).bind fun peers => ?_
    refine (keeps_call rfl).bind fun trackers => (keeps_call rfl).bind fun added => ?_
    refine (keeps_ofExcept _).bind fun metadata => ?_
    split
    · exact fun _ _ h => h
    · exact (keeps_revive _ _).bind fun _ =>
        keeps_tame (Coordinator.tame_atomically fun _ => ⟨rfl, rfl⟩)

theorem tame_getView (hash : InfoHash) : Coordinator.Tame (Coordinator.getView hash) := by
  refine Coordinator.tame_bind (Coordinator.tame_fields _) fun found => ?_
  split
  · trivial
  · exact Coordinator.tame_bind ⟨trivial, fun _ => trivial⟩ fun _ =>
      Coordinator.tame_bind (Prog.every_ofExcept _) fun _ => trivial

theorem tame_listViewed (hash : Option InfoHash) :
    Coordinator.Tame (Coordinator.listViewed hash) :=
  Coordinator.tame_bind ⟨trivial, fun _ => trivial⟩ fun _ =>
    Coordinator.tame_bind (Prog.every_ofExcept _) fun _ => trivial

theorem tame_setViewed (hash : InfoHash) (index : ℕ) (timecode : Timecode) :
    Coordinator.Tame (Coordinator.setViewed hash index timecode) := by
  refine Coordinator.tame_bind ?_ fun file => ?_
  · unfold Coordinator.checkedIndex
    split <;> trivial
  · refine Coordinator.tame_bind (Coordinator.tame_fields _) fun readOnly => ?_
    split
    · trivial
    · refine Coordinator.tame_bind (Coordinator.tame_fields _) fun tracked => ?_
      exact Coordinator.tame_bind ⟨trivial, fun _ => trivial⟩ fun r => Prog.every_ofExcept _

theorem keeps_playback (hash : InfoHash) (index offset : ℕ) (stop prefetchOffset : Option ℕ) :
    Keeps ops o (Coordinator.playback hash index offset stop prefetchOffset) := by
  refine (keeps_tame (tame_getView hash)).bind fun found => ?_
  refine (keeps_tame (Coordinator.tame_okOr _ _)).bind fun view => ?_
  refine (keeps_tame (Coordinator.tame_okOr _ _)).bind fun file => keeps_withGate ?_
  refine (keeps_tame (Coordinator.tame_stopIdleDetachLocked hash)).bind fun _ => ?_
  exact (keeps_load hash).bind fun _ => keeps_tame (Coordinator.tame_open _ _ _ _ _)

/-! ### The parts of the routes after the add -/

theorem keeps_failed (error : Error) : Keeps ops o (failed error) := keeps_pure _

theorem keeps_touchViewed (hash : InfoHash) (index : ℕ) : Keeps ops o (touchViewed hash index) :=
  (keeps_tame (tame_listViewed _)).bind fun _ => keeps_tame (tame_setViewed _ _ _)

theorem keeps_playRange (hash : InfoHash) (index : ℕ) (range : Range.ByteRange)
    (answer : Response) : Keeps ops o (playRange hash index range answer) := by
  refine (keeps_playback hash index _ _ _).attempt.bind fun r => ?_
  cases r with
  | ok reader => exact keeps_pure answer
  | error e => exact keeps_failed e

theorem keeps_playParts (hash : InfoHash) (index : ℕ) (ranges : List Range.ByteRange) :
    Keeps ops o (playParts hash index ranges) := by
  induction ranges with
  | nil => exact keeps_pure ()
  | cons range rest ih =>
    refine (keeps_playback hash index _ _ _).attempt.bind fun r => ?_
    cases r with
    | ok reader => exact ih
    | error e => exact keeps_pure ()

theorem keeps_playRanges (headers : Headers) (hash : InfoHash) (index length : ℕ)
    (value : Option (List Char)) : Keeps ops o (playRanges headers hash index length value) := by
  unfold playRanges
  split
  · exact keeps_playRange _ _ _ _
  · split
    · exact keeps_pure _
    · exact keeps_playRange _ _ _ _
    · unfold multipartResponse
      split
      · exact keeps_pure _
      · exact (keeps_playParts _ _ _).bind fun _ => keeps_pure _

theorem keeps_rawPlayback (http : HttpConfig) (headers : Headers) (torrent : LiveTorrent)
    (index : ℕ) : Keeps ops o (rawPlayback http headers torrent index) := by
  unfold rawPlayback
  split
  · exact keeps_pure _
  · split
    · exact keeps_pure _
    · unfold playFile
      dsimp only
      split
      · exact keeps_pure _
      · split
        · exact keeps_pure _
        · refine (keeps_touchViewed _ _).attempt.bind fun r => ?_
          cases r with
          | ok u => exact keeps_playRanges _ _ _ _ _
          | error e => exact keeps_failed e

theorem keeps_individualPlaylist (headers : Headers) (fname : Option (List Char)) (q : Query)
    (torrent : LiveTorrent) : Keeps ops o (individualPlaylist headers fname q torrent) := by
  refine (keeps_tame (tame_listViewed _)).attempt.bind fun r => ?_
  cases r with
  | error e => exact keeps_failed e
  | ok viewed =>
    dsimp only
    split <;> exact keeps_pure _

theorem keeps_streamAdded (http : HttpConfig) (headers : Headers) (fname : Option (List Char))
    (q : Query) (torrent : LiveTorrent) :
    Keeps ops o (streamAdded http headers fname q torrent) := by
  have hpreload : Keeps ops o (preload q torrent) := by
    unfold preload
    split
    · exact ((keeps_playback _ _ _ _ _).bind fun _ => keeps_pure ()).attempt
    · exact keeps_pure _
  refine hpreload.bind fun r => ?_
  cases r with
  | error e => exact keeps_failed e
  | ok u =>
    dsimp only
    split
    · refine (keeps_tame (tame_getView _)).attempt.bind fun found => ?_
      split <;> exact keeps_pure _
    · split
      · exact keeps_individualPlaylist _ _ _ _
      · split
        · exact keeps_rawPlayback _ _ _ _
        · exact keeps_pure _

end Share

end Rustorr
