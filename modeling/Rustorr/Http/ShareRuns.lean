import Rustorr.Http.ShareFrame

/-! Runs of requests without credentials: exactly when they leave the catalog and
the known torrents as they were. -/

namespace Rustorr

open Lifecycle (Error)
open Prog (followed_ok followed_error)
open Service (spec act spec_monotone wp_call wp_fields wp_state wp_engine wp_update sourceHashOf)
open Coordinator (withDefaultData liveOf entryOf)

namespace Share

variable {ε σ α β : Type} {ops : PieceStore ε σ} {o : Activation → Answers ε}
variable {s s' s'' : Service σ}

/-! ### Saving -/

/-- The row that saving a live torrent writes, with the time in whole seconds. -/
def rowOf (live : LiveTorrent) (seconds : ℕ) : CatalogEntry × List UInt8 :=
  ({ entryOf live with addedAt := State.systemTime seconds }, live.metadata.metainfo)

/-- The catalog takes the row: its time and its size fit and the database does not fail. -/
def Accepts (a : Answers ε) (live : LiveTorrent) (seconds : ℕ) : Prop :=
  State.unixSeconds live.addedAt = .ok seconds ∧ (entryOf live).size < 2 ^ 63 ∧
    a.fails .saveTorrent = false

/-- Saving changes no row. -/
def SaveHarmless (a : Answers ε) (live : LiveTorrent) (s : Service σ) : Prop :=
  ∀ seconds, Accepts a live seconds →
    s.world.state.torrents.lookup live.metadata.hash = some (rowOf live seconds)

theorem saveTorrent_of_accepts {a : Answers ε} {live : LiveTorrent} {seconds : ℕ}
    (h : Accepts a live seconds) (db : State Settings) :
    db.saveTorrent (a.fails .saveTorrent) (entryOf live) live.metadata.metainfo =
      (.ok (), { db with
        torrents := db.torrents.insert live.metadata.hash (rowOf live seconds) }) := by
  obtain ⟨htime, hsize, hfails⟩ := h
  unfold State.saveTorrent
  rw [show (entryOf live).addedAt = live.addedAt from rfl, htime]
  dsimp only
  rw [if_neg (not_le.mpr hsize), hfails, if_neg Bool.false_ne_true]
  rfl

theorem saveTorrent_of_not_accepts {a : Answers ε} {live : LiveTorrent}
    (h : ∀ seconds, ¬Accepts a live seconds) (db : State Settings) :
    ∃ e, db.saveTorrent (a.fails .saveTorrent) (entryOf live) live.metadata.metainfo =
      (.error e, db) := by
  unfold State.saveTorrent
  rw [show (entryOf live).addedAt = live.addedAt from rfl]
  cases htime : State.unixSeconds live.addedAt with
  | error e => exact ⟨e, rfl⟩
  | ok seconds =>
    dsimp only
    split
    · exact ⟨_, rfl⟩
    · next hsize =>
      split
      · exact ⟨_, rfl⟩
      · next hfails =>
        exact absurd ⟨htime, not_le.mp hsize, Bool.eq_false_iff.mpr hfails⟩ (h seconds)

/-- The service once the catalog has taken the row of a live torrent. -/
def saved (live : LiveTorrent) (seconds : ℕ) (s : Service σ) : Service σ :=
  s.setState { s.world.state with
    torrents := s.world.state.torrents.insert live.metadata.hash (rowOf live seconds) }

/-- Saving a row changes nothing exactly if the row is there. -/
theorem same_saved_iff (live : LiveTorrent) (seconds : ℕ) (s : Service σ) :
    Same s (saved live seconds s) ↔
      s.world.state.torrents.lookup live.metadata.hash = some (rowOf live seconds) := by
  constructor
  · intro h
    have hlook := h.rows live.metadata.hash
    unfold saved Service.setState Service.setWorld at hlook
    rw [AList.lookup_insert] at hlook
    exact hlook.symm
  · intro h
    have hlook : ∀ g, (saved live seconds s).world.state.torrents.lookup g =
        s.world.state.torrents.lookup g := by
      intro g
      unfold saved Service.setState Service.setWorld
      by_cases hg : g = live.metadata.hash
      · rw [hg, AList.lookup_insert, h]
      · rw [AList.lookup_insert_ne hg]
    refine ⟨hlook, fun g => ?_, rfl⟩
    unfold Known
    rw [hlook]
    rfl

theorem known_saved (live : LiveTorrent) (seconds : ℕ) (s : Service σ) :
    Known (saved live seconds s) live.metadata.hash := by
  unfold Known saved Service.setState Service.setWorld
  rw [AList.lookup_insert]
  exact Or.inl rfl

theorem saveHarmless_iff {a : Answers ε} {live : LiveTorrent} {seconds : ℕ}
    (h : Accepts a live seconds) :
    SaveHarmless a live s ↔
      s.world.state.torrents.lookup live.metadata.hash = some (rowOf live seconds) := by
  constructor
  · exact fun hall => hall seconds h
  · intro hrow seconds' h'
    have hsame := h.1.symm.trans h'.1
    cases hsame
    exact hrow

theorem wp_persist_iff {W : Service σ → Prop} {caller : Activation} {live : LiveTorrent}
    {Q : Except Error Unit → Service σ → Prop}
    (hskipped : s.world.fields.readOnly = true → Q (.ok ()) s)
    (hsaved : s.world.fields.readOnly = false → ∀ seconds, Accepts (o caller) live seconds →
      Q (.ok ()) (saved live seconds s))
    (hfails : s.world.fields.readOnly = false → (∀ seconds, ¬Accepts (o caller) live seconds) →
      ∀ e, Q (.error e) s) :
    Prog.wp (spec ops o W) (Coordinator.persist caller live) s Q := by
  unfold Coordinator.persist
  rw [Prog.wp_bind, wp_fields, followed_ok]
  split
  · next hro => exact hskipped hro
  · next hro =>
    have hro' := Bool.eq_false_iff.mpr hro
    rw [Prog.wp_bind, wp_call, followed_ok, wp_state]
    simp only [World.answer]
    by_cases hacc : ∃ seconds, Accepts (o caller) live seconds
    · obtain ⟨seconds, hacc⟩ := hacc
      rw [saveTorrent_of_accepts hacc]
      exact hsaved hro' seconds hacc
    · rw [not_exists] at hacc
      obtain ⟨e, he⟩ := saveTorrent_of_not_accepts hacc s.world.state
      rw [he]
      exact hfails hro' hacc _

/-! ### Adding -/

/-- A torrent that is live already is saved only if it has no row. -/
def LiveHarmless (a : Answers ε) (request : AddTorrent) (hash : InfoHash) (live : LiveTorrent)
    (s : Service σ) : Prop :=
  request.saveToDb = true → s.world.fields.readOnly = false → a.fails .torrent = false →
    s.world.state.torrents.lookup hash = none → SaveHarmless a (withDefaultData live) s

/-- What the engine is given is read from the catalog where it can be. -/
def SourceRead (a : Answers ε) (source : TorrentSource) : Prop :=
  (sourceHashOf a source).isSome → (∀ bytes, source ≠ .torrentBytes bytes) →
    a.fails .metainfo = false

/-- A torrent that the engine adds: where it is saved its row is there, and where it
is not saved it is known. -/
def NewHarmless (a : Answers ε) (request : AddTorrent) (source : TorrentSource)
    (s : Service σ) : Prop :=
  SourceRead a source → ∀ metadata id, a.add = .ok (metadata, id) → a.fails .torrent = false →
    let existing := (s.world.state.torrents.lookup metadata.hash).map Prod.fst
    if request.saveToDb = true ∧ s.world.fields.readOnly = false then
      SaveHarmless a (withDefaultData (liveOf request metadata existing a.now)) s
    else Known s metadata.hash

def AddHarmless (o : Activation → Answers ε) (request : AddTorrent) (source : TorrentSource)
    (s : Service σ) : Prop :=
  s.gate = false →
    match (sourceHashOf (o .addSource) source).bind fun hash =>
      (s.world.fields.live.lookup hash).map (Prod.mk hash) with
    | some (hash, live) => LiveHarmless (o .addSource) request hash live s
    | none => NewHarmless (o .addSource) request source s

/-- The state and the result are those of a run that changed something exactly if
`P` does not hold. -/
abbrev SameIff (s : Service σ) (P : Prop) (s' : Service σ) : Prop := Same s s' ↔ P

theorem sameIff_of (h : Same s s') {P : Prop} (hP : P) : SameIff s P s' := iff_of_true h hP

/-- Only the worlds are looked at. -/
theorem sameIff_of_worlds {t t' : Service σ} {P : Prop} (hs : t.world = s.world)
    (hs' : t'.world = s'.world) (h : SameIff t P t') : SameIff s P s' := by
  have hsame : Same s t := (Same.refl s).of_eq (by rw [hs]) (by rw [hs])
    (by unfold preferences; rw [hs])
  have hsame' : Same t' s' := (Same.refl t').of_eq (by rw [hs']) (by rw [hs'])
    (by unfold preferences; rw [hs'])
  exact ⟨fun h' => h.mp (hsame.symm.trans (h'.trans hsame'.symm)),
    fun hP => hsame.trans ((h.mpr hP).trans hsame')⟩

theorem wp_addLive_iff {W : Service σ → Prop} {request : AddTorrent} {hash : InfoHash}
    {live : LiveTorrent} (hW : ∀ s', SameIff s (LiveHarmless (o .addSource) request hash live s) s' →
      W s') :
    Prog.wp (spec ops o W) (Coordinator.addLive request hash live) s
      fun _ s' => SameIff s (LiveHarmless (o .addSource) request hash live s) s' := by
  have hsame := Same.refl s
  unfold Coordinator.addLive
  split
  · next hsave =>
    rw [Prog.wp_bind, wp_call, followed_ok, Prog.wp_bind, wp_state]
    simp only [World.answer, State.torrent]
    cases hf : (o .addSource).fails .torrent with
    | true => exact sameIff_of hsame fun _ _ h => by rw [hf] at h; cases h
    | false =>
      simp only [Bool.false_eq_true, if_false, Except.mapError, followed_ok]
      cases hrow : s.world.state.torrents.lookup hash with
      | some row => exact sameIff_of hsame fun _ _ _ h => by rw [hrow] at h; cases h
      | none =>
        show Prog.wp _ (Coordinator.persist .addSource (withDefaultData live) >>= _) s _
        rw [Prog.wp_bind]
        refine wp_persist_iff (fun hro => ?_) (fun hro seconds hacc => ?_) fun hro hnot e => ?_
        · exact hW s (sameIff_of hsame fun _ hro' => by rw [hro] at hro'; cases hro')
        · -- the row is written, then the second lock of the live map waits for ever
          refine hW _ ((same_saved_iff (withDefaultData live) seconds s).trans ?_)
          rw [← saveHarmless_iff hacc]
          exact ⟨fun h _ _ _ _ => h, fun h => h hsave hro hf hrow⟩
        · exact sameIff_of hsame fun _ _ _ _ seconds hacc => absurd hacc (hnot seconds)
  · next hsave => exact sameIff_of hsame fun h => absurd h hsave

theorem wp_savedSource_same {W : Service σ → Prop} {source : TorrentSource}
    {Q : Except Error TorrentSource → Service σ → Prop}
    (hok : SourceRead (o .addSource) source → ∀ source, Q (.ok source) s)
    (hfails : ¬SourceRead (o .addSource) source → ∀ e, Q (.error e) s) :
    Prog.wp (spec ops o W)
      (Coordinator.savedSource source (sourceHashOf (o .addSource) source)) s Q := by
  unfold Coordinator.savedSource
  split
  · next hnone => exact hok (fun hsome => by rw [hnone] at hsome; cases hsome) _
  · next hash hhash =>
    split
    · next bytes => exact hok (fun _ hne => absurd rfl (hne bytes)) _
    · next hnot =>
      rw [Prog.wp_bind, wp_call, followed_ok, Prog.wp_bind, wp_state]
      simp only [World.answer, State.metainfo]
      cases hm : (o .addSource).fails .metainfo with
      | true =>
        refine hfails (fun hread => ?_) _
        have hm' := hread (by rw [hhash]; rfl) fun bytes hb => hnot bytes hb
        rw [hm] at hm'
        cases hm'
      | false =>
        simp only [Bool.false_eq_true, if_false, Except.mapError, followed_ok]
        split
        · exact hok (fun _ _ => hm) _
        · exact hok (fun _ _ => hm) _

/-- The torrent goes live, saved before that or not. -/
theorem wp_stored_iff {W : Service σ → Prop} (request : AddTorrent) (live : LiveTorrent) :
    Prog.wp (spec ops o W) (do
      let stored ← Coordinator.storedOf request live
      Coordinator.insertLive live.metadata.hash stored
      pure live) s fun _ => SameIff s
        (if request.saveToDb = true ∧ s.world.fields.readOnly = false then
          SaveHarmless (o .addSource) (withDefaultData live) s
        else Known s live.metadata.hash) := by
  have hsame := Same.refl s
  have hlive : ∀ live', SameIff s (Known s live.metadata.hash) (s.setFields { s.world.fields with
      live := s.world.fields.live.insert live.metadata.hash live' }) := by
    intro live'
    constructor
    · intro h
      refine (h.known live.metadata.hash).mp (Or.inr ?_)
      unfold Service.setFields Service.setWorld
      rw [AList.lookup_insert]
      rfl
    · exact fun hknown => hsame.insertLive hknown rfl rfl rfl
  rw [Prog.wp_bind]
  unfold Coordinator.storedOf
  by_cases hsave : request.saveToDb = true
  · rw [if_pos hsave, Prog.wp_bind]
    refine wp_persist_iff (fun hro => ?_) (fun hro seconds hacc => ?_) fun hro hnot e => ?_
    · rw [if_neg (fun h => by rw [hro] at h; cases h.2)]
      exact hlive _
    · rw [if_pos ⟨hsave, hro⟩, saveHarmless_iff hacc, ← same_saved_iff]
      -- the torrent is known by its row when it goes live
      have hknown : Known (saved (withDefaultData live) seconds s) live.metadata.hash := by
        rw [← Coordinator.withDefaultData_metadata live]
        exact known_saved _ seconds s
      have hrest : Same (saved (withDefaultData live) seconds s)
          ((saved (withDefaultData live) seconds s).setFields { s.world.fields with
            live := s.world.fields.live.insert live.metadata.hash (withDefaultData live) }) :=
        (Same.refl _).insertLive hknown rfl rfl rfl
      exact ⟨fun h => h.trans hrest.symm, fun h => h.trans hrest⟩
    · rw [if_pos ⟨hsave, hro⟩]
      exact sameIff_of hsame fun seconds hacc => absurd hacc (hnot seconds)
  · rw [if_neg hsave, if_neg fun h => hsave h.1]
    exact hlive _

theorem sameIff_of_same {P : Prop} (h : Same s s') (h' : SameIff s' P s'') : SameIff s P s'' :=
  ⟨fun hs => h'.mp (h.symm.trans hs), fun hP => h.trans (h'.mpr hP)⟩

/-- What follows the engine's add. The engine's registry and the peers of the torrent
are all that differs before it. -/
theorem wp_added_iff {W : Service σ → Prop} {request : AddTorrent} {source : TorrentSource}
    {metadata : TorrentMetadata} {id : ℕ} (hread : SourceRead (o .addSource) source)
    (ha : (o .addSource).add = .ok (metadata, id)) (hstate : s'.world.state = s.world.state)
    (hlive : s'.world.fields.live = s.world.fields.live)
    (hro : s'.world.fields.readOnly = s.world.fields.readOnly)
    (hsettings : s'.world.fields.settings = s.world.fields.settings) :
    Prog.wp (spec ops o W) (do
      let existing ← Coordinator.state (← Coordinator.call .addSource (.torrent metadata.hash))
      let now ← Coordinator.call .addSource .now
      let live := liveOf request metadata existing now
      let stored ← Coordinator.storedOf request live
      Coordinator.insertLive metadata.hash stored
      pure live) s' fun _ => SameIff s (NewHarmless (o .addSource) request source s) := by
  have hpreferences : preferences s' = preferences s := by
    unfold preferences
    rw [hstate, hsettings]
  have hsame : Same s s' := (Same.refl s).of_eq (congrArg _ hstate) hlive hpreferences
  rw [Prog.wp_bind, wp_call, followed_ok, Prog.wp_bind, wp_state]
  simp only [World.answer, State.torrent]
  cases hf : (o .addSource).fails .torrent with
  | true => exact sameIff_of hsame fun _ _ _ _ h => by rw [hf] at h; cases h
  | false =>
    simp only [Bool.false_eq_true, if_false, Except.mapError, followed_ok]
    rw [Prog.wp_bind, wp_call, followed_ok]
    refine Prog.wp_mono (spec_monotone ops o W) (fun r s'' h => sameIff_of_same hsame ?_)
      (wp_stored_iff request (liveOf request metadata
        ((s'.world.state.torrents.lookup metadata.hash).map Prod.fst) (o .addSource).now))
    have hharmless : NewHarmless (o .addSource) request source s ↔
        if request.saveToDb = true ∧ s'.world.fields.readOnly = false then
          SaveHarmless (o .addSource) (withDefaultData (liveOf request metadata
            ((s'.world.state.torrents.lookup metadata.hash).map Prod.fst) (o .addSource).now)) s'
        else Known s' metadata.hash := by
      unfold SaveHarmless Known
      rw [hstate, hlive, hro]
      constructor
      · exact fun hP => hP hread metadata id ha hf
      · intro hP hread' metadata' id' ha' hf'
        rw [ha] at ha'
        cases ha'
        exact hP
    exact Iff.trans h hharmless.symm

theorem wp_addNew_iff {W : Service σ → Prop} (request : AddTorrent) (source : TorrentSource) :
    Prog.wp (spec ops o W)
      (Coordinator.addNew request source (sourceHashOf (o .addSource) source)) s
      fun _ => SameIff s (NewHarmless (o .addSource) request source s) := by
  have hsame := Same.refl s
  unfold Coordinator.addNew
  rw [Prog.wp_bind]
  refine wp_savedSource_same (fun hread source' => ?_) fun hnot e =>
    sameIff_of hsame fun hread => absurd hread hnot
  rw [followed_ok, Prog.wp_bind, wp_fields, followed_ok, Prog.wp_bind, wp_call, followed_ok]
  show Prog.wp _ _ s _
  rw [Prog.wp_bind, wp_call, followed_ok, Prog.wp_bind, wp_engine]
  simp only [World.answer, World.add]
  cases ha : (o .addSource).add with
  | error e => exact sameIff_of hsame fun _ _ _ h => by rw [ha] at h; cases h
  | ok added =>
    simp only [Except.mapError, followed_ok]
    unfold Coordinator.forgetPeers
    rw [Prog.wp_bind, wp_update, followed_ok]
    exact wp_added_iff hread ha rfl rfl rfl rfl

/-- An add leaves the catalog and the known torrents exactly if it is harmless. -/
theorem wp_addSource_iff (request : AddTorrent) (source : TorrentSource) :
    Prog.wp (spec ops o (SameIff s (AddHarmless o request source s)))
      (Coordinator.addSource request source) s
      fun _ => SameIff s (AddHarmless o request source s) := by
  have hsame := Same.refl s
  refine Service.wp_withGate ops o (fun hg => sameIff_of hsame fun hg' => ?_) fun hg => ?_
  · rw [hg] at hg'
    cases hg'
  rw [Prog.wp_bind, wp_call, followed_ok, Prog.wp_bind, wp_fields, followed_ok]
  show Prog.wp _ (match (sourceHashOf (o .addSource) source).bind fun hash =>
    (s.world.fields.live.lookup hash).map (Prod.mk hash) with
    | some (hash, live) => Coordinator.addLive request hash live
    | none => Coordinator.addNew request source (sourceHashOf (o .addSource) source)) s.locked _
  have hharmless : AddHarmless o request source s ↔
      match (sourceHashOf (o .addSource) source).bind fun hash =>
        (s.world.fields.live.lookup hash).map (Prod.mk hash) with
      | some (hash, live) => LiveHarmless (o .addSource) request hash live s
      | none => NewHarmless (o .addSource) request source s :=
    ⟨fun h => h hg, fun h _ => h⟩
  have hfree : ∀ (P : Prop) (s' s'' : Service σ), (AddHarmless o request source s ↔ P) →
      s'.world = s''.world → SameIff s.locked P s' →
      SameIff s (AddHarmless o request source s) s'' := fun P s' s'' hP hw h =>
    sameIff_of_worlds (t := s.locked) rfl hw (Iff.trans h hP.symm)
  cases hfound : (sourceHashOf (o .addSource) source).bind fun hash =>
      (s.world.fields.live.lookup hash).map (Prod.mk hash) with
  | some found =>
    obtain ⟨hash, live⟩ := found
    rw [hfound] at hharmless
    exact Prog.wp_mono (spec_monotone ops o _) (fun r s' h => hfree _ s' _ hharmless rfl h)
      (wp_addLive_iff fun s' h => hfree _ s' s' hharmless rfl h)
  | none =>
    rw [hfound] at hharmless
    exact Prog.wp_mono (spec_monotone ops o _) (fun r s' h => hfree _ s' _ hharmless rfl h)
      (wp_addNew_iff (s := s.locked) request source)

/-! ### The routes -/

/-- What an add leaves is what the whole route leaves. -/
theorem wp_bind_keeps {p : Coordinator.M α} {f : α → Coordinator.M β} {P : Prop}
    (hp : Prog.wp (spec ops o (SameIff s P)) p s fun _ => SameIff s P)
    (hf : ∀ a, Keeps ops o (f a)) :
    Prog.wp (spec ops o (SameIff s P)) (p >>= f) s fun _ => SameIff s P := by
  rw [Prog.wp_bind]
  refine Prog.wp_mono (spec_monotone ops o _) (fun r s' h => ?_) hp
  have hrest : ∀ s'', Same s' s'' → SameIff s P s'' := fun s'' h' =>
    ⟨fun hs => h.mp (hs.trans h'.symm), fun hP => (h.mpr hP).trans h'⟩
  cases r with
  | ok a =>
    exact Prog.wp_waiting (act ops o) hrest (fun _ => hrest) (hf a s' s' (Same.refl s'))
  | error e => exact h

/-- The coordinator shows a torrent for the hash. -/
def Shown (o : Activation → Answers ε) (hash : InfoHash) (s : Service σ) : Prop :=
  (s.world.fields.live.lookup hash).isSome ∨
    (o .views).fails .torrent = false ∧ (s.world.state.torrents.lookup hash).isSome

theorem wp_isShown {W : Service σ → Prop} {hash : InfoHash}
    {Q : Except Error Bool → Service σ → Prop} (hyes : Shown o hash s → Q (.ok true) s)
    (hno : ¬Shown o hash s → Q (.ok false) s) :
    Prog.wp (spec ops o W) (isShown hash) s Q := by
  unfold isShown Coordinator.getView
  rw [Prog.wp_bind, Prog.wp_attempt, Prog.wp_bind, wp_fields, followed_ok]
  cases hlive : s.world.fields.live.lookup hash with
  | some live => exact hyes (Or.inl (by rw [hlive]; rfl))
  | none =>
    have hdead : ¬(s.world.fields.live.lookup hash).isSome = true := by
      rw [hlive]
      exact Bool.false_ne_true
    dsimp only
    rw [Prog.wp_bind, wp_call, followed_ok, Prog.wp_bind, wp_state]
    simp only [World.answer, State.torrent]
    cases hf : (o .views).fails .torrent with
    | true =>
      refine hno ?_
      rintro (h | h)
      · exact hdead h
      · rw [hf] at h
        cases h.1
    | false =>
      cases hrow : s.world.state.torrents.lookup hash with
      | some row => exact hyes (Or.inr ⟨hf, by rw [hrow]; rfl⟩)
      | none =>
        refine hno ?_
        rintro (h | h)
        · exact hdead h
        · rw [hrow] at h
          cases h.2

/-- The link is read as the hash of a torrent that is shown. -/
def LinkShown (out : Outside) (o : Activation → Answers ε) (link : List Char) (s : Service σ) :
    Prop := ∃ hash, Link.linkInfoHash out.zlib link = some hash ∧ Shown o hash s

theorem wp_shareableLinkExists {W : Service σ → Prop} {out : Outside} {link : List Char}
    {Q : Except Error Bool → Service σ → Prop} (hyes : LinkShown out o link s → Q (.ok true) s)
    (hno : ¬LinkShown out o link s → Q (.ok false) s) :
    Prog.wp (spec ops o W) (shareableLinkExists out link) s Q := by
  unfold shareableLinkExists
  cases hlink : Link.linkInfoHash out.zlib link with
  | none =>
    refine hno ?_
    rintro ⟨hash, hhash, -⟩
    rw [hlink] at hhash
    cases hhash
  | some hash =>
    refine wp_isShown (fun h => hyes ⟨hash, hlink, h⟩) fun h => hno ?_
    rintro ⟨hash', hhash', hshown⟩
    rw [hlink] at hhash'
    cases hhash'
    exact h hshown

/-- The source that a link is turned into is harmless to add. -/
def LinkHarmless (out : Outside) (o : Activation → Answers ε) (link : List Char)
    (request : AddTorrent) (s : Service σ) : Prop :=
  match Link.addTorrent out.zlib link request with
  | (request, .file path) =>
    ∀ bytes, out.readFile path = some bytes → AddHarmless o request (.torrentBytes bytes) s
  | (request, .magnet text) => AddHarmless o request (.magnet (String.ofList text)) s
  | (request, .url link) => AddHarmless o request (.url (String.ofList link)) s

theorem wp_addLink_iff (out : Outside) (link : List Char) (request : AddTorrent) :
    Prog.wp (spec ops o (SameIff s (LinkHarmless out o link request s)))
      (addLink out link request) s fun _ => SameIff s (LinkHarmless out o link request s) := by
  unfold addLink LinkHarmless
  rcases Link.addTorrent out.zlib link request with ⟨request, path | text | link⟩
  · dsimp only
    cases hfile : out.readFile path with
    | none => exact sameIff_of (Same.refl s) fun bytes h => by cases h
    | some bytes =>
      have hbytes : (∀ bytes', some bytes = some bytes' →
          AddHarmless o request (.torrentBytes bytes') s) ↔
          AddHarmless o request (.torrentBytes bytes) s :=
        ⟨fun h => h bytes rfl, fun h bytes' hb => by cases hb; exact h⟩
      rw [hbytes]
      exact wp_bind_keeps (wp_addSource_iff request _) fun _ => keeps_pure _
  · exact wp_bind_keeps (wp_addSource_iff request _) fun _ => keeps_pure _
  · exact wp_bind_keeps (wp_addSource_iff request _) fun _ => keeps_pure _

/-- A request without credentials is harmless if it is refused before the add, or if
the add is. -/
def Route.Harmless (out : Outside) (o : Activation → Answers ε) (s : Service σ) : Route → Prop
  | .stream _ q =>
    let link := (q.get "link").getD []
    link ≠ [] → (q.containsKey "play" || q.containsKey "m3u") = true → LinkShown out o link s →
      LinkHarmless out o link (streamRequest q) s
  | .play hash _ => ∀ h, InfoHash.fromStr hash = .ok h → Shown o h s →
    LinkHarmless out o h.toText plainAdd s
  | .playlist _ q => ∀ h, (q.get "hash").map InfoHash.fromStr = some (.ok h) →
    LinkHarmless out o h.toText plainAdd s

section routes

variable {out : Outside} {http : HttpConfig} {headers : Headers}

theorem wp_refused {W : Service σ → Prop} {q : Query} {link : List Char}
    {Q : Except Error Bool → Service σ → Prop} (hauth : http.authEnabled = true)
    (hun : headers.authorized = false)
    (hyes : ¬((q.containsKey "play" || q.containsKey "m3u") = true ∧ LinkShown out o link s) →
      Q (.ok true) s)
    (hno : (q.containsKey "play" || q.containsKey "m3u") = true → LinkShown out o link s →
      Q (.ok false) s) :
    Prog.wp (spec ops o W) (refused out http headers q link) s Q := by
  unfold refused
  rw [hauth, hun]
  by_cases hplay : (q.containsKey "play" || q.containsKey "m3u") = true
  · rw [if_pos (show (true && !false) = true from rfl), if_pos hplay, Prog.wp_bind]
    exact wp_shareableLinkExists (fun h => hno hplay h) fun h => hyes fun h' => h h'.2
  · rw [if_pos (show (true && !false) = true from rfl), if_neg hplay]
    exact hyes fun h => hplay h.1

/-- The torrent of a hash is added, and what follows keeps everything. -/
theorem wp_addHash_iff {hash : InfoHash} {f : Option LiveTorrent → Coordinator.M α}
    (hf : ∀ a, Keeps ops o (f a)) :
    Prog.wp (spec ops o (SameIff s (LinkHarmless out o hash.toText plainAdd s)))
      (addHash out hash >>= f) s
      fun _ => SameIff s (LinkHarmless out o hash.toText plainAdd s) := by
  refine wp_bind_keeps ?_ hf
  unfold addHash
  refine wp_bind_keeps ?_ fun r => ?_
  · rw [Prog.wp_attempt]
    exact wp_addLink_iff out hash.toText plainAdd
  · cases r <;> exact keeps_pure _

theorem wp_route_iff (hauth : http.authEnabled = true) (hun : headers.authorized = false)
    (route : Route) :
    Prog.wp (spec ops o (SameIff s (route.Harmless out o s))) (route.handle out http headers) s
      fun _ => SameIff s (route.Harmless out o s) := by
  have hsame := Same.refl s
  cases route with
  | stream fname q =>
    show Prog.wp _ (Share.stream out http headers fname q) s _
    unfold Share.stream
    dsimp only
    split
    · next hempty => exact sameIff_of hsame fun hlink => absurd hempty hlink
    · next hlink =>
      rw [Prog.wp_bind]
      refine wp_refused hauth hun (fun hnot => ?_) fun hplay hshown => ?_
      · rw [followed_ok, if_pos rfl]
        exact sameIff_of hsame fun _ hplay hshown => absurd ⟨hplay, hshown⟩ hnot
      · have hP : (Route.stream fname q).Harmless out o s =
            LinkHarmless out o ((q.get "link").getD []) (streamRequest q) s :=
          propext ⟨fun h => h hlink hplay hshown, fun h _ _ _ => h⟩
        rw [followed_ok, if_neg Bool.false_ne_true, hP]
        refine wp_bind_keeps ?_ fun r => ?_
        · rw [Prog.wp_attempt]
          exact wp_addLink_iff out _ _
        · match r with
          | .error e => exact keeps_failed e
          | .ok none => exact keeps_pure _
          | .ok (some torrent) => exact keeps_streamAdded _ _ _ _ _
  | play hash id =>
    show Prog.wp _ (Share.play out http headers hash id) s _
    unfold Share.play
    cases hhash : InfoHash.fromStr hash with
    | error e => exact sameIff_of hsame fun h hh => by rw [hhash] at hh; cases hh
    | ok h =>
      dsimp only
      rw [Prog.wp_bind]
      refine wp_isShown (fun hshown => ?_) fun hnot => ?_
      · have hP : (Route.play hash id).Harmless out o s =
            LinkHarmless out o h.toText plainAdd s :=
          propext ⟨fun hall => hall h hhash hshown,
            fun hl h' hh' _ => by rw [hhash] at hh'; cases hh'; exact hl⟩
        rw [followed_ok, if_pos rfl, hP]
        refine wp_addHash_iff fun added => ?_
        cases added with
        | none => exact keeps_pure _
        | some torrent =>
          dsimp only
          split
          · exact keeps_pure _
          · exact keeps_rawPlayback _ _ _ _
      · have hP : (Route.play hash id).Harmless out o s := fun h' hh' hshown => by
          rw [hhash] at hh'
          cases hh'
          exact absurd hshown hnot
        rw [followed_ok, if_neg Bool.false_ne_true, hauth, hun]
        exact sameIff_of hsame hP
  | playlist fname q =>
    show Prog.wp _ (Share.playlist out headers fname q) s _
    unfold Share.playlist
    split
    · next h hhash =>
      have hP : (Route.playlist fname q).Harmless out o s =
          LinkHarmless out o h.toText plainAdd s :=
        propext ⟨fun hall => hall h hhash,
          fun hl h' hh' => by rw [hhash] at hh'; cases hh'; exact hl⟩
      rw [hP]
      refine wp_addHash_iff fun added => ?_
      cases added with
      | none => exact keeps_pure _
      | some torrent => exact keeps_individualPlaylist _ _ _ _
    · next hnone => exact sameIff_of hsame fun h hh => absurd hh (hnone h)

end routes

/-! ### Runs -/

/-- A request without credentials and what the outside answers it. -/
structure Visit (ε : Type) where
  answers : Activation → Answers ε
  headers : Headers
  route : Route
  unauthorized : headers.authorized = false

/-- Between requests the readers of their answers are dropped. -/
inductive Event (ε : Type)
  | visit (v : Visit ε)
  | dropReader (reader : PlaybackReader)

variable (ops) (out : Outside) (limit : Option ℕ)

/-- Each request is served to its end, with authentication enabled. The tasks that it
spawns stay to be run. -/
def serve (s : Service σ) : Event ε → Option (Except Error Response) × Service σ
  | .visit v => (v.route.handle out ⟨true, limit⟩ v.headers).run (act ops v.answers) s
  | .dropReader reader => (none, s.dropReader reader)

def Event.Harmless (s : Service σ) : Event ε → Prop
  | .visit v => v.route.Harmless out v.answers s
  | .dropReader _ => True

theorem same_serve_iff (s : Service σ) (e : Event ε) :
    Same s (serve ops out limit s e).2 ↔ e.Harmless out s := by
  cases e with
  | visit v =>
    have hwp : Prog.wp (spec ops v.answers (SameIff s (v.route.Harmless out v.answers s)))
        (v.route.handle out ⟨true, limit⟩ v.headers) s
        fun _ => SameIff s (v.route.Harmless out v.answers s) :=
      wp_route_iff rfl v.unauthorized v.route
    have hroute := (Prog.wp_iff_run (act ops v.answers)).mp hwp
    show SameIff s _ ((v.route.handle out ⟨true, limit⟩ v.headers).run (act ops v.answers) s).2
    split at hroute
    · next r s' hs' => rwa [hs']
    · next s' hs' => rwa [hs']
  | dropReader reader =>
    refine iff_of_true ?_ trivial
    show Same s (s.dropReader reader)
    unfold Service.dropReader
    split
    · exact (Same.refl s).of_eq rfl rfl rfl
    · exact Same.refl s

def noHeaders : Headers := ⟨false, false, none, none, none, none, none, none, 0⟩

def noFiles : Outside := ⟨Link.noZlib, fun _ => none⟩

/-- A request that the engine and the database serve without failing. -/
def calmVisit (route : Route) : Event Unit := .visit ⟨Service.calm, noHeaders, route, rfl⟩

/-- The playlist of a torrent that nobody added. -/
def unknownPlaylist : Event Unit :=
  calmVisit (.playlist none [("hash".toList, Service.savedTorrent.toText)])

/-- The playlist of a saved torrent that is not live, to be saved under another title. -/
def savingPlaylist : Event Unit :=
  calmVisit (.stream none [("link".toList, Service.savedTorrent.toText), ("m3u".toList, []),
    ("save".toList, []), ("title".toList, "b".toList)])

/-- A torrent is saved, and dropped from the engine. -/
def droppedService : Service MemoryStore :=
  Mealy.after (Service.step MemoryStore.pieceStore) Service.smallService
    [(Service.calm, .addSource ⟨"", "", "", "", true⟩ (.magnet "")),
      (Service.calm, .dropLive Service.savedTorrent)]

end Share

end Rustorr
