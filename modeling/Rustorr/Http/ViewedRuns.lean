import Rustorr.Http.ShareRuns
import Rustorr.Http.ViewedPool

/-! Playbacks keep every saved position as long as none writes back a position that was replaced
since it listed it. -/

namespace Rustorr

open Function (update)
open Coordinator (M)
open Lifecycle (Error)

namespace ViewedRequest

/-! ### What leaves the history alone -/

/-- The act neither changes the viewed history nor the settings. -/
def Aside : Act → Prop
  | .call _ c => match c with
    | .setViewed _ | .removeViewed _ _ => False
    | _ => True
  | .atomically _ f => ∀ t, (f t).2.settings = t.settings
  | _ => True

variable {α β : Type} {r : ViewedRequest} {listed : Option (List ViewedEntry)}

theorem allowed_of_aside {caller : Activation} {c : Call} (hc : Aside (.call caller c))
    (r : ViewedRequest) (listed : Option (List ViewedEntry)) : r.Allowed listed c := by
  cases c with
  | setViewed entry => exact hc.elim
  | removeViewed hash file => exact hc.elim
  | _ =>
    cases r with
    | play headers torrent index => trivial
    | viewed command => cases command <;> trivial

theorem orderly_of_aside {p : M α} (hp : Prog.Every Aside p) (listed : Option (List ViewedEntry)) :
    r.Orderly p listed := by
  unfold Orderly
  induction p generalizing listed with
  | ret a => trivial
  | fail e => trivial
  | call a k ih =>
    obtain ⟨ha, hk⟩ := hp
    cases a with
    | call caller c => exact ⟨allowed_of_aside ha r listed, fun x => ih x (hk x) _⟩
    | atomically γ f => exact fun t _ => ⟨ha t, ih _ (hk _) _⟩
    | _ => exact fun x => ih x (hk x) _

theorem monotone_guard (r : ViewedRequest) : r.guard.Monotone := by
  intro a listed Q Q' hQ h
  cases a with
  | call caller c => exact ⟨h.1, fun x => hQ _ _ (h.2 x)⟩
  | atomically γ f => exact fun t ht => ⟨(h t ht).1, hQ _ _ (h t ht).2⟩
  | _ => exact fun x => hQ _ _ (h x)

theorem Orderly.bind {p : M α} {f : α → M β} (hp : r.Orderly p listed)
    (hf : ∀ a listed, r.Orderly (f a) listed) : r.Orderly (p >>= f) listed := by
  unfold Orderly
  rw [Prog.wp_bind]
  refine Prog.wp_mono r.monotone_guard (fun result listed' _ => ?_) hp
  cases result with
  | ok a => exact hf a listed'
  | error e => trivial

theorem Orderly.attempt {p : M α} (hp : r.Orderly p listed) : r.Orderly p.attempt listed := by
  unfold Orderly
  rw [Prog.wp_attempt]
  exact hp

theorem aside_bind {p : M α} {f : α → M β} (hp : Prog.Every Aside p)
    (hf : ∀ a, Prog.Every Aside (f a)) : Prog.Every Aside (p >>= f) := Prog.every_bind hp hf

theorem aside_call {caller : Activation} {c : Call} (hc : Aside (.call caller c)) :
    Prog.Every Aside (Coordinator.call caller c) := ⟨hc, fun _ => trivial⟩

theorem aside_act {a : Act} (ha : Aside a) : Prog.Every Aside (Coordinator.act a) :=
  ⟨ha, fun _ => trivial⟩

theorem aside_atomically {f : TorrentCoordinator → β × TorrentCoordinator}
    (hf : ∀ t, (f t).2.settings = t.settings) : Prog.Every Aside (Coordinator.atomically f) :=
  ⟨hf, fun _ => trivial⟩

theorem aside_fields (f : TorrentCoordinator → β) : Prog.Every Aside (Coordinator.fields f) :=
  aside_atomically fun _ => rfl

theorem aside_okOr (e : Error) (a : Option α) : Prog.Every Aside (Coordinator.okOr e a : M α) := by
  cases a <;> trivial

theorem aside_withGate {p : M α} (hp : Prog.Every Aside p) :
    Prog.Every Aside (Coordinator.withGate p) := by
  apply aside_bind (aside_act (a := .lock) trivial)
  intro _
  apply aside_bind ((Prog.every_attempt _).mpr hp)
  intro r
  apply aside_bind (aside_act (a := .unlock) trivial)
  intro _
  exact Prog.every_ofExcept r

theorem aside_stopIdleDetachLocked (hash : InfoHash) :
    Prog.Every Aside (Coordinator.stopIdleDetachLocked hash) := by
  apply aside_bind (aside_atomically fun _ => rfl)
  intro task
  cases task with
  | none => trivial
  | some task => exact aside_act trivial

theorem aside_stopPrefetchLocked (hash : InfoHash) :
    Prog.Every Aside (Coordinator.stopPrefetchLocked hash) := by
  apply aside_bind (aside_atomically fun _ => rfl)
  intro task
  cases task with
  | none => trivial
  | some task => exact aside_act trivial

theorem aside_revive (hash : InfoHash) (metadata : TorrentMetadata) :
    Prog.Every Aside (Coordinator.revive hash metadata) := by
  apply aside_bind (aside_fields _)
  intro live
  split
  · trivial
  · apply aside_bind (aside_call (by trivial))
    intro row
    apply aside_bind (Prog.every_ofExcept _)
    intro found
    apply aside_bind (aside_okOr _ _)
    intro entry
    exact aside_atomically fun _ => rfl

theorem aside_load (hash : InfoHash) : Prog.Every Aside (Coordinator.load hash) := by
  apply aside_bind (aside_call (by trivial))
  intro loaded
  split
  · trivial
  · apply aside_bind (aside_call (by trivial))
    intro row
    apply aside_bind (Prog.every_ofExcept _)
    intro found
    apply aside_bind (aside_okOr _ _)
    intro metainfo
    apply aside_bind (aside_fields _)
    intro peers
    apply aside_bind (aside_call (by trivial))
    intro trackers
    apply aside_bind (aside_call (by trivial))
    intro added
    apply aside_bind (Prog.every_ofExcept _)
    intro metadata
    split
    · trivial
    · apply aside_bind (aside_revive hash metadata)
      intro _
      exact aside_atomically fun _ => rfl

theorem aside_startPrefetch (hash : InfoHash) (file : FileIndex) (offset : Option ℕ) :
    Prog.Every Aside (Coordinator.startPrefetch hash file offset) := by
  cases offset with
  | none => trivial
  | some offset =>
    apply aside_bind (aside_stopPrefetchLocked hash)
    intro _
    apply aside_bind (aside_atomically fun _ => rfl)
    intro id
    apply aside_bind (aside_act (by trivial))
    intro _
    exact aside_atomically fun _ => rfl

theorem aside_openReader (hash : InfoHash) (index offset : ℕ) (stop prefetchOffset : Option ℕ) :
    Prog.Every Aside (Coordinator.openReader hash index offset stop prefetchOffset) := by
  have hfile : Prog.Every Aside (Coordinator.engineFile hash index) := by
    apply aside_bind (aside_fields _)
    intro found
    apply aside_bind (aside_okOr _ _)
    intro live
    apply aside_bind (aside_okOr _ _)
    intro file
    trivial
  apply aside_bind hfile
  intro file
  have hreader : Prog.Every Aside (Coordinator.playReader hash index file offset) := by
    apply aside_bind (aside_call (by trivial))
    intro length
    split <;> trivial
  apply aside_bind hreader
  intro length
  apply aside_bind (aside_call (by trivial))
  intro pinned
  apply aside_bind (Prog.every_ofExcept _)
  intro pin
  apply aside_bind (aside_startPrefetch hash file prefetchOffset)
  intro _
  apply aside_bind (aside_act (by trivial))
  intro _
  trivial

theorem aside_playback (hash : InfoHash) (index offset : ℕ) (stop prefetchOffset : Option ℕ) :
    Prog.Every Aside (Coordinator.playback hash index offset stop prefetchOffset) := by
  have hview : Prog.Every Aside (Coordinator.getView hash) := by
    apply aside_bind (aside_fields _)
    intro found
    split
    · trivial
    · apply aside_bind (aside_call (by trivial))
      intro row
      exact aside_bind (Prog.every_ofExcept _) fun _ => trivial
  apply aside_bind hview
  intro found
  apply aside_bind (aside_okOr _ _)
  intro view
  apply aside_bind (aside_okOr _ _)
  intro file
  apply aside_withGate
  apply aside_bind (aside_stopIdleDetachLocked hash)
  intro _
  apply aside_bind (aside_load hash)
  intro _
  exact aside_openReader hash index offset stop prefetchOffset

/-! ### Playing -/

theorem aside_failed (error : Error) : Prog.Every Aside (Share.failed error) := trivial

theorem aside_playRange (hash : InfoHash) (index : ℕ) (range : Range.ByteRange)
    (answer : Share.Response) : Prog.Every Aside (Share.playRange hash index range answer) := by
  apply aside_bind ((Prog.every_attempt _).mpr (aside_playback hash index _ _ _))
  intro reader
  split <;> trivial

theorem aside_playParts (hash : InfoHash) (index : ℕ) (ranges : List Range.ByteRange) :
    Prog.Every Aside (Share.playParts hash index ranges) := by
  induction ranges with
  | nil => trivial
  | cons range rest ih =>
    apply aside_bind ((Prog.every_attempt _).mpr (aside_playback hash index _ _ _))
    intro reader
    split
    · exact ih
    · trivial

theorem aside_playRanges (headers : Share.Headers) (hash : InfoHash) (index length : ℕ)
    (value : Option (List Char)) :
    Prog.Every Aside (Share.playRanges headers hash index length value) := by
  unfold Share.playRanges
  split
  · exact aside_playRange _ _ _ _
  · split
    · trivial
    · exact aside_playRange _ _ _ _
    · unfold Share.multipartResponse
      split
      · trivial
      · exact aside_bind (aside_playParts _ _ _) fun _ => trivial

theorem oneBased_ofPosition {index : ℕ} (hpos : index ≠ 0) (hindex : index < 2 ^ 32) :
    (FileIndex.ofPosition (index - 1)).oneBased = index := by
  unfold FileIndex.oneBased
  rw [FileIndex.ofPosition_of_lt (by omega)]
  omega

theorem orderly_fields_bind {f : TorrentCoordinator → β} {g : β → M α}
    (h : ∀ t, t.settings.trackTimecode = true → r.Orderly (g (f t)) listed) :
    r.Orderly (Coordinator.fields f >>= g) listed := fun t ht => ⟨rfl, h t ht⟩

theorem orderly_setViewed {hash : InfoHash} {index : ℕ} {timecode : Timecode}
    (hallowed : index ≠ 0 →
      r.Allowed listed (.setViewed ⟨hash, FileIndex.ofPosition (index - 1), timecode⟩)) :
    r.Orderly (Coordinator.setViewed hash index timecode) listed := by
  unfold Coordinator.setViewed Coordinator.checkedIndex
  by_cases hpos : index = 0
  · rw [if_pos hpos]
    trivial
  · rw [if_neg hpos]
    apply orderly_fields_bind
    intro t _
    split
    · trivial
    · apply orderly_fields_bind
      intro t htracked
      rw [htracked]
      refine ⟨hallowed hpos, fun x => ?_⟩
      cases x <;> trivial

theorem orderly_removeViewed (hash : InfoHash) (index : Option ℕ)
    (listed : Option (List ViewedEntry)) :
    (viewed (.remove hash index)).Orderly (Coordinator.removeViewed hash index) listed := by
  unfold Coordinator.removeViewed
  apply orderly_fields_bind
  intro t _
  split
  · trivial
  · cases index with
    | none =>
      refine ⟨⟨rfl, rfl⟩, fun x => ?_⟩
      cases x <;> trivial
    | some index =>
      by_cases hpos : index = 0
      · simp only [Coordinator.checkedIndexOf, Coordinator.checkedIndex, if_pos hpos]
        trivial
      · simp only [Coordinator.checkedIndexOf, Coordinator.checkedIndex, if_neg hpos]
        refine ⟨⟨rfl, rfl⟩, fun x => ?_⟩
        cases x <;> trivial

/-- What is written back is what the listed history holds of the file. -/
theorem orderly_touchViewed (headers : Share.Headers) (torrent : LiveTorrent) (i : ℕ)
    (hash : InfoHash) {index : ℕ} (hindex : index < 2 ^ 32) (listed : Option (List ViewedEntry)) :
    (play headers torrent i).Orderly (Share.touchViewed hash index) listed := by
  refine ⟨trivial, fun x => ?_⟩
  cases x with
  | error e => trivial
  | ok history =>
    apply orderly_setViewed
    intro hpos
    refine ⟨history, rfl, ?_⟩
    dsimp only
    rw [oneBased_ofPosition hpos hindex]
    rfl

theorem id_lt_of_mem_sortedFiles {metadata : TorrentMetadata} {file : Coordinator.TorrentFileView}
    (hfile : file ∈ Coordinator.sortedFiles metadata) : file.id < 2 ^ 32 := by
  obtain ⟨i, hi, hid⟩ := List.mem_mapIdx.mp hfile
  rw [← hid]
  show min (i + 1) (2 ^ 32 - 1) < 2 ^ 32
  omega

theorem orderly_rawPlayback (http : Share.HttpConfig) (headers : Share.Headers)
    (torrent : LiveTorrent) (index : ℕ) (listed : Option (List ViewedEntry)) :
    (play headers torrent index).Orderly (Share.rawPlayback http headers torrent index) listed := by
  unfold Share.rawPlayback
  split
  · trivial
  · next file hfile =>
    have hindex : index < 2 ^ 32 := by
      have hid : file.id = index := by
        simpa using List.find?_some hfile
      rw [← hid]
      exact id_lt_of_mem_sortedFiles (List.mem_of_find?_eq_some hfile)
    split
    · trivial
    · unfold Share.playFile
      dsimp only
      split
      · trivial
      · split
        · trivial
        · apply (orderly_touchViewed headers torrent index _ hindex listed).attempt.bind
          intro touched listed'
          apply orderly_of_aside
          cases touched with
          | ok _ => exact aside_playRanges headers _ _ _ _
          | error e => exact aside_failed e

theorem orderly_body (http : Share.HttpConfig) (r : ViewedRequest) :
    r.Orderly (r.body http) none := by
  cases r with
  | play headers torrent index =>
    exact (orderly_rawPlayback http headers torrent index none).bind fun _ _ => trivial
  | viewed command =>
    cases command with
    | set hash index timecode => exact orderly_setViewed fun _ => rfl
    | remove hash index => exact orderly_removeViewed hash index none
    | list hash =>
      refine ⟨trivial, fun x => ?_⟩
      cases x <;> trivial

end ViewedRequest

/-! ### What an act does to the history -/

theorem State.setViewed_cases {δ : Type} (fails : Bool) (entry : ViewedEntry) (s : State δ) :
    (entry.timecode.isFinite = true ∧ fails = false ∧ s.setViewed fails entry =
        (.ok (), { s with viewed := s.viewed.insert (entry.torrent, entry.file) entry.timecode })) ∨
      (¬(fails = false ∧ entry.timecode.isFinite = true) ∧
        ∃ e, s.setViewed fails entry = (.error e, s)) := by
  unfold State.setViewed
  cases hfinite : entry.timecode.isFinite with
  | false => exact Or.inr ⟨fun h => Bool.false_ne_true h.2, _, rfl⟩
  | true =>
    cases fails with
    | true => exact Or.inr ⟨fun h => Bool.false_ne_true h.1.symm, _, rfl⟩
    | false => exact Or.inl ⟨rfl, rfl, rfl⟩

theorem lookup_foldl_erase {α β : Type} [DecidableEq α] (keys : List α)
    (table : AList fun _ : α => β) (key : α) :
    (keys.foldl (fun t k => t.erase k) table).lookup key =
      if key ∈ keys then none else table.lookup key := by
  induction keys generalizing table with
  | nil => rfl
  | cons k keys ih =>
    rw [List.foldl_cons, ih]
    by_cases hkey : key = k
    · rw [hkey, AList.lookup_erase, if_pos List.mem_cons_self, ite_self]
    · rw [AList.lookup_erase_ne hkey]
      simp only [List.mem_cons, hkey, false_or]

theorem State.removeViewed_cases {δ : Type} (fails : Bool) (hash : InfoHash)
    (file : Option FileIndex) (s : State δ) :
    (∃ n s', s.removeViewed fails hash file = (.ok n, s') ∧ ∀ key, s'.position key =
        if ViewedPool.Covers hash file key then 0 else s.position key) ∨
      ∃ e, s.removeViewed fails hash file = (.error e, s) := by
  unfold State.removeViewed
  cases fails with
  | true => exact Or.inr ⟨_, rfl⟩
  | false =>
    refine Or.inl ⟨_, _, rfl, fun key => ?_⟩
    unfold State.position
    dsimp only
    rw [lookup_foldl_erase]
    by_cases hcovers : ViewedPool.Covers hash file key
    · rw [if_pos hcovers]
      split
      · rfl
      · next hnot =>
        -- the file has no row
        have habsent : key ∉ s.viewed := by
          intro hkey
          exact hnot (List.mem_filter.mpr ⟨hkey, decide_eq_true hcovers⟩)
        rw [AList.lookup_eq_none.mpr habsent]
        rfl
    · rw [if_neg hcovers, if_neg]
      intro hkey
      exact hcovers (of_decide_eq_true (List.mem_filter.mp hkey).2)

theorem FileIndex.oneBased_inj {f g : FileIndex} (h : f.oneBased = g.oneBased) : f = g := by
  cases f with
  | mk a =>
    cases g with
    | mk b =>
      have hab : (a : ℕ) = b := Nat.add_right_cancel h
      rw [Fin.ext hab]

/-- A listing shows the stored position of every file, so what a playback lists is out of date only
where it was replaced since. -/
theorem State.positionIn_listViewed {δ : Type} {fails : Bool} {s : State δ}
    {history : List ViewedEntry} (h : s.listViewed fails = .ok history)
    (key : InfoHash × FileIndex) :
    positionIn history key.1 key.2.oneBased = s.position key := by
  have hmem : ∀ entry : ViewedEntry, entry ∈ history ↔
      s.viewed.lookup (entry.torrent, entry.file) = some entry.timecode := by
    intro entry
    unfold State.listViewed at h
    split at h
    · cases h
    · cases h
      rw [List.mem_insertionSort, List.mem_map]
      constructor
      · rintro ⟨⟨key', timecode⟩, he, rfl⟩
        exact AList.mem_lookup_iff.mpr he
      · intro hrow
        exact ⟨⟨(entry.torrent, entry.file), entry.timecode⟩, AList.mem_lookup_iff.mp hrow, rfl⟩
  unfold positionIn State.position
  cases hfind : (history.filter fun entry => entry.torrent = key.1).find? fun entry =>
      entry.file.oneBased = key.2.oneBased with
  | some entry =>
    have hfile : entry.file.oneBased = key.2.oneBased := by simpa using List.find?_some hfind
    obtain ⟨hin, htorrent⟩ := List.mem_filter.mp (List.mem_of_find?_eq_some hfind)
    have hkey : (entry.torrent, entry.file) = key :=
      Prod.ext (of_decide_eq_true htorrent) (FileIndex.oneBased_inj hfile)
    have hrow := (hmem entry).mp hin
    rw [hkey] at hrow
    rw [hrow]
    rfl
  | none =>
    cases hrow : s.viewed.lookup key with
    | none => rfl
    | some timecode =>
      have hin := (hmem ⟨key.1, key.2, timecode⟩).mpr hrow
      have hnone := List.find?_eq_none.mp hfind _ (List.mem_filter.mpr ⟨hin, decide_eq_true rfl⟩)
      exact absurd (decide_eq_true rfl) hnone

theorem World.viewed_answer {ε σ : Type} (ops : PieceStore ε σ) {a : Answers ε} {c : Call}
    (hset : ∀ entry, c ≠ .setViewed entry) (hremove : ∀ hash file, c ≠ .removeViewed hash file)
    (w : World σ) : (w.answer ops a c).2.state.viewed = w.state.viewed := by
  cases c with
  | setViewed entry => exact absurd rfl (hset entry)
  | removeViewed hash file => exact absurd rfl (hremove hash file)
  | saveTorrent entry bytes =>
    show (State.saveTorrent _ entry bytes w.state).2.viewed = _
    unfold State.saveTorrent
    split
    · rfl
    · split
      · rfl
      · split <;> rfl
  | removeTorrent hash =>
    show (State.removeTorrent _ hash w.state).2.viewed = _
    unfold State.removeTorrent
    split <;> rfl
  | setSettings settings =>
    show (State.setSettings _ settings w.state).2.viewed = _
    unfold State.setSettings
    split <;> rfl
  | setWafLists lists =>
    show (State.setWafLists _ lists w.state).2.viewed = _
    unfold State.setWafLists
    split <;> rfl
  | add source options =>
    show (w.add a).2.state.viewed = _
    unfold World.add
    split <;> rfl
  | forget hash id =>
    show (w.forget hash id).state.viewed = _
    unfold World.forget
    split <;> rfl
  | _ => rfl

namespace ViewedPool

variable {ε σ : Type} (ops : PieceStore ε σ) {o : Activation → Answers ε}
variable {r : ViewedRequest} {listed : Option (List ViewedEntry)} {s s' : Service σ}

/-- What the commands that an act carries out make of the position. -/
abbrev After (key : InfoHash × FileIndex) (r : ViewedRequest) (a : Act) (x : a.Ans)
    (s s' : Service σ) : Prop :=
  s'.world.state.position key =
    expected key (s.world.state.position key) (r.carriesOut a x)

theorem position_eq_of_viewed {δ : Type} {t t' : State δ} (h : t'.viewed = t.viewed)
    (key : InfoHash × FileIndex) : t'.position key = t.position key := by
  unfold State.position
  rw [h]

theorem position_insert {δ : Type} (t : State δ) (entry : ViewedEntry)
    (key : InfoHash × FileIndex) :
    State.position key { t with viewed := t.viewed.insert (entry.torrent, entry.file) entry.timecode }
      = if (entry.torrent, entry.file) = key then entry.timecode else t.position key := by
  unfold State.position
  split
  · next hkey =>
    rw [← hkey, AList.lookup_insert]
    rfl
  · next hkey => rw [AList.lookup_insert_ne (Ne.symm hkey)]

theorem after_set_iff {key : InfoHash × FileIndex} {caller : Activation} {entry : ViewedEntry}
    (hallowed : r.Allowed listed (.setViewed entry)) (s : Service σ) :
    After key r (.call caller (.setViewed entry))
        (s.world.answer ops (o caller) (.setViewed entry)).1 s
        (s.setWorld (s.world.answer ops (o caller) (.setViewed entry)).2) ↔
      ¬((∃ headers torrent index, r = .play headers torrent index) ∧
        WritesOld key s.world.state o listed (.call caller (.setViewed entry))) := by
  unfold After Service.setWorld
  simp only [World.answer]
  obtain ⟨hfinite, hfails, hset⟩ | ⟨hnot, e, hset⟩ :=
    State.setViewed_cases ((o caller).fails .setViewed) entry s.world.state
  · rw [hset]
    dsimp only
    rw [position_insert]
    cases r with
    | play headers torrent index =>
      obtain ⟨history, hlisted, htimecode⟩ := hallowed
      show _ = s.world.state.position key ↔ _
      by_cases hkey : (entry.torrent, entry.file) = key
      · rw [if_pos hkey, htimecode]
        cases hkey
        constructor
        · rintro heq ⟨-, -, ⟨history', hlisted', hne⟩, -⟩
          rw [hlisted] at hlisted'
          cases hlisted'
          exact hne heq
        · intro hgood
          by_contra hne
          exact hgood ⟨⟨headers, torrent, index, rfl⟩, rfl, ⟨history, hlisted, hne⟩, hfails, hfinite⟩
      · rw [if_neg hkey]
        exact iff_of_true rfl fun h => hkey h.2.1
    | viewed command =>
      have hright : ¬((∃ headers torrent index, ViewedRequest.viewed command = .play headers torrent index) ∧
          WritesOld key s.world.state o listed (.call caller (.setViewed entry))) := by
        rintro ⟨⟨headers, torrent, index, h⟩, -⟩
        cases h
      refine iff_of_true ?_ hright
      cases command with
      | set hash index timecode =>
        cases hallowed
        rfl
      | remove hash index => exact hallowed.elim
      | list hash => exact hallowed.elim
  · rw [hset]
    refine iff_of_true ?_ fun h => hnot h.2.2.2
    cases r <;> rfl

theorem after_remove {key : InfoHash × FileIndex} {caller : Activation} {hash : InfoHash}
    {file : Option FileIndex} (hallowed : r.Allowed listed (.removeViewed hash file))
    (s : Service σ) :
    After key r (.call caller (.removeViewed hash file))
      (s.world.answer ops (o caller) (.removeViewed hash file)).1 s
      (s.setWorld (s.world.answer ops (o caller) (.removeViewed hash file)).2) := by
  unfold After Service.setWorld
  simp only [World.answer]
  obtain ⟨n, state, hremoved, hposition⟩ | ⟨e, hremoved⟩ :=
    State.removeViewed_cases ((o caller).fails .removeViewed) hash file s.world.state
  · rw [hremoved]
    dsimp only
    rw [hposition key]
    cases r with
    | play headers torrent index => exact hallowed.elim
    | viewed command =>
      cases command with
      | set hash' index timecode => exact hallowed.elim
      | remove hash' index =>
        obtain ⟨rfl, rfl⟩ := hallowed
        rfl
      | list hash' => exact hallowed.elim
  · rw [hremoved]
    cases r <;> rfl

theorem carriesOut_other {caller : Activation} {c : Call} (hset : ∀ entry, c ≠ .setViewed entry)
    (hremove : ∀ hash file, c ≠ .removeViewed hash file) (x : c.Ans) :
    r.carriesOut (.call caller c) x = [] := by
  cases c with
  | setViewed entry => exact absurd rfl (hset entry)
  | removeViewed hash file => exact absurd rfl (hremove hash file)
  | _ => cases r <;> rfl

/-- What a call of a request makes of the position. -/
theorem after_call_iff (key : InfoHash × FileIndex) {caller : Activation} {c : Call}
    (hallowed : r.Allowed listed c) (s : Service σ) :
    After key r (.call caller c) (s.world.answer ops (o caller) c).1 s
        (s.setWorld (s.world.answer ops (o caller) c).2) ↔
      ¬((∃ headers torrent index, r = .play headers torrent index) ∧
        WritesOld key s.world.state o listed (.call caller c)) := by
  by_cases hset : ∃ entry, c = .setViewed entry
  · obtain ⟨entry, rfl⟩ := hset
    exact after_set_iff ops hallowed s
  · have hset' : ∀ entry, c ≠ .setViewed entry := fun entry h => hset ⟨entry, h⟩
    have hwrites : ¬WritesOld key s.world.state o listed (.call caller c) := by
      intro h
      cases c with
      | setViewed entry => exact hset' entry rfl
      | _ => exact h
    refine iff_of_true ?_ fun h => hwrites h.2
    by_cases hremove : ∃ hash file, c = .removeViewed hash file
    · obtain ⟨hash, file, rfl⟩ := hremove
      exact after_remove ops hallowed s
    · have hremove' : ∀ hash file, c ≠ .removeViewed hash file :=
        fun hash file h => hremove ⟨hash, file, h⟩
      unfold After
      rw [carriesOut_other hset' hremove']
      exact position_eq_of_viewed (World.viewed_answer ops hset' hremove' s.world) key

/-- What an act of a request does: tracking stays on, what the rest asks holds, and the position is
as its commands make it, but where a playback writes an old one. -/
theorem act_spec (key : InfoHash × FileIndex) {a : Act} {x : a.Ans}
    {Q : a.Ans → Option (List ViewedEntry) → Prop} (hguard : r.guard a listed Q)
    (htracked : s.world.fields.settings.trackTimecode = true)
    (hact : Service.act ops o a s = (some x, s')) :
    s'.world.fields.settings.trackTimecode = true ∧ Q x (a.listed x listed) ∧
      (After key r a x s s' ↔ ¬((∃ headers torrent index, r = .play headers torrent index) ∧
        WritesOld key s.world.state o listed a)) := by
  have hquiet : ∀ {a : Act} {x : a.Ans}, (∀ caller c, a ≠ .call caller c) →
      s'.world.state = s.world.state →
      (After key r a x s s' ↔ ¬((∃ headers torrent index, r = .play headers torrent index) ∧
        WritesOld key s.world.state o listed a)) := by
    intro a x ha hstate
    cases a with
    | call caller c => exact absurd rfl (ha caller c)
    | _ =>
      refine iff_of_true ?_ fun h => h.2
      unfold After
      rw [hstate]
      cases r <;> rfl
  cases a with
  | call caller c =>
    obtain ⟨hallowed, hQ⟩ := hguard
    cases hact
    refine ⟨?_, hQ _, after_call_iff ops key hallowed s⟩
    show (s.world.answer ops (o caller) c).2.fields.settings.trackTimecode = true
    rw [Share.answer_fields]
    exact htracked
  | atomically β f =>
    obtain ⟨hsettings, hQ⟩ := hguard s.world.fields htracked
    cases hact
    refine ⟨?_, hQ, hquiet (fun caller c h => nomatch h) rfl⟩
    show (f s.world.fields).2.settings.trackTimecode = true
    rw [hsettings]
    exact htracked
  | lock =>
    rw [Service.act_lock] at hact
    split at hact
    · cases hact
    · cases hact
      exact ⟨htracked, hguard (), hquiet (fun caller c h => nomatch h) rfl⟩
  | waitForever => cases hact
  | unlock =>
    cases hact
    exact ⟨htracked, hguard (), hquiet (fun caller c h => nomatch h) rfl⟩
  | spawn task =>
    cases hact
    exact ⟨htracked, hguard (), hquiet (fun caller c h => nomatch h) rfl⟩
  | cancel task =>
    cases hact
    exact ⟨htracked, hguard (), hquiet (fun caller c h => nomatch h) rfl⟩
  | handOver reader =>
    cases hact
    exact ⟨htracked, hguard (), hquiet (fun caller c h => nomatch h) rfl⟩

theorem act_none {a : Act} (hact : Service.act ops o a s = (none, s')) : s' = s := by
  cases a with
  | lock =>
    rw [Service.act_lock] at hact
    split at hact <;> cases hact
    rfl
  | waitForever =>
    cases hact
    rfl
  | _ => cases hact

/-! ### Runs -/

/-- Tracking is on, every request under way writes only what it may, and the position is the one
commanded. -/
structure Inv (key : InfoHash × FileIndex) (old : Timecode) (p : ViewedPool σ) : Prop where
  tracked : p.service.world.fields.settings.trackTimecode = true
  orderly : ∀ i task, p.tasks i = some task → task.request.Orderly task.body task.listed
  position : p.position key = expected key old p.history

variable {key : InfoHash × FileIndex} {old : Timecode} {p : ViewedPool σ}

theorem orderly_update (h : Inv key old p) {i : ℕ} {found : Option ViewedTask}
    (hfound : ∀ task, found = some task → task.request.Orderly task.body task.listed) :
    ∀ j task, update p.tasks i found j = some task →
      task.request.Orderly task.body task.listed := by
  intro j task hj
  by_cases hji : j = i
  · rw [hji, Function.update_self] at hj
    exact hfound task hj
  · rw [Function.update_of_ne hji] at hj
    exact h.orderly j task hj

theorem expected_append (key : InfoHash × FileIndex) (old : Timecode)
    (history commands : List ViewedCommand) :
    expected key old (history ++ commands) = expected key (expected key old history) commands :=
  List.foldl_append

/-- A step keeps what is commanded exactly if no playback writes an old position in it. -/
theorem advance_spec (h : Inv key old p) (i : ℕ) (o : Activation → Answers ε) :
    (¬Stale key p (.step i o) → Inv key old (p.advance ops i o)) ∧
      (Stale key p (.step i o) → (p.advance ops i o).position key ≠
        expected key old (p.advance ops i o).history) := by
  unfold advance
  cases htask : p.tasks i with
  | none =>
    refine ⟨fun _ => h, ?_⟩
    rintro ⟨headers, torrent, index, a, k, listed, hi, -⟩
    rw [htask] at hi
    cases hi
  | some task =>
    obtain ⟨r, body, listed⟩ := task
    have horderly := h.orderly i _ htask
    have hend : ∀ {q : ViewedPool σ}, q = { p with tasks := update p.tasks i none } →
        Inv key old q := by
      rintro q rfl
      exact ⟨h.tracked, orderly_update h fun task htask => (nomatch htask), h.position⟩
    cases body with
    | ret a =>
      refine ⟨fun _ => hend rfl, ?_⟩
      rintro ⟨headers, torrent, index, a, k, listed, hi, -⟩
      rw [htask] at hi
      cases hi
    | fail e =>
      refine ⟨fun _ => hend rfl, ?_⟩
      rintro ⟨headers, torrent, index, a, k, listed, hi, -⟩
      rw [htask] at hi
      cases hi
    | call a k =>
      have hstale : Stale key p (.step i o) ↔
          (∃ headers torrent index, r = .play headers torrent index) ∧
            WritesOld key p.service.world.state o listed a := by
        constructor
        · rintro ⟨headers, torrent, index, a', k', listed', hi, hwrites⟩
          rw [htask] at hi
          cases hi
          exact ⟨⟨headers, torrent, index, rfl⟩, hwrites⟩
        · rintro ⟨⟨headers, torrent, index, rfl⟩, hwrites⟩
          exact ⟨headers, torrent, index, a, k, listed, htask, hwrites⟩
      dsimp only
      match hact : Service.act ops o a p.service with
      | (none, s) =>
        cases act_none ops hact
        refine ⟨fun _ => h, fun hbad => ?_⟩
        -- a write is always answered
        obtain ⟨-, hwrites⟩ := hstale.mp hbad
        cases a with
        | call caller c => cases hact
        | _ => exact hwrites.elim
      | (some x, s) =>
        obtain ⟨htracked, hrest, hafter⟩ := act_spec ops key horderly h.tracked hact
        rw [hstale]
        dsimp only
        rw [expected_append, ← h.position]
        refine ⟨fun hgood => ⟨htracked, ?_, ?_⟩, fun hbad heq => hafter.mp heq hbad⟩
        · refine orderly_update h fun task htask' => ?_
          cases htask'
          exact hrest
        · dsimp only
          rw [expected_append, ← h.position]
          exact hafter.mpr hgood

theorem inv_request (http : Share.HttpConfig) (h : Inv key old p) (i : ℕ) (r : ViewedRequest) :
    Inv key old (step ops http p (.request i r)).2 := by
  unfold step
  dsimp only
  cases p.tasks i with
  | some task => exact h
  | none =>
    refine ⟨h.tracked, orderly_update h fun task htask => ?_, h.position⟩
    cases htask
    exact r.orderly_body http

theorem inv_start (key : InfoHash × FileIndex) {s : Service σ}
    (htracked : s.world.fields.settings.trackTimecode = true) :
    Inv key (s.world.state.position key) (start s) :=
  ⟨htracked, fun _ _ h => (nomatch h), rfl⟩

/-- However playbacks and commands are interleaved while tracking is on, the position of a file is
the last one set since its last removal, in every state, exactly if no playback writes back a
position that was replaced since it listed it. -/
theorem plays_keep_position_iff (http : Share.HttpConfig) (key : InfoHash × FileIndex)
    (s : Service σ) (htracked : s.world.fields.settings.trackTimecode = true)
    (events : List (ViewedEvent ε)) :
    (∀ n, let p := Mealy.after (step ops http) (start s) (events.take n)
      p.position key = expected key (s.world.state.position key) p.history) ↔
      ∀ n e, events[n]? = some e →
        ¬Stale key (Mealy.after (step ops http) (start s) (events.take n)) e := by
  apply Mealy.forall_after_iff (step ops http) (P := Inv key (s.world.state.position key))
    (Q := fun p => p.position key = expected key (s.world.state.position key) p.history)
    (B := Stale key)
  · intro p h
    exact h.position
  · intro p e h hgood
    cases e with
    | request i r => exact inv_request ops http h i r
    | step i o => exact (advance_spec ops h i o).1 hgood
  · intro p e h hbad
    cases e with
    | request i r => exact hbad.elim
    | step i o => exact (advance_spec ops h i o).2 hbad
  · exact inv_start key htracked

/-! ### A position that is lost -/

/-- Playing the one file of a torrent. -/
def playing : ViewedRequest :=
  .play Share.noHeaders ⟨⟨Service.savedTorrent, [], "a", [⟨0, "a", 2⟩], []⟩, "a", "", "", "", 0⟩ 1

/-- The bits of five seconds. -/
def fiveSeconds : Timecode := 0x4014000000000000

def theFile : InfoHash × FileIndex := (Service.savedTorrent, FileIndex.ofPosition 0)

/-- The playback has listed the history when the position is set. -/
def overtaken : List (ViewedEvent Unit) :=
  [.request 0 playing, .step 0 Service.calm,
    .request 1 (.viewed (.set Service.savedTorrent 1 fiveSeconds))] ++
  List.replicate 4 (.step 1 Service.calm) ++ List.replicate 6 (.step 0 Service.calm)

/-- The position is set before the playback begins. -/
def inOrder : List (ViewedEvent Unit) :=
  .request 1 (.viewed (.set Service.savedTorrent 1 fiveSeconds)) ::
    List.replicate 4 (.step 1 Service.calm) ++ .request 0 playing ::
    List.replicate 7 (.step 0 Service.calm)

/-- An empty coordinator that tracks timecodes. -/
def trackingService : Service MemoryStore :=
  Service.new (TorrentCoordinator.new (false, false) MemoryStore.new 1
    ⟨∅, some { Settings.default with trackTimecode := true }, ∅, none⟩ false)

def afterEvents (events : List (ViewedEvent Unit)) : ViewedPool MemoryStore :=
  Mealy.after (step MemoryStore.pieceStore ⟨false, none⟩) (start trackingService) events

/-- A playback that begins after the set keeps the position. -/
theorem plays_keep_position_in_order :
    (afterEvents inOrder).position theFile = fiveSeconds ∧
      ((∀ n, let p := afterEvents (inOrder.take n)
        p.position theFile = expected theFile (trackingService.world.state.position theFile)
          p.history) ↔
        ∀ n e, inOrder[n]? = some e → ¬Stale theFile (afterEvents (inOrder.take n)) e) :=
  ⟨by decide +kernel, plays_keep_position_iff MemoryStore.pieceStore ⟨false, none⟩ theFile
    trackingService rfl inOrder⟩

/-- The playback writes back the position from before the set: both requests are done, and the
position that was set is gone. -/
theorem playing_loses_position :
    let p := afterEvents overtaken
    trackingService.world.fields.settings.trackTimecode = true ∧ (p.tasks 0).isNone = true ∧
      (p.tasks 1).isNone = true ∧ p.position theFile = 0 ∧
      expected theFile (trackingService.world.state.position theFile) p.history = fiveSeconds ∧
      fiveSeconds ≠ 0 := by
  refine ⟨rfl, ?_, ?_, ?_, ?_, ?_⟩ <;> decide +kernel

end ViewedPool

end Rustorr
