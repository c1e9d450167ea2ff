import Rustorr.Cache.Eviction
import Rustorr.Cache.Pinned
import Rustorr.Lib.Recency

/-! Recency and pins over whole runs of the cache, and what they make of its eviction
candidates. -/

namespace Rustorr

open Cache (Error)
open Function (update)

namespace Cache

/-- What one hold of the registry's lock does, or one call of the store between two. -/
inductive Event (ε : Type)
  | openTorrent (env : ε) (torrent : InfoHash) (layout : TorrentLayout)
  | storeWrite (env : ε) (torrent : InfoHash) (file : FileIndex) (offset : U64) (data : List UInt8)
  | account (torrent : InfoHash) (added : ℕ)
  | read (env : ε) (torrent : InfoHash) (file : FileIndex) (offset : U64) (len : ℕ)
  | storePiece (env : ε) (torrent : InfoHash) (piece : PieceIndex)
  | markPiece (torrent : InfoHash) (piece : PieceIndex)
  | recordDemand (torrent : InfoHash) (file : FileIndex) (offset length : U64)
  | pin (torrent : InfoHash) (range : Option ReaderRange)
  | dropPin (pin : Pin)
  | setCapBytes (capBytes : ℕ)
  | remove (env : ε) (torrent : InfoHash)

/-- A cache and the pins that are out. -/
structure Watched (σ : Type) where
  cache : Cache σ
  live : List Pin

variable {ε σ : Type} (ops : PieceStore ε σ)

/-- The second section of `write`. -/
def account (torrent : InfoHash) (added : ℕ) (c : Cache σ) : Cache σ :=
  match c.torrents.lookup torrent with
  | none => c
  | some e => c.setEntry torrent { e with stored := e.stored + added }

/-- The section of `piece_completed` that holds the lock. -/
def markPiece (torrent : InfoHash) (piece : PieceIndex) (c : Cache σ) : Cache σ :=
  match c.torrents.lookup torrent with
  | none => c
  | some e => match e.pieces.insert piece with
    | .error _ => c
    | .ok pieces => c.setEntry torrent { e with pieces := pieces }

namespace Watched

/-- A pin is dropped once, by who has it. -/
def step (w : Watched σ) : Event ε → Watched σ
  | .openTorrent env torrent layout => { w with cache := (w.cache.openTorrent ops env torrent layout).2 }
  | .storeWrite env torrent file offset data =>
    { w with cache := { w.cache with
        store := (ops.write env torrent file offset data w.cache.store).2 } }
  | .account torrent added => { w with cache := w.cache.account torrent added }
  | .read env torrent file offset len =>
    { w with cache := (w.cache.read ops env torrent file offset len).2 }
  | .storePiece env torrent piece =>
    { w with cache := { w.cache with store := (ops.pieceCompleted env torrent piece w.cache.store).2 } }
  | .markPiece torrent piece => { w with cache := w.cache.markPiece torrent piece }
  | .recordDemand torrent file offset length =>
    { w with cache := (w.cache.recordDemand torrent file offset length).2 }
  | .pin torrent range => match w.cache.pinInner torrent range with
    | (.ok pin, c) => ⟨c, pin :: w.live⟩
    | (.error _, c) => ⟨c, w.live⟩
  | .dropPin pin => if pin ∈ w.live then ⟨w.cache.dropPin pin, w.live.erase pin⟩ else w
  | .setCapBytes capBytes => { w with cache := w.cache.setCapBytes capBytes }
  | .remove env torrent => { w with cache := (w.cache.remove ops env torrent).2 }

def after (store : σ) (capBytes : ℕ) (events : List (Event ε)) : Watched σ :=
  events.foldl (step ops) ⟨Cache.new store capBytes, []⟩

end Watched

/-! ### Calls are runs of their sections -/

theorem write_eq_account {env : ε} {torrent : InfoHash} {file : FileIndex} {offset : U64}
    {data : List UInt8} {c : Cache σ} {added : ℕ} {store : σ}
    (hopen : (c.torrents.lookup torrent).isSome)
    (hwrite : ops.write env torrent file offset data c.store = (.ok added, store)) :
    (c.write ops env torrent file offset data).2 =
      ({ c with store := store } : Cache σ).account torrent added := by
  obtain ⟨e, he⟩ := Option.isSome_iff_exists.mp hopen
  unfold write account
  simp only [entry_eq_ok.mpr he, hwrite, he]

theorem pieceCompleted_eq_markPiece {env : ε} {torrent : InfoHash} {piece : PieceIndex}
    {c : Cache σ} {store : σ}
    (hstore : ops.pieceCompleted env torrent piece c.store = (.ok (), store)) :
    (c.pieceCompleted ops env torrent piece).2 =
      ({ c with store := store } : Cache σ).markPiece torrent piece := by
  unfold pieceCompleted markPiece entry
  simp only [hstore]
  cases c.torrents.lookup torrent with
  | none => rfl
  | some e => cases h : e.pieces.insert piece <;> simp only [h]

/-! ### Recency -/

variable {ops} {env : ε}

def lastReads (c : Cache σ) (h : InfoHash) : Option ℕ := (c.torrents.lookup h).map Entry.lastRead

/-- The clock and the last reads after an operation. -/
def Clocked (c c' : Cache σ) : Prop := Clock.Moves c.tick c.lastReads c'.tick c'.lastReads

theorem clocked_of_eq {c c' : Cache σ} (htorrents : c'.torrents = c.torrents)
    (htick : c.tick ≤ c'.tick) : Clocked c c' := by
  have hsame : c'.lastReads = c.lastReads := by
    funext h
    unfold lastReads
    rw [htorrents]
  unfold Clocked
  rw [hsame]
  exact .keep htick

theorem lastReads_setEntry (c : Cache σ) (g : InfoHash) (e : Entry) :
    (c.setEntry g e).lastReads = update c.lastReads g (some e.lastRead) := by
  funext h
  unfold lastReads
  rw [setEntry_torrents]
  by_cases hg : h = g
  · rw [hg, AList.lookup_insert, Function.update_self, Option.map_some]
  · rw [AList.lookup_insert_ne hg, Function.update_of_ne hg]

/-- An entry that is put back with the tick it had. -/
theorem clocked_setEntry {c d : Cache σ} {g : InfoHash} {e e' : Entry}
    (hd : d.torrents = c.torrents) (htick : d.tick = c.tick) (he : c.torrents.lookup g = some e)
    (hsame : e'.lastRead = e.lastRead) : Clocked c (d.setEntry g e') := by
  have hreads : (d.setEntry g e').lastReads = c.lastReads := by
    rw [lastReads_setEntry, hsame]
    funext h
    have hdh : d.lastReads h = c.lastReads h := by
      unfold lastReads
      rw [hd]
    by_cases hg : h = g
    · unfold lastReads
      rw [hg, Function.update_self, he, Option.map_some]
    · rw [Function.update_of_ne hg, hdh]
  unfold Clocked
  rw [hreads]
  exact .keep htick.ge

/-- An entry that is put in with the tick that is new. -/
theorem clocked_touch {c d : Cache σ} {g : InfoHash} {e : Entry}
    (hd : d.torrents = c.torrents) (htick : d.tick = c.tick + 1) (he : e.lastRead = d.tick) :
    Clocked c (d.setEntry g e) := by
  have hreads : d.lastReads = c.lastReads := by
    funext h
    unfold lastReads
    rw [hd]
  show Clock.Moves c.tick c.lastReads d.tick (d.setEntry g e).lastReads
  rw [lastReads_setEntry, he, htick, hreads]
  exact .touch g

theorem clocked_openTorrent (g : InfoHash) (layout : TorrentLayout) (c : Cache σ) :
    Clocked c (c.openTorrent ops env g layout).2 := by
  unfold openTorrent
  split
  · exact clocked_of_eq rfl le_rfl
  · split
    · exact clocked_of_eq rfl le_rfl
    · dsimp only
      split
      · exact clocked_of_eq rfl (Nat.le_succ _)
      · exact clocked_touch rfl rfl rfl

theorem clocked_account (g : InfoHash) (added : ℕ) (c : Cache σ) :
    Clocked c (c.account g added) := by
  unfold account
  split
  · exact clocked_of_eq rfl le_rfl
  · next e he => exact clocked_setEntry rfl rfl he rfl

theorem clocked_markPiece (g : InfoHash) (piece : PieceIndex) (c : Cache σ) :
    Clocked c (c.markPiece g piece) := by
  unfold markPiece
  split
  · exact clocked_of_eq rfl le_rfl
  · next e he =>
    split
    · exact clocked_of_eq rfl le_rfl
    · exact clocked_setEntry rfl rfl he rfl

theorem clocked_read (g : InfoHash) (file : FileIndex) (offset : U64) (len : ℕ) (c : Cache σ) :
    Clocked c (c.read ops env g file offset len).2 := by
  unfold read
  dsimp only
  split
  · exact clocked_of_eq rfl (Nat.le_succ _)
  · exact clocked_touch rfl rfl rfl

/-- Neither a demand nor a pin counts as a read. -/
theorem clocked_recordDemand (g : InfoHash) (file : FileIndex) (offset length : U64)
    (c : Cache σ) : Clocked c (c.recordDemand g file offset length).2 := by
  unfold recordDemand
  split
  · exact clocked_of_eq rfl le_rfl
  · next e he =>
    repeat' split
    all_goals first
      | exact clocked_of_eq rfl le_rfl
      | exact clocked_setEntry rfl rfl (entry_eq_ok.mp he) rfl

theorem clocked_pinInner (g : InfoHash) (range : Option ReaderRange) (c : Cache σ) :
    Clocked c (c.pinInner g range).2 := by
  unfold pinInner
  dsimp only
  split
  · exact clocked_of_eq rfl le_rfl
  · next e he => exact clocked_setEntry rfl rfl (entry_eq_ok.mp he) rfl

theorem clocked_dropPin (pin : Pin) (c : Cache σ) : Clocked c (c.dropPin pin) := by
  cases he : c.torrents.lookup pin.torrent with
  | none =>
    rw [dropPin_of_none he]
    exact clocked_of_eq rfl (Nat.le_succ _)
  | some e =>
    rw [dropPin_of_some he]
    exact clocked_touch rfl rfl rfl

theorem clocked_remove (g : InfoHash) (c : Cache σ) : Clocked c (c.remove ops env g).2 := by
  unfold remove
  split
  · exact clocked_of_eq rfl le_rfl
  · split
    · exact clocked_of_eq rfl le_rfl
    · split
      · exact clocked_of_eq rfl le_rfl
      · next store _ =>
        have hreads : lastReads { c with store := store, torrents := c.torrents.erase g } =
            update c.lastReads g none := by
          funext h
          unfold lastReads
          by_cases hg : h = g
          · rw [hg, AList.lookup_erase, Function.update_self, Option.map_none]
          · rw [AList.lookup_erase_ne hg, Function.update_of_ne hg]
        unfold Clocked
        rw [hreads]
        exact .forget g

/-! ### Pins -/

theorem pinsOf_account (h g : InfoHash) (added : ℕ) (c : Cache σ) :
    (c.account g added).pinsOf h = c.pinsOf h := by
  unfold account
  split
  · rfl
  · next e he =>
    rw [pinsOf_setEntry]
    split
    · next hg => rw [hg, pinsOf_of_some he]
    · rfl

theorem pinsOf_markPiece (h g : InfoHash) (piece : PieceIndex) (c : Cache σ) :
    (c.markPiece g piece).pinsOf h = c.pinsOf h := by
  unfold markPiece
  split
  · rfl
  · next e he =>
    split
    · rfl
    · rw [pinsOf_setEntry]
      split
      · next hg => rw [hg, pinsOf_of_some he]
      · rfl

theorem pinsOf_recordDemand (h g : InfoHash) (file : FileIndex) (offset length : U64)
    (c : Cache σ) : (c.recordDemand g file offset length).2.pinsOf h = c.pinsOf h := by
  unfold recordDemand
  split
  · rfl
  · next e he =>
    have hentry : ∀ x, (c.setEntry g { e with demanded := x }).pinsOf h = c.pinsOf h := by
      intro x
      rw [pinsOf_setEntry]
      split
      · next hg => rw [hg, pinsOf_of_some (entry_eq_ok.mp he)]
      · rfl
    repeat' split
    all_goals first
      | rfl
      | exact hentry _

namespace Watched

/-- What holds of a cache and the pins that are out at every moment: the ticks of last use
are distinct, and the count of a torrent is the number of its pins. -/
structure Kept (w : Watched σ) : Prop where
  ordered : Clock.Ordered w.cache.tick w.cache.lastReads
  counted : ∀ h, w.cache.pinsOf h = w.live.countP fun pin => decide (h = pin.torrent)

theorem Kept.of_clocked {w : Watched σ} (hw : w.Kept) {c : Cache σ} (hclock : Clocked w.cache c)
    (hpins : ∀ h, c.pinsOf h = w.cache.pinsOf h) : Kept ⟨c, w.live⟩ :=
  ⟨hw.ordered.moves hclock, fun h => (hpins h).trans (hw.counted h)⟩

theorem Kept.pin {w : Watched σ} (hw : w.Kept) (g : InfoHash) (range : Option ReaderRange) :
    (w.step ops (Event.pin (ε := ε) g range)).Kept := by
  have hclock := clocked_pinInner g range w.cache
  have hpins := fun h => pinsOf_pinInner h g range w.cache
  unfold step
  dsimp only
  split
  · next pin c hpin =>
    rw [hpin] at hclock hpins
    refine ⟨hw.ordered.moves hclock, fun h => ?_⟩
    rw [hpins h, hw.counted h, List.countP_cons]
    dsimp only
    split <;> simp_all
  · next e c hpin =>
    rw [hpin] at hclock hpins
    exact hw.of_clocked hclock hpins

theorem Kept.dropPin {w : Watched σ} (hw : w.Kept) (pin : Pin) :
    (w.step ops (Event.dropPin (ε := ε) pin)).Kept := by
  unfold step
  dsimp only
  split
  · next hlive =>
    refine ⟨hw.ordered.moves (clocked_dropPin pin w.cache), fun h => ?_⟩
    show (w.cache.dropPin pin).pinsOf h = (w.live.erase pin).countP _
    rw [pinsOf_dropPin, hw.counted h, List.countP_erase]
    simp only [hlive, true_and, decide_eq_true_eq]
  · exact hw

/-- One section, whatever it is, keeps the order and the counts. -/
theorem Kept.step {w : Watched σ} (hw : w.Kept) (event : Event ε) : (w.step ops event).Kept := by
  cases event with
  | openTorrent env g layout =>
    exact hw.of_clocked (clocked_openTorrent g layout w.cache)
      (undisturbed_openTorrent g layout w.cache).pinsOf
  | storeWrite env g file offset data => exact hw.of_clocked (clocked_of_eq rfl le_rfl) fun _ => rfl
  | account g added =>
    exact hw.of_clocked (clocked_account g added w.cache) fun h => pinsOf_account h g added w.cache
  | read env g file offset len =>
    exact hw.of_clocked (clocked_read g file offset len w.cache)
      (@undisturbed_read _ _ ops env g file offset len w.cache).pinsOf
  | storePiece env g piece => exact hw.of_clocked (clocked_of_eq rfl le_rfl) fun _ => rfl
  | markPiece g piece =>
    exact hw.of_clocked (clocked_markPiece g piece w.cache) fun h => pinsOf_markPiece h g piece w.cache
  | recordDemand g file offset length =>
    exact hw.of_clocked (clocked_recordDemand g file offset length w.cache)
      fun h => pinsOf_recordDemand h g file offset length w.cache
  | pin g range => exact hw.pin g range
  | dropPin pin => exact hw.dropPin pin
  | setCapBytes capBytes => exact hw.of_clocked (clocked_of_eq rfl le_rfl) fun _ => rfl
  | remove env g =>
    exact hw.of_clocked (clocked_remove g w.cache) fun h => pinsOf_remove h g w.cache

theorem kept_after (store : σ) (capBytes : ℕ) (events : List (Event ε)) :
    (after ops store capBytes events).Kept := by
  have hrun : ∀ w : Watched σ, w.Kept → (events.foldl (Watched.step ops) w).Kept := by
    induction events with
    | nil => exact fun w hw => hw
    | cons event events ih => exact fun w hw => ih _ (hw.step event)
  apply hrun
  constructor
  · have hnone : (Cache.new store capBytes).lastReads = fun _ => none := by
      funext h
      simp [lastReads, Cache.new]
    show Clock.Ordered 0 (Cache.new store capBytes).lastReads
    rw [hnone]
    exact Clock.ordered_empty 0
  · intro h
    simp [pinsOf, Cache.new]

end Watched

/-! ### The candidates -/

theorem victims_isCut (excess : ℕ) (l : List (Σ _ : InfoHash, Entry)) :
    ∃ cut, Greedy.IsCut (fun s => s.2.stored) excess l cut ∧
      victims excess l = cut.map Sigma.fst := by
  induction l generalizing excess with
  | nil => exact ⟨[], Greedy.isCut_of_nil excess, rfl⟩
  | cons s rest ih =>
    unfold victims
    split
    · next h =>
      subst h
      exact ⟨[], Greedy.isCut_nil _, rfl⟩
    · next h =>
      obtain ⟨cut, hcut, hvictims⟩ := ih (excess - s.2.stored)
      exact ⟨s :: cut, hcut.cons (Nat.pos_of_ne_zero h), by rw [hvictims, List.map_cons]⟩

/-- No two of the idle torrents were used at one tick, so sorting them leaves no choice. -/
theorem idle_pairwise {c : Cache σ} (hc : Clock.Ordered c.tick c.lastReads) :
    c.idle.Pairwise fun a b => a.2.lastRead < b.2.lastRead := by
  have hsorted : c.idle.Pairwise fun a b => a.2.lastRead ≤ b.2.lastRead := by
    have htotal : Std.Total fun a b : Σ _ : InfoHash, Entry => a.2.lastRead ≤ b.2.lastRead :=
      ⟨fun a b => Nat.le_total _ _⟩
    have htrans : IsTrans (Σ _ : InfoHash, Entry) fun a b => a.2.lastRead ≤ b.2.lastRead :=
      ⟨fun a b d => Nat.le_trans⟩
    exact List.pairwise_insertionSort _ _
  have hkeys : c.idle.Pairwise fun a b => a.1 ≠ b.1 := by
    have hnodup : (c.idle.map Sigma.fst).Nodup := by
      refine ((List.perm_insertionSort _ _).map Sigma.fst).nodup_iff.mpr ?_
      exact c.torrents.nodupKeys.sublist List.filter_sublist
    exact List.pairwise_map.mp hnodup
  have hread : ∀ s ∈ c.idle, c.lastReads s.1 = some s.2.lastRead := by
    intro s hs
    unfold lastReads
    rw [AList.mem_lookup_iff.mpr (mem_idle.mp hs).1, Option.map_some]
  refine (hsorted.and hkeys).imp_of_mem fun ha hb h => ?_
  refine lt_of_le_of_ne h.1 fun heq => h.2 ?_
  exact hc.distinct _ _ _ (hread _ ha) (heq ▸ hread _ hb)

/-- In every run the candidates are the shortest prefix, in the order of last use, of the
unpinned torrents with bytes that makes up for the excess; no two torrents were last used
at one tick, and the pins of a torrent are as many as its count says. -/
theorem candidates_are_shortest_prefix (store : σ) (capBytes : ℕ) (events : List (Event ε)) :
    (∃ ranked cut,
      ranked.Perm ((Watched.after ops store capBytes events).cache.torrents.entries.filter
        fun s => s.2.pins = 0 ∧ s.2.stored > 0) ∧
      ranked.Pairwise (fun a b => a.2.lastRead < b.2.lastRead) ∧
      Greedy.IsCut (fun s => s.2.stored)
        ((Watched.after ops store capBytes events).cache.storedBytes -
          (Watched.after ops store capBytes events).cache.capBytes) ranked cut ∧
      (Watched.after ops store capBytes events).cache.evictionCandidates = cut.map Sigma.fst) ∧
    (∀ g h d e, (Watched.after ops store capBytes events).cache.torrents.lookup g = some d →
      (Watched.after ops store capBytes events).cache.torrents.lookup h = some e →
      g ≠ h → d.lastRead ≠ e.lastRead) ∧
    (∀ h e, (Watched.after ops store capBytes events).cache.torrents.lookup h = some e →
      e.pins = (Watched.after ops store capBytes events).live.countP
        fun pin => decide (h = pin.torrent)) ∧
    ∀ pin ∈ (Watched.after ops store capBytes events).live, ∃ e,
      (Watched.after ops store capBytes events).cache.torrents.lookup pin.torrent = some e ∧
        0 < e.pins := by
  have hkept : (Watched.after ops store capBytes events).Kept :=
    Watched.kept_after store capBytes events
  generalize Watched.after ops store capBytes events = w at hkept ⊢
  refine ⟨?_, ?_, ?_, ?_⟩
  · obtain ⟨cut, hcut, hvictims⟩ := victims_isCut (w.cache.storedBytes - w.cache.capBytes) w.cache.idle
    exact ⟨w.cache.idle, cut, List.perm_insertionSort _ _, idle_pairwise hkept.ordered, hcut, hvictims⟩
  · intro g h d e hg hh hne heq
    refine hne (hkept.ordered.distinct g h d.lastRead ?_ ?_)
    · exact congrArg (Option.map Entry.lastRead) hg
    · rw [heq]
      exact congrArg (Option.map Entry.lastRead) hh
  · intro h e he
    rw [← pinsOf_of_some he]
    exact hkept.counted h
  · intro pin hpin
    -- a pin that is out is counted, so its torrent has an entry
    have hpos : 0 < w.cache.pinsOf pin.torrent := by
      rw [hkept.counted]
      exact List.countP_pos_iff.mpr ⟨pin, hpin, by simp⟩
    obtain ⟨e, he⟩ := exists_entry_of_pinsOf hpos
    rw [pinsOf_of_some he] at hpos
    exact ⟨e, he, hpos⟩

end Cache

end Rustorr
