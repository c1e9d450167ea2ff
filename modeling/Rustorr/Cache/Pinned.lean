import Rustorr.Cache.Tally

/-! What each operation of the cache leaves of a torrent that somebody pins: its
entry, its layout, its stored bytes. -/

namespace Rustorr

open Cache (Error)

namespace Cache

variable {ε σ : Type} {ops : PieceStore ε σ} {env : ε}

def pinsOf (c : Cache σ) (h : InfoHash) : ℕ := (c.torrents.lookup h).elim 0 Entry.pins

theorem pinsOf_of_some {c : Cache σ} {h : InfoHash} {e : Entry}
    (he : c.torrents.lookup h = some e) : c.pinsOf h = e.pins := by
  unfold pinsOf
  rw [he]
  rfl

theorem exists_entry_of_pinsOf {c : Cache σ} {h : InfoHash} (hpins : 0 < c.pinsOf h) :
    ∃ e, c.torrents.lookup h = some e := by
  unfold pinsOf at hpins
  cases he : c.torrents.lookup h with
  | none =>
    rw [he] at hpins
    cases hpins
  | some e => exact ⟨e, rfl⟩

/-- An entry that still stands for the same torrent and holds no less. -/
structure Entry.Grew (e e' : Entry) : Prop where
  layout : e'.layout = e.layout
  stored : e.stored ≤ e'.stored

theorem Entry.Grew.refl (e : Entry) : e.Grew e := ⟨rfl, le_rfl⟩

/-- The torrent `h` has lost nothing. -/
def Kept (h : InfoHash) (c c' : Cache σ) : Prop :=
  ∀ e, c.torrents.lookup h = some e → ∃ e', c'.torrents.lookup h = some e' ∧ e.Grew e'

/-- One movement of the store that does not remove `h`. -/
inductive Spared (ops : PieceStore ε σ) (h : InfoHash) (s : σ) : σ → Prop
  | same : Spared ops h s s
  | openTorrent (env : ε) (g : InfoHash) (layout : TorrentLayout) :
    Spared ops h s (ops.openTorrent env g layout s).2
  | write (env : ε) (g : InfoHash) (file : FileIndex) (offset : U64) (data : List UInt8) :
    Spared ops h s (ops.write env g file offset data s).2
  | pieceCompleted (env : ε) (g : InfoHash) (piece : PieceIndex) :
    Spared ops h s (ops.pieceCompleted env g piece s).2
  | remove (env : ε) {g : InfoHash} : g ≠ h → Spared ops h s (ops.remove env g s).2

theorem kept_of_eq {h : InfoHash} {c c' : Cache σ} (heq : c'.torrents = c.torrents) :
    Kept h c c' := fun e he => ⟨e, by rw [heq, he], Entry.Grew.refl e⟩

/-- An operation that touches one entry, and lets it grow. -/
theorem kept_setEntry {h g : InfoHash} {c d : Cache σ} {e e' : Entry}
    (hc : d.torrents = c.torrents) (he : c.torrents.lookup g = some e) (hgrew : e.Grew e') :
    Kept h c (d.setEntry g e') := by
  intro x hx
  rw [setEntry_torrents]
  by_cases hg : h = g
  · subst hg
    rw [he] at hx
    cases hx
    exact ⟨e', AList.lookup_insert _, hgrew⟩
  · exact ⟨x, by rw [AList.lookup_insert_ne hg, hc, hx], Entry.Grew.refl x⟩

theorem pinsOf_setEntry (c : Cache σ) (h g : InfoHash) (e : Entry) :
    (c.setEntry g e).pinsOf h = if h = g then e.pins else c.pinsOf h := by
  unfold pinsOf
  rw [setEntry_torrents]
  split
  · next hg => rw [hg, AList.lookup_insert, Option.elim_some]
  · next hg => rw [AList.lookup_insert_ne hg]

theorem pinsOf_of_eq {c c' : Cache σ} (heq : c'.torrents = c.torrents) (h : InfoHash) :
    c'.pinsOf h = c.pinsOf h := by
  unfold pinsOf
  rw [heq]

/-- What an operation that neither takes nor gives back a pin leaves of every
torrent, whoever holds pins. -/
structure Undisturbed (ops : PieceStore ε σ) (c c' : Cache σ) : Prop where
  kept : ∀ h, Kept h c c'
  pinsOf : ∀ h, c'.pinsOf h = c.pinsOf h
  spared : ∀ h, Spared ops h c.store c'.store

theorem undisturbed_of_eq {c c' : Cache σ} (htorrents : c'.torrents = c.torrents)
    (hstore : ∀ h, Spared ops h c.store c'.store) : Undisturbed ops c c' :=
  ⟨fun _ => kept_of_eq htorrents, pinsOf_of_eq htorrents, hstore⟩

theorem undisturbed_setEntry {g : InfoHash} {c d : Cache σ} {e e' : Entry}
    (hc : d.torrents = c.torrents) (he : c.torrents.lookup g = some e) (hgrew : e.Grew e')
    (hpins : e'.pins = e.pins) (hstore : ∀ h, Spared ops h c.store d.store) :
    Undisturbed ops c (d.setEntry g e') where
  kept h := kept_setEntry hc he hgrew
  pinsOf h := by
    rw [pinsOf_setEntry]
    split
    · next hg => rw [hg, pinsOf_of_some he, hpins]
    · exact pinsOf_of_eq hc h
  spared := hstore

theorem undisturbed_openTorrent (g : InfoHash) (layout : TorrentLayout) (c : Cache σ) :
    Undisturbed ops c (c.openTorrent ops env g layout).2 := by
  have hstore : ∀ h, Spared ops h c.store (ops.openTorrent env g layout c.store).2 :=
    fun h => .openTorrent env g layout
  unfold openTorrent
  split
  · exact undisturbed_of_eq rfl fun _ => .same
  · next hnone =>
    split
    · next e store hopen =>
      rw [hopen] at hstore
      exact undisturbed_of_eq rfl hstore
    · next recovered store hopen =>
      rw [hopen] at hstore
      dsimp only
      split
      · exact undisturbed_of_eq rfl hstore
      · refine ⟨fun h e he => ⟨e, ?_, Entry.Grew.refl e⟩, fun h => ?_, hstore⟩
        · rw [setEntry_torrents, AList.lookup_insert_ne, nextTick_torrents, he]
          rintro rfl
          rw [hnone] at he
          cases he
        · rw [pinsOf_setEntry]
          split
          · next hg =>
            unfold Cache.pinsOf
            rw [hg, hnone]
            rfl
          · exact pinsOf_of_eq rfl h

theorem undisturbed_write (g : InfoHash) (file : FileIndex) (offset : U64) (data : List UInt8)
    (c : Cache σ) : Undisturbed ops c (c.write ops env g file offset data).2 := by
  have hstore : ∀ h, Spared ops h c.store (ops.write env g file offset data c.store).2 :=
    fun h => .write env g file offset data
  unfold write
  split
  · exact undisturbed_of_eq rfl fun _ => .same
  · next e he =>
    split
    · next error store hwrite =>
      rw [hwrite] at hstore
      exact undisturbed_of_eq rfl hstore
    · next added store hwrite =>
      rw [hwrite] at hstore
      exact undisturbed_setEntry (d := { c with store := store }) rfl (entry_eq_ok.mp he)
        ⟨rfl, Nat.le_add_right _ _⟩ rfl hstore

theorem undisturbed_read (g : InfoHash) (file : FileIndex) (offset : U64) (len : ℕ)
    (c : Cache σ) : Undisturbed ops c (c.read ops env g file offset len).2 := by
  unfold read
  dsimp only
  split
  · exact undisturbed_of_eq rfl fun _ => .same
  · next e he =>
    exact undisturbed_setEntry (d := c.nextTick) rfl (entry_eq_ok.mp he) ⟨rfl, le_rfl⟩ rfl
      fun _ => .same

theorem undisturbed_pieceCompleted (g : InfoHash) (piece : PieceIndex) (c : Cache σ) :
    Undisturbed ops c (c.pieceCompleted ops env g piece).2 := by
  have hstore : ∀ h, Spared ops h c.store (ops.pieceCompleted env g piece c.store).2 :=
    fun h => .pieceCompleted env g piece
  unfold pieceCompleted
  split
  · next e store hpiece =>
    rw [hpiece] at hstore
    exact undisturbed_of_eq rfl hstore
  · next store hpiece =>
    rw [hpiece] at hstore
    dsimp only
    split
    · exact undisturbed_of_eq rfl hstore
    · next e he =>
      split
      · exact undisturbed_of_eq rfl hstore
      · exact undisturbed_setEntry (d := { c with store := store }) rfl (entry_eq_ok.mp he)
          ⟨rfl, le_rfl⟩ rfl hstore

/-! ### Pins -/

theorem kept_pinInner (h g : InfoHash) (range : Option ReaderRange) (c : Cache σ) :
    Kept h c (c.pinInner g range).2 := by
  unfold pinInner
  dsimp only
  split
  · exact kept_of_eq rfl
  · next e he =>
    exact kept_setEntry (d := { c with nextPin := c.nextPin + 1 }) rfl (entry_eq_ok.mp he)
      ⟨rfl, le_rfl⟩

theorem pinInner_store (g : InfoHash) (range : Option ReaderRange) (c : Cache σ) :
    (c.pinInner g range).2.store = c.store := by
  unfold pinInner
  dsimp only
  split <;> rfl

/-- A pin that is taken counts, and nothing else changes the counts. -/
theorem pinsOf_pinInner (h g : InfoHash) (range : Option ReaderRange) (c : Cache σ) :
    (c.pinInner g range).2.pinsOf h = match (c.pinInner g range).1 with
      | .ok pin => if h = pin.torrent then c.pinsOf h + 1 else c.pinsOf h
      | .error _ => c.pinsOf h := by
  unfold pinInner
  dsimp only
  split
  · exact pinsOf_of_eq rfl h
  · next e he =>
    have hsame : pinsOf { c with nextPin := c.nextPin + 1 } h = c.pinsOf h := pinsOf_of_eq rfl h
    rw [pinsOf_setEntry, hsame]
    dsimp only
    by_cases hg : h = g
    · rw [if_pos hg, if_pos hg, hg]
      exact congrArg (· + 1) (pinsOf_of_some (entry_eq_ok.mp he)).symm
    · rw [if_neg hg, if_neg hg]

theorem kept_dropPin (h : InfoHash) (pin : Pin) (c : Cache σ) : Kept h c (c.dropPin pin) := by
  cases he : c.torrents.lookup pin.torrent with
  | none =>
    rw [dropPin_of_none he]
    exact kept_of_eq rfl
  | some e =>
    rw [dropPin_of_some he]
    exact kept_setEntry (d := c.nextTick) rfl he ⟨rfl, le_rfl⟩

theorem pinsOf_dropPin (h : InfoHash) (pin : Pin) (c : Cache σ) :
    (c.dropPin pin).pinsOf h = c.pinsOf h - if h = pin.torrent then 1 else 0 := by
  have htally := tally_dropPin pin c h
  unfold tally at htally
  unfold pinsOf
  cases he : c.torrents.lookup h with
  | none =>
    rw [he] at htally
    rw [Option.map_eq_none_iff.mp htally, Option.elim_none, Nat.zero_sub]
  | some e =>
    rw [he] at htally
    obtain ⟨e', he', heq⟩ := Option.map_eq_some_iff.mp htally
    rw [he', Option.elim_some, Option.elim_some, (Prod.mk.inj heq).2]
    split <;> rfl

/-! ### Removal -/

variable (ops env) in
/-- A torrent with a pin stays, and so do the others. -/
theorem remove_keeps {h : InfoHash} (g : InfoHash) (c : Cache σ) (hpins : 0 < c.pinsOf h) :
    Kept h c (c.remove ops env g).2 ∧ Spared ops h c.store (c.remove ops env g).2.store := by
  unfold remove
  split
  · exact ⟨kept_of_eq rfl, .same⟩
  · next e he =>
    rw [entry_eq_ok] at he
    split
    · exact ⟨kept_of_eq rfl, .same⟩
    · next hunpinned =>
      have hg : g ≠ h := by
        rintro rfl
        rw [pinsOf_of_some he] at hpins
        exact hunpinned hpins
      have hstore : Spared ops h c.store (ops.remove env g c.store).2 := .remove env hg
      split
      · next error store hremove =>
        rw [hremove] at hstore
        exact ⟨kept_of_eq rfl, hstore⟩
      · next store hremove =>
        rw [hremove] at hstore
        refine ⟨fun x hx => ⟨x, ?_, Entry.Grew.refl x⟩, hstore⟩
        show (c.torrents.erase g).lookup h = _
        rw [AList.lookup_erase_ne (Ne.symm hg), hx]

/-- Removal gives up only a torrent that nobody pins. -/
theorem pinsOf_remove (h g : InfoHash) (c : Cache σ) :
    (c.remove ops env g).2.pinsOf h = c.pinsOf h := by
  unfold remove
  split
  · rfl
  · next e he =>
    rw [entry_eq_ok] at he
    split
    · rfl
    · next hunpinned =>
      split
      · exact pinsOf_of_eq rfl h
      · unfold pinsOf
        show ((c.torrents.erase g).lookup h).elim 0 Entry.pins = _
        by_cases hg : h = g
        · rw [hg, AList.lookup_erase, he]
          exact (Nat.eq_zero_of_not_pos hunpinned).symm
        · rw [AList.lookup_erase_ne hg]

end Cache

end Rustorr
