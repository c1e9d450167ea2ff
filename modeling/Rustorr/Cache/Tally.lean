import Rustorr.Cache.Registry

/-! What the operations of the cache do to the stored bytes and pins of a torrent. -/

namespace Rustorr

open Cache (Error)

namespace Cache

variable {ε σ : Type}

/-- The stored bytes and the pins of an open torrent. -/
def tally (c : Cache σ) (h : InfoHash) : Option (ℕ × ℕ) :=
  (c.torrents.lookup h).map fun e => (e.stored, e.pins)

theorem tally_eq_some {c : Cache σ} {h : InfoHash} {stored pins : ℕ} :
    c.tally h = some (stored, pins) ↔
      ∃ e, c.torrents.lookup h = some e ∧ e.stored = stored ∧ e.pins = pins := by
  simp [tally]

theorem entry_eq_ok {c : Cache σ} {h : InfoHash} {e : Entry} :
    c.entry h = .ok e ↔ c.torrents.lookup h = some e := by
  unfold entry
  cases c.torrents.lookup h <;> simp

theorem entry_eq_error {c : Cache σ} {h : InfoHash} (hnone : c.torrents.lookup h = none) :
    c.entry h = .error (.unknownTorrent h) := by
  unfold entry
  rw [hnone]

/-- The sum over the entries changes by the entry that goes or comes. -/
theorem sum_stored_erase {m : AList fun _ : InfoHash => Entry} {h : InfoHash} {e : Entry}
    (he : m.lookup h = some e) :
    ((m.erase h).entries.map fun s => s.2.stored).sum + e.stored =
      (m.entries.map fun s => s.2.stored).sum := by
  have hkey : h ∈ m.entries.keys := AList.lookup_isSome.mp (by rw [he]; rfl)
  obtain ⟨e', l₁, l₂, hl₁, hm, herase⟩ := List.exists_of_kerase hkey
  have he' : e' = e := by
    have hmem : (⟨h, e'⟩ : Σ _ : InfoHash, Entry) ∈ m.entries := by simp [hm]
    exact Option.some.inj ((AList.mem_lookup_iff.mpr hmem).symm.trans he)
  subst he'
  show ((m.entries.kerase h).map fun s => s.2.stored).sum + e'.stored = _
  rw [herase, hm]
  simp only [List.map_append, List.sum_append, List.map_cons, List.sum_cons]
  omega

theorem sum_stored_insert {m : AList fun _ : InfoHash => Entry} {h : InfoHash} {e d : Entry}
    (he : m.lookup h = some e) :
    ((m.insert h d).entries.map fun s => s.2.stored).sum + e.stored =
      (m.entries.map fun s => s.2.stored).sum + d.stored := by
  have := sum_stored_erase he
  rw [AList.entries_insert]
  simp only [List.map_cons, List.sum_cons]
  have hke : (m.erase h).entries = m.entries.kerase h := rfl
  rw [hke] at this
  omega

theorem storedBytes_setEntry {c : Cache σ} {h : InfoHash} {e e' : Entry}
    (he : c.torrents.lookup h = some e) (hs : e'.stored = e.stored) :
    (c.setEntry h e').storedBytes = c.storedBytes := by
  have := sum_stored_insert (d := e') he
  simp only [storedBytes, setEntry_torrents]
  omega

theorem tally_setEntry (c : Cache σ) (h g : InfoHash) (e : Entry) :
    (c.setEntry h e).tally g = if g = h then some (e.stored, e.pins) else c.tally g := by
  unfold tally
  rw [setEntry_torrents]
  split
  · next hg => rw [hg, AList.lookup_insert, Option.map_some]
  · next hg => rw [AList.lookup_insert_ne hg]

/-! ### Dropping pins -/

theorem dropPin_of_none {pin : Pin} {c : Cache σ} (h : c.torrents.lookup pin.torrent = none) :
    c.dropPin pin = c.nextTick := by
  unfold dropPin
  simp only [nextTick_torrents, h]

theorem dropPin_of_some {pin : Pin} {c : Cache σ} {e : Entry}
    (h : c.torrents.lookup pin.torrent = some e) :
    c.dropPin pin = c.nextTick.setEntry pin.torrent
      { e with
        pins := e.pins - 1
        readers := e.readers.filter fun r => r.1 ≠ pin.id
        lastRead := c.nextTick.tick } := by
  unfold dropPin
  simp only [nextTick_torrents, h]

@[simp] theorem dropPin_store (pin : Pin) (c : Cache σ) : (c.dropPin pin).store = c.store := by
  cases he : c.torrents.lookup pin.torrent with
  | none => rw [dropPin_of_none he, nextTick_store]
  | some e => rw [dropPin_of_some he, setEntry_store, nextTick_store]

@[simp] theorem dropPin_capBytes (pin : Pin) (c : Cache σ) :
    (c.dropPin pin).capBytes = c.capBytes := by
  cases he : c.torrents.lookup pin.torrent with
  | none => rw [dropPin_of_none he]; rfl
  | some e => rw [dropPin_of_some he]; rfl

@[simp] theorem storedBytes_dropPin (pin : Pin) (c : Cache σ) :
    (c.dropPin pin).storedBytes = c.storedBytes := by
  cases he : c.torrents.lookup pin.torrent with
  | none => rw [dropPin_of_none he]; rfl
  | some e =>
    rw [dropPin_of_some he]
    exact storedBytes_setEntry (c := c.nextTick) he rfl

theorem tally_dropPin (pin : Pin) (c : Cache σ) (h : InfoHash) :
    (c.dropPin pin).tally h =
      (c.tally h).map fun t => (t.1, if h = pin.torrent then t.2 - 1 else t.2) := by
  cases he : c.torrents.lookup pin.torrent with
  | none =>
    rw [dropPin_of_none he]
    by_cases hh : h = pin.torrent
    · subst hh
      simp [tally, he]
    · simp [tally, hh, Function.comp_def]
  | some e =>
    rw [dropPin_of_some he, tally_setEntry]
    by_cases hh : h = pin.torrent
    · subst hh
      simp [tally, he]
    · simp [tally, hh, Function.comp_def]

/-- Dropping pins of one torrent leaves the others as they are. -/
theorem tally_dropPins {pins : List Pin} {h : InfoHash} (hpins : ∀ pin ∈ pins, pin.torrent = h)
    (c : Cache σ) (g : InfoHash) :
    (c.dropPins pins).tally g =
      (c.tally g).map fun t => (t.1, if g = h then t.2 - pins.length else t.2) := by
  induction pins generalizing c with
  | nil => simp [dropPins]
  | cons pin pins ih =>
    have hpin : pin.torrent = h := hpins pin List.mem_cons_self
    show (dropPins pins (c.dropPin pin)).tally g = _
    rw [ih (fun p hp => hpins p (List.mem_cons_of_mem _ hp)), tally_dropPin, hpin, Option.map_map]
    apply congrArg (fun f => Option.map f (c.tally g))
    funext t
    simp only [Function.comp_apply, List.length_cons, Prod.mk.injEq, true_and]
    split <;> omega

@[simp] theorem storedBytes_dropPins (pins : List Pin) (c : Cache σ) :
    (c.dropPins pins).storedBytes = c.storedBytes := by
  induction pins generalizing c with
  | nil => rfl
  | cons pin pins ih => exact (ih _).trans (storedBytes_dropPin pin c)

@[simp] theorem dropPins_capBytes (pins : List Pin) (c : Cache σ) :
    (c.dropPins pins).capBytes = c.capBytes := by
  induction pins generalizing c with
  | nil => rfl
  | cons pin pins ih => exact (ih _).trans (dropPin_capBytes pin c)

theorem pinInner_torrent {c : Cache σ} {h : InfoHash} {range : Option ReaderRange} {pin : Pin}
    (hpin : (c.pinInner h range).1 = .ok pin) : pin.torrent = h := by
  unfold pinInner at hpin
  simp only at hpin
  split at hpin
  · cases hpin
  · cases hpin
    rfl

/-! ### Removal -/

theorem ensureUnpinned_eq_ok {c : Cache σ} {h : InfoHash} :
    c.ensureUnpinned h = .ok () ↔ ∃ e, c.torrents.lookup h = some e ∧ e.pins = 0 := by
  unfold ensureUnpinned entry
  cases c.torrents.lookup h with
  | none => simp
  | some e =>
    by_cases hp : e.pins > 0
    · simp [hp]
      omega
    · simp [hp]
      omega

/-- Removal of an unpinned torrent that the store does not refuse. -/
theorem remove_unpinned {ops : PieceStore ε σ} {env : ε} {c : Cache σ} {h : InfoHash} {stored : ℕ}
    (ht : c.tally h = some (stored, 0)) (hstore : (ops.remove env h c.store).1 = .ok ()) :
    (remove ops env h c).1 = .ok stored ∧
      (remove ops env h c).2.storedBytes + stored = c.storedBytes ∧
      (remove ops env h c).2.capBytes = c.capBytes ∧
      ∀ g, (remove ops env h c).2.tally g = if g = h then none else c.tally g := by
  obtain ⟨e, he, rfl, hpins⟩ := tally_eq_some.mp ht
  have hentry : c.entry h = .ok e := entry_eq_ok.mpr he
  cases hr : ops.remove env h c.store with
  | mk r store =>
    rw [hr] at hstore
    cases hstore
    have hremove : remove ops env h c =
        (.ok e.stored, { c with store := store, torrents := c.torrents.erase h }) := by
      unfold remove
      simp only [hentry, hpins, gt_iff_lt, lt_irrefl, if_false, hr]
    rw [hremove]
    refine ⟨rfl, sum_stored_erase he, rfl, fun g => ?_⟩
    unfold tally
    by_cases hg : g = h
    · rw [if_pos hg, hg, AList.lookup_erase, Option.map_none]
    · rw [if_neg hg, AList.lookup_erase_ne hg]

end Cache

end Rustorr
